import Cozal.Source.Evaluate
import Cozal.Source.Lookup
import Cozal.Source.Returns

namespace Cozal

open Transposer

/-!
# Walking back to a checkpoint

`get_before_or_at` looks for the last step before or at a time.  When that is unsaturated, a loop
walks back to a step that is not, and starts the step after it.  The body of the loop shadows the
index it counts down from, so it never gets further back than one step.

* `Steps.walkBack_diverges` — when the step before is unsaturated as well, the loop never ends.
* `Steps.OneStepBack`, `Steps.CanStart` — the states before the walk in which it ends, and in
  which the step it finds can be started and handed out.
* `Steps.getBeforeOrAt_returns_iff` — the call returns exactly in these states.
* `Steps.getBeforeOrAt_handsOut_iff` — it hands out the step it announces exactly when it need
  not consume the first step for it.
-/

variable {T : Type} [Transposer T]

namespace Steps

variable {s s' : Steps T}

/-- When the last step before or at `t` is unsaturated, the one before it is not: so one step back
    there is a checkpoint. -/
def OneStepBack (s : Steps T) (t : Time T) : Prop :=
  ∀ j x prev, s.LatestStep t (j + 1) x → x.isUnsaturated = true → s.steps[j]? = some prev →
    prev.isUnsaturated = false

/-- What is handed out: a saturating step under its own sequence number.  It is at or before `t`,
    and every step after it that is at or before `t` is unsaturated. -/
def HandsOut (s : Steps T) (t : Time T) (i stepIndex : ℕ) : Prop :=
  ∃ step, s.steps[i]? = some step ∧ step.isSaturating = true ∧
    s.getBySequenceNumber stepIndex = some step ∧ step.getTime ≤ t ∧
    ∀ k y, i < k → s.steps[k]? = some y → y.getTime ≤ t → y.isUnsaturated = true

/-- An unsaturated step is not the first one. -/
theorem Sound.exists_prev (h : s.Sound) {i : ℕ} {x : Step T} (hx : s.steps[i]? = some x)
    (hunsat : x.isUnsaturated = true) : ∃ j prev, i = j + 1 ∧ s.steps[j]? = some prev := by
  obtain ⟨front, hfront, hfrontu⟩ := h.front
  have hne : i ≠ 0 := index_ne hx hfront hunsat hfrontu
  have hi := (List.getElem?_eq_some_iff.mp hx).1
  exact ⟨i - 1, s.steps[i - 1], by omega, List.getElem?_eq_getElem (by omega)⟩

/-- There is a step at the index of the one that has started, unless the first step has been
    consumed for the last one. -/
theorem GivenUp.getElem?_iff {pinnedTimes : List (Time T)} {j : ℕ}
    {step : Step T} {f : SaturationFuture T} {r : Option ℕ}
    (hstep : s.steps[j + 1]? = some step) (h : GivenUp s pinnedTimes j step f r s') :
    (∃ y, s'.steps[j + 1]? = some y) ↔ (s.ConsumesFront j → 2 < s.steps.length) := by
  cases h with
  | @front first rest b hj heq hb hlt =>
    subst hj
    have hconsumes : s.ConsumesFront 0 := ⟨rfl, first, b, by rw [heq]; rfl, hb, hlt⟩
    rw [imp_iff_right hconsumes, heq]
    cases rest with
    | nil => simp [consumeFront]
    | cons z rest => simp [consumeFront]
  | nothing hkeep | checkpoint hkeep _ =>
    refine iff_of_true ⟨_, getElem?_saturatedAt_self hstep⟩ ?_
    rintro ⟨hj, front, b, hfront, hb, hlt⟩
    exact absurd hlt (not_lt.mpr (hkeep hj b front hb hfront))

/-- What is handed out when the first step is consumed is later than the time: it is the third
    step, at the index of the second one. -/
theorem BeforeCases.lt_of_consumes {t : Time T} {pinnedTimes : List (Time T)} {j k n : ℕ}
    {x prev step : Step T} (h : s.BeforeCases pinnedTimes t (.ok (.saturating k n)) s')
    (hx : s.LatestStep t (j + 1) x) (hunsat : x.isUnsaturated = true)
    (hprev : s.steps[j]? = some prev) (hsat : prev.isSaturated = true) (hj : s.ConsumesFront j)
    (hstep : s'.steps[k]? = some step) : t < step.getTime := by
  obtain ⟨w, hw⟩ := Step.isSaturated_iff.mp hsat
  obtain ⟨hj, front, b, hfront, hb, hlt⟩ := hj
  cases h with
  | saturating hz hzsat =>
    obtain ⟨-, rfl⟩ := hx.unique hz
    rw [isSaturating_not_unsaturated hzsat] at hunsat
    cases hunsat
  | previous hz _ hp hpsat =>
    obtain ⟨hij, -⟩ := hx.unique hz
    obtain rfl := Nat.succ.inj hij
    rw [hprev, Option.some.injEq] at hp
    exact absurd (hp ▸ hw) (isSaturating_ne_saturated hpsat w)
  | start hz _ _ _ hsaturate _ =>
    obtain ⟨hij, rfl⟩ := hx.unique hz
    obtain rfl := Nat.succ.inj hij
    cases hsaturate with
    | saturate d _ _ hkeep => exact absurd hlt (not_lt.mpr (hkeep hj b front hb hfront))
    | @consume first rest f b' _ heq _ _ _ =>
      subst hj
      -- the index is that of the second step, and the third one has taken its place
      have hthird : s.steps[2]? = some step := by
        rw [heq]
        exact hstep
      exact hx.after 2 step (by omega) hthird

/-- Some step is handed out when the last one before or at the time is not saturated. -/
theorem BeforeCases.exists_saturating {t : Time T} {pinnedTimes : List (Time T)} {i : ℕ}
    {x : Step T} {r : Except Unit (BeforeStatus T)} (h : s.BeforeCases pinnedTimes t r s')
    (hx : s.LatestStep t i x) (hnsat : x.isSaturated = false) :
    ∃ k n step, r = .ok (.saturating k n) ∧ s'.steps[k]? = some step := by
  cases h with
  | before hbefore => exact absurd hx.le (not_le.mpr (hbefore x (List.mem_of_getElem? hx.get)))
  | saturated hz hsat _ =>
    obtain ⟨-, rfl⟩ := hx.unique hz
    rw [hsat] at hnsat
    cases hnsat
  | saturating hz _ => exact ⟨_, _, _, rfl, hz.get⟩
  | previous _ _ hp _ => exact ⟨_, _, _, rfl, hp⟩
  | start _ _ _ _ _ hy => exact ⟨_, _, _, rfl, hy⟩

section Build

variable [BuildProfile]

/-- When the last step before or at `t` has to start: the first step is consumed for it while a
    third one follows, or it is not and the checkpoint to give up can be chosen. -/
def CanStart (s : Steps T) (t : Time T) (pinnedTimes : List (Time T)) : Prop :=
  ∀ j x prev, s.LatestStep t (j + 1) x → x.isUnsaturated = true → s.steps[j]? = some prev →
    prev.isSaturated = true →
    (s.ConsumesFront j ∧ 2 < s.steps.length) ∨ (¬ s.ConsumesFront j ∧ s.MakesRoom pinnedTimes)

/-- When the last step before or at `t` has to start, the first step is not consumed for it, and
    the checkpoint to give up can be chosen. -/
def StartsInPlace (s : Steps T) (t : Time T) (pinnedTimes : List (Time T)) : Prop :=
  ∀ j x prev, s.LatestStep t (j + 1) x → x.isUnsaturated = true → s.steps[j]? = some prev →
    prev.isSaturated = true → ¬ s.ConsumesFront j ∧ s.MakesRoom pinnedTimes

/-- **The loop does not walk back.**  When the step before is unsaturated it looks at that step
    in every round. -/
theorem walkBack_diverges {pinnedTimes : List (Time T)} {j : ℕ} {prev : Step T}
    (hprev : s.steps[j]? = some prev) (hunsat : prev.isUnsaturated = true) (fuel : ℕ) :
    s.walkBack pinnedTimes (j + 1) fuel = .running := by
  have hst := Step.isUnsaturated_iff.mp hunsat
  induction fuel with
  | zero => rfl
  | succ fuel ih =>
    rw [walkBack]
    simp only [hprev, Step.isSaturated, Step.isSaturating, hst, Bool.false_eq_true, if_false]
    exact ih

/-- The debug assertions hold in every state that keeps the invariant. -/
theorem Sound.debugAssertions_returns (h : s.Sound) : s.debugAssertions = .ok () := by
  unfold debugAssertions
  split
  · simp [h.first_checkpoint, Outcome.assert]
  · rfl

/-- After the push, the call looks for the last step before or at the time. -/
theorem getBeforeOrAt_of_latest (h : s.Sound) {s₁ : Steps T} (hpush : s.tryNextScheduled = .ok s₁)
    {t : Time T} {i : ℕ} {x : Step T} (hx : s₁.LatestStep t i x) (hunsat : x.isUnsaturated = true)
    (fuel : ℕ) (pinnedTimes : List (Time T)) :
    s.getBeforeOrAt fuel t pinnedTimes = (s₁.walkBack pinnedTimes i fuel >>= fun (r, s') =>
      match r with
      | .error () => .ok (.error (), s')
      | .ok (.saturatedReady i) => do
          let nextTime ← s'.getScheduledTime
          let _ ← Outcome.unwrap .dequeIndex s'.steps[i]?
          return (.ok (.saturated i nextTime), s')
      | .ok (.saturating i) => do
          let _ ← Outcome.unwrap .dequeIndex s'.steps[i]?
          return (.ok (.saturating i (i + s'.numDeletedSteps)), s')
      | .ok .allRepeat => .panic .dequeIndex) := by
  have hst := Step.isUnsaturated_iff.mp hunsat
  have h₁ := (tryNextScheduled_cases hpush).sound h
  simp only [getBeforeOrAt, getBeforeOrAtInternal, h.debugAssertions_returns, hpush,
    h₁.searchBeforeOrAt_eq hx,
    hx.get, Step.isSaturated, Step.isSaturating, hst, Outcome.ok_bind, Bool.false_eq_true,
    if_false]
  rfl

/-- When the loop does not end, nor does the call. -/
theorem getBeforeOrAt_diverges (h : s.Sound) {s₁ : Steps T}
    (hpush : s.tryNextScheduled = .ok s₁) {t : Time T} (hback : ¬ s₁.OneStepBack t) (fuel : ℕ)
    (pinnedTimes : List (Time T)) : s.getBeforeOrAt fuel t pinnedTimes = .running := by
  simp only [OneStepBack, not_forall, Bool.not_eq_false] at hback
  obtain ⟨j, x, prev, hx, hunsat, hprev, hprevu⟩ := hback
  rw [getBeforeOrAt_of_latest h hpush hx hunsat, walkBack_diverges hprev hprevu]
  rfl

/-- When the step that is looked for has to start, the call returns exactly when it starts and
    there still is a step at its index. -/
theorem getBeforeOrAt_start_returns (h : s.Sound) {s₁ : Steps T}
    (hpush : s.tryNextScheduled = .ok s₁) {t : Time T} {j : ℕ} {x prev : Step T}
    (hx : s₁.LatestStep t (j + 1) x) (hunsat : x.isUnsaturated = true)
    (hprev : s₁.steps[j]? = some prev) (hsat : prev.isSaturated = true)
    {pinnedTimes : List (Time T)} :
    (∃ fuel r s', s.getBeforeOrAt fuel t pinnedTimes = .ok (r, s')) ↔
      ∃ s' y, s₁.saturate (s₁.numDeletedSteps + (j + 1)) pinnedTimes = .ok s' ∧
        s'.steps[j + 1]? = some y := by
  simp only [getBeforeOrAt_of_latest h hpush hx hunsat]
  constructor
  · rintro ⟨fuel, r, s', hr⟩
    obtain ⟨⟨r₁, s₂⟩, hwalk, hr⟩ := Outcome.bind_eq_ok.mp hr
    rcases walkBack_cases hwalk with ⟨hj, -⟩ | ⟨j', hj, ⟨hnone, -⟩ | ⟨y, hy, hcase⟩⟩
    · omega
    · obtain rfl : j = j' := by omega
      rw [hprev] at hnone
      cases hnone
    · obtain rfl : j = j' := by omega
      rw [hprev, Option.some.injEq] at hy
      subst hy
      rcases hcase with ⟨-, rfl, hs₂⟩ | ⟨hsat', -⟩
      · rw [Nat.add_comm] at hs₂
        simp only [Outcome.bind_eq_ok, Outcome.unwrap_eq_ok] at hr
        obtain ⟨z, hz, -⟩ := hr
        exact ⟨s₂, z, hs₂, hz⟩
      · obtain ⟨w, hw⟩ := Step.isSaturated_iff.mp hsat
        exact absurd hw (isSaturating_ne_saturated hsat' w)
  · rintro ⟨s₂, y, hs₂, hy⟩
    -- one round of the loop is enough
    rw [Nat.add_comm] at hs₂
    refine ⟨1, .ok (.saturating (j + 1) (j + 1 + s₂.numDeletedSteps)), s₂, ?_⟩
    simp only [walkBack, hprev, hsat, if_true, hs₂, Outcome.ok_bind, Outcome.pure_eq, hy,
      Outcome.unwrap_some]

/-- Without a step to start the call returns. -/
theorem getBeforeOrAt_returns_of_checkpoint (h : s.Sound) {s₁ : Steps T}
    (hpush : s.tryNextScheduled = .ok s₁) {t : Time T}
    (hnone : ∀ i x, s₁.LatestStep t i x → x.isUnsaturated = false)
    (pinnedTimes : List (Time T)) (fuel : ℕ) :
    ∃ r s', s.getBeforeOrAt fuel t pinnedTimes = .ok (r, s') := by
  have h₁ := (tryNextScheduled_cases hpush).sound h
  simp only [getBeforeOrAt, getBeforeOrAtInternal, h.debugAssertions_returns, hpush,
    Outcome.ok_bind, Bool.false_eq_true, if_false]
  rcases searchBeforeOrAt_cases h₁ t with ⟨i, x, hi, hx⟩ | ⟨hi, -⟩
  · obtain ⟨last, hlast, -⟩ := h₁.exists_last
    have hscheduled : ∃ nextTime, s₁.getScheduledTime = .ok nextTime :=
      ⟨_, by rw [getScheduledTime, getLast, hlast]; rfl⟩
    obtain ⟨nextTime, hnext⟩ := hscheduled
    simp only [hi, hx.get]
    rcases isUnsaturated_eq_false_iff.mp (hnone i x hx) with hsat | hsat
    · obtain ⟨f, a, ch, hst⟩ := Step.isSaturating_iff.mp hsat
      exact ⟨_, s₁, by simp [Step.isSaturated, Step.isSaturating, hst, hx.get]; rfl⟩
    · exact ⟨_, s₁, by simp [hsat, hnext, hx.get]; rfl⟩
  · exact ⟨.error (), s₁, by simp [hi]⟩

/-- A step that is saturating is handed out in the place of the one after it. -/
theorem getBeforeOrAt_returns_of_previous (h : s.Sound) {s₁ : Steps T}
    (hpush : s.tryNextScheduled = .ok s₁) {t : Time T} {j : ℕ} {x prev : Step T}
    (hx : s₁.LatestStep t (j + 1) x) (hunsat : x.isUnsaturated = true)
    (hprev : s₁.steps[j]? = some prev) (hsat : prev.isSaturating = true)
    (pinnedTimes : List (Time T)) :
    ∃ fuel r s', s.getBeforeOrAt fuel t pinnedTimes = .ok (r, s') := by
  obtain ⟨f, a, ch, hst⟩ := Step.isSaturating_iff.mp hsat
  refine ⟨1, .ok (.saturating j (j + s₁.numDeletedSteps)), s₁, ?_⟩
  rw [getBeforeOrAt_of_latest h hpush hx hunsat]
  simp [walkBack, hprev, Step.isSaturated, Step.isSaturating, hst]

/-- **When `get_before_or_at` returns**: the loop ends in its first round, and if the step it is
    looking for has to start, it can. -/
theorem getBeforeOrAt_returns_iff (h : s.Sound) (hlinked : s.Linked) {s₁ : Steps T}
    (hpush : s.tryNextScheduled = .ok s₁) {t : Time T} {pinnedTimes : List (Time T)} :
    (∃ fuel r s', s.getBeforeOrAt fuel t pinnedTimes = .ok (r, s')) ↔
      s₁.OneStepBack t ∧ s₁.CanStart t pinnedTimes := by
  have hpushed := tryNextScheduled_cases hpush
  have h₁ := hpushed.sound h
  -- a step has to start: `saturate` returns when it finds room or consumes the first step, and then
  -- the step is still at its index only when a third one follows
  have hstart : ∀ j x prev, s₁.LatestStep t (j + 1) x → x.isUnsaturated = true →
      s₁.steps[j]? = some prev → prev.isSaturated = true →
      ((∃ fuel r s', s.getBeforeOrAt fuel t pinnedTimes = .ok (r, s')) ↔
        (s₁.ConsumesFront j ∧ 2 < s₁.steps.length) ∨
          (¬ s₁.ConsumesFront j ∧ s₁.MakesRoom pinnedTimes)) := by
    intro j x prev hx hunsat hprev hsat
    rw [getBeforeOrAt_start_returns h hpush hx hunsat hprev hsat]
    obtain ⟨w, hw⟩ := Step.isSaturated_iff.mp hsat
    have hreturns : (∃ s', s₁.saturate (s₁.numDeletedSteps + (j + 1)) pinnedTimes = .ok s') ↔
        s₁.ConsumesFront j ∨ s₁.MakesRoom pinnedTimes :=
      saturate_returns_iff h₁ (hpushed.linked hlinked) hprev hsat hx.get hunsat
    have hget : ∀ s', s₁.saturate (s₁.numDeletedSteps + (j + 1)) pinnedTimes = .ok s' →
        ((∃ y, s'.steps[j + 1]? = some y) ↔ (s₁.ConsumesFront j → 2 < s₁.steps.length)) := by
      intro s' hs'
      obtain ⟨r, f, -, -, hgiven⟩ := saturate_givenUp h₁ hprev hw hx.get
        (Step.isUnsaturated_iff.mp hunsat) hs'
      exact hgiven.getElem?_iff hx.get
    constructor
    · rintro ⟨s', y, hs', hy⟩
      have hlen := (hget s' hs').mp ⟨y, hy⟩
      have hroom := hreturns.mp ⟨s', hs'⟩
      tauto
    · intro hcond
      obtain ⟨s', hs'⟩ := hreturns.mpr (by tauto)
      obtain ⟨y, hy⟩ := (hget s' hs').mpr (by tauto)
      exact ⟨s', y, hs', hy⟩
  constructor
  · intro hret
    refine ⟨?_, fun j x prev hx hunsat hprev hsat => (hstart j x prev hx hunsat hprev hsat).mp hret⟩
    -- two steps back the loop does not end, whatever the fuel
    by_contra hback
    obtain ⟨fuel, r, s', hr⟩ := hret
    rw [getBeforeOrAt_diverges h hpush hback] at hr
    cases hr
  · rintro ⟨hback, hcan⟩
    by_cases hnone : ∀ i x, s₁.LatestStep t i x → x.isUnsaturated = false
    · exact ⟨0, getBeforeOrAt_returns_of_checkpoint h hpush hnone pinnedTimes 0⟩
    · simp only [not_forall, Bool.not_eq_false] at hnone
      obtain ⟨i, x, hx, hunsat⟩ := hnone
      obtain ⟨j, prev, rfl, hprev⟩ := h₁.exists_prev hx.get hunsat
      -- the first round looks at the step before, which is not unsaturated
      rcases isUnsaturated_eq_false_iff.mp (hback j x prev hx hunsat hprev) with hsat | hsat
      · exact getBeforeOrAt_returns_of_previous h hpush hx hunsat hprev hsat pinnedTimes
      · exact (hstart j x prev hx hunsat hprev hsat).mpr (hcan j x prev hx hunsat hprev hsat)

/-- **When the step that is announced is handed out**: the loop ends in its first round, and if
    the step it is looking for has to start, the first step is not consumed for it. -/
theorem getBeforeOrAt_handsOut_iff (h : s.Sound) (hlinked : s.Linked) {s₁ : Steps T}
    (hpush : s.tryNextScheduled = .ok s₁) {t : Time T} {pinnedTimes : List (Time T)} {i : ℕ}
    {x : Step T} (hx : s₁.LatestStep t i x) (hnsat : x.isSaturated = false) :
    (∃ fuel k n s', s.getBeforeOrAt fuel t pinnedTimes = .ok (.ok (.saturating k n), s') ∧
        s'.HandsOut t k n) ↔
      s₁.OneStepBack t ∧ s₁.StartsInPlace t pinnedTimes := by
  have h₁ := (tryNextScheduled_cases hpush).sound h
  have hreturns : (∃ fuel r s', s.getBeforeOrAt fuel t pinnedTimes = .ok (r, s')) ↔
      s₁.OneStepBack t ∧ s₁.CanStart t pinnedTimes :=
    getBeforeOrAt_returns_iff h hlinked hpush
  have hcases : ∀ {fuel r s'}, s.getBeforeOrAt fuel t pinnedTimes = .ok (r, s') →
      s₁.BeforeCases pinnedTimes t r s' := by
    intro fuel r s' hr
    obtain ⟨s₁', hpush', -, hcases⟩ := getBeforeOrAt_cases h hr
    obtain rfl : s₁ = s₁' := Outcome.ok.inj (hpush.symm.trans hpush')
    exact hcases
  constructor
  · rintro ⟨fuel, k, n, s', hr, step, hstep, -, -, hle, -⟩
    obtain ⟨hback, hcan⟩ := hreturns.mp ⟨fuel, _, s', hr⟩
    refine ⟨hback, ?_⟩
    intro j y prev hy hunsat hprev hsat
    refine (hcan j y prev hy hunsat hprev hsat).resolve_left ?_
    -- a step found where the first one has been consumed lies beyond the time
    rintro ⟨hconsumes, -⟩
    exact absurd hle (not_le.mpr
      ((hcases hr).lt_of_consumes hy hunsat hprev hsat hconsumes hstep))
  · rintro ⟨hback, hstarts⟩
    obtain ⟨fuel, r, s', hr⟩ := hreturns.mpr ⟨hback, fun j y prev hy hunsat hprev hsat =>
      Or.inr (hstarts j y prev hy hunsat hprev hsat)⟩
    obtain ⟨k, n, step, rfl, hstep⟩ := (hcases hr).exists_saturating hx hnsat
    refine ⟨fuel, k, n, s', hr, step, hstep, ?_⟩
    rcases (hcases hr).finds h₁ hstep with ⟨rfl, hlatest, hsat⟩ | ⟨front, y, rest, b, heq, hfront,
      hb, hlt, hunsat, hle, hgt⟩
    · exact ⟨hsat, getBySequenceNumber_eq_some.mpr ⟨k, rfl, hstep⟩, hlatest.le, hlatest.after⟩
    · -- else the first step would have been consumed
      have hlatest : s₁.LatestStep t 1 y := by
        refine h₁.sorted.latest (by rw [heq]; rfl) hle ?_
        intro z hz
        rw [heq, List.getElem?_cons_succ, List.getElem?_cons_succ, List.getElem?_cons_zero,
          Option.some.injEq] at hz
        exact hz ▸ hgt
      have hconsumes : s₁.ConsumesFront 0 := ⟨rfl, front, b, by rw [heq]; rfl, hb, hlt⟩
      exact absurd hconsumes (hstarts 0 y front hlatest hunsat (by rw [heq]; rfl) hfront).1

end Build

/-- Of two steps, the second can only step back to the first. -/
theorem oneStepBack_of_pair {t : Time T} {first second : Step T} (h : s.steps = [first, second])
    (hfirst : first.isUnsaturated = false) : s.OneStepBack t := by
  intro j x prev hx _ hprev
  have hj := (List.getElem?_eq_some_iff.mp hx.get).1
  rw [h] at hj hprev
  obtain rfl : j = 0 := Nat.lt_one_iff.mp (Nat.succ_lt_succ_iff.mp hj)
  cases hprev
  exact hfirst

end Steps

/-- **When `get_before_or_at` returns.**  After any sequence of calls, a call for the time `t`
    returns exactly when, once the next step has been pushed, the last step before or at `t` or
    the one before it is not unsaturated, and a step that has to start can be started and handed
    out.  When both of them are unsaturated, it runs forever. -/
theorem get_before_or_at_returns [BuildProfile] {transposer : T} {startTime : Time T}
    {rngSeed : Seed T} {calls : List (Steps.Call T)} {s : Steps T}
    (h : Steps.Reachable transposer startTime rngSeed calls s) (t : Time T)
    (pinnedTimes : List (Time T)) :
    ∃ s₁, s.tryNextScheduled = .ok s₁ ∧
      (¬ s₁.OneStepBack t → ∀ fuel, s.getBeforeOrAt fuel t pinnedTimes = .running) ∧
      ((∃ fuel r s', s.getBeforeOrAt fuel t pinnedTimes = .ok (r, s')) ↔
        s₁.OneStepBack t ∧ s₁.CanStart t pinnedTimes) := by
  obtain ⟨s₁, hpush⟩ := h.sound.tryNextScheduled_returns
  exact ⟨s₁, hpush,
    fun hback fuel => Steps.getBeforeOrAt_diverges h.sound hpush hback fuel pinnedTimes,
    Steps.getBeforeOrAt_returns_iff h.sound h.linked hpush⟩

/-- The step at 3 has been pushed by a poll of the events.  A poll of the state at 4 starts it from
    the step at 0. -/
theorem get_before_or_at_returns_script :
    ∃ (_ : BuildProfile) (s : Steps Script),
      (∃ x, s.steps.getLast? = some x ∧ x.isUnsaturated = true) ∧
      ∃ fuel r s', s.getBeforeOrAt fuel (4 : ℕ) [(2 : ℕ)] = .ok (r, s') := by
  let _ : BuildProfile := debugBuild
  have hnew := @Steps.ReachableBy.new Script _ _ (fun _ _ => True) ⟨[.schedule 3], [], [], 0⟩
    (0 : ℕ) ()
  have hpoll := hnew.call trivial (.poll 0 20 [] rfl rfl rfl)
  have hready := hpoll.call trivial (.getBeforeOrAtEvents (2 : ℕ) [] rfl)
  obtain ⟨s₁, hpush, -, hreturns⟩ := get_before_or_at_returns hready (4 : ℕ) [(2 : ℕ)]
  obtain rfl := Outcome.ok.inj hpush
  refine ⟨inferInstance, _, ⟨_, rfl, rfl⟩, hreturns.mpr ⟨?_, ?_⟩⟩
  · exact Steps.oneStepBack_of_pair rfl rfl
  · intro j x prev _ _ _ _
    refine Or.inr ⟨?_, Or.inl (by decide)⟩
    rintro ⟨-, front, b, -, hb, -⟩
    cases hb

/-- Two of 32 steps that follow one another have lost their state, which takes 31 checkpoints
    and pinned times that protect every other one of them.  A poll of the second of them never
    ends. -/
theorem get_before_or_at_returns_fails :
    ∃ (_ : BuildProfile) (calls : List (Steps.Call Script)) (s : Steps Script),
      Steps.Reachable ⟨[.schedule 1], [.schedule 1], [], 0⟩ (0 : ℕ) () calls s ∧
      ∀ fuel, s.getBeforeOrAt fuel (2 : ℕ) [] = .running := by
  let _ : BuildProfile := debugBuild
  let pinnedTimes : List ℕ := [3, 5, 7, 9, 11, 13, 15, 17, 19, 21, 23, 25, 27, 29]
  have hrun : (Steps.evalAll (Steps.eachInTurn 20 30 ++ [.getBeforeOrAtEvents (31 : ℕ) pinnedTimes])
      (.new (⟨[.schedule 1], [.schedule 1], [], 0⟩ : Script) (0 : ℕ) ())).check (fun s =>
        s.steps.getLast?.map Step.isSaturated = some false ∧
        s.steps[1]?.map Step.isUnsaturated = some true ∧
        s.steps[2]?.map (fun x => (x.isUnsaturated, x.getTime)) = some (true, (2 : ℕ)) ∧
        s.steps[3]?.map Step.getTime = some (3 : ℕ)) = true := by
    decide +kernel
  obtain ⟨s, heval, hs⟩ := Outcome.exists_of_check hrun
  have hreach := Steps.reachable_of_evalAll .new heval
  simp only [decide_eq_true_eq, Option.map_eq_some_iff, Prod.mk.injEq] at hs
  obtain ⟨⟨last, hlast, hnsat⟩, ⟨prev, hprev, hprevu⟩, ⟨x, hx, hxu, hxt⟩, y, hy, hyt⟩ := hs
  -- the steps at 1 and 2 are unsaturated, so from the second the loop goes back twice
  have hlatest : s.LatestStep (2 : ℕ) 2 x := by
    refine hreach.sound.sorted.latest hx (le_of_eq hxt) ?_
    intro z hz
    rw [hy, Option.some.injEq] at hz
    rw [← hz, hyt]
    show (2 : ℕ) < 3
    decide
  refine ⟨inferInstance, _, s, hreach, fun fuel => Steps.getBeforeOrAt_diverges hreach.sound
    (Steps.tryNextScheduled_eq_self hlast hnsat) ?_ fuel []⟩
  intro hback
  have hprevn := hback 1 x prev hlatest hxu hprev
  rw [hprevu] at hprevn
  cases hprevn

/-- **The step handed out is the one announced.**  After any sequence of calls, when the last step
    before or at `t` is not saturated, a call hands out a saturating step under its own sequence
    number exactly when that step or the one before it is not unsaturated, and a step that has to
    start can be started without consuming the first one. -/
theorem announced_step_handed_out [BuildProfile] {transposer : T} {startTime : Time T}
    {rngSeed : Seed T} {calls : List (Steps.Call T)} {s : Steps T}
    (h : Steps.Reachable transposer startTime rngSeed calls s) (t : Time T)
    (pinnedTimes : List (Time T)) :
    ∃ s₁, s.tryNextScheduled = .ok s₁ ∧ ∀ i x, s₁.LatestStep t i x → x.isSaturated = false →
      ((∃ fuel k n s', s.getBeforeOrAt fuel t pinnedTimes = .ok (.ok (.saturating k n), s') ∧
          s'.HandsOut t k n) ↔
        s₁.OneStepBack t ∧ s₁.StartsInPlace t pinnedTimes) := by
  obtain ⟨s₁, hpush⟩ := h.sound.tryNextScheduled_returns
  exact ⟨s₁, hpush, fun i x hx hnsat =>
    Steps.getBeforeOrAt_handsOut_iff h.sound h.linked hpush hx hnsat⟩

/-- The step at 3 is started from the step at 0, and handed out under the number 1. -/
theorem announced_step_handed_out_script :
    ∃ (_ : BuildProfile) (s : Steps Script) (fuel k n : ℕ) (s' : Steps Script),
      s.getBeforeOrAt fuel (4 : ℕ) [(2 : ℕ)] = .ok (.ok (.saturating k n), s') ∧
      s'.HandsOut (4 : ℕ) k n := by
  let _ : BuildProfile := debugBuild
  have hnew := @Steps.ReachableBy.new Script _ _ (fun _ _ => True) ⟨[.schedule 3], [], [], 0⟩
    (0 : ℕ) ()
  have hpoll := hnew.call trivial (.poll 0 20 [] rfl rfl rfl)
  have hready := hpoll.call trivial (.getBeforeOrAtEvents (2 : ℕ) [] rfl)
  obtain ⟨s₁, hpush, hhands⟩ := announced_step_handed_out hready (4 : ℕ) [(2 : ℕ)]
  obtain rfl := Outcome.ok.inj hpush
  have hlatest := hready.sound.sorted.latest (i := 1) (b := (4 : ℕ)) rfl (by decide)
    (by intro y hy; cases hy)
  refine ⟨inferInstance, _, (hhands 1 _ hlatest rfl).mpr ⟨?_, ?_⟩⟩
  · exact Steps.oneStepBack_of_pair rfl rfl
  · intro j x prev _ _ _ _
    refine ⟨?_, Or.inl (by decide)⟩
    rintro ⟨-, front, b, -, hb, -⟩
    cases hb

/-- The steps are at 0 and 10.  After `delete_before(10)` a poll at 10 has to start the second
    step.  It consumes the first one for it, and does not find the second one at its old index. -/
theorem announced_step_handed_out_fails :
    ∃ (_ : BuildProfile) (calls : List (Steps.Call Script)) (s s₁ : Steps Script)
      (x : Step Script),
      Steps.Reachable ⟨[.schedule 10], [], [], 0⟩ (0 : ℕ) () calls s ∧
      s.tryNextScheduled = .ok s₁ ∧ s₁.LatestStep (10 : ℕ) 1 x ∧ x.isSaturated = false ∧
      s.getBeforeOrAt 1 (10 : ℕ) [] = .panic .dequeIndex ∧
      ¬ ∃ fuel k n s', s.getBeforeOrAt fuel (10 : ℕ) [] = .ok (.ok (.saturating k n), s') ∧
        s'.HandsOut (10 : ℕ) k n := by
  let _ : BuildProfile := debugBuild
  have hnew := @Steps.ReachableBy.new Script _ _ (fun _ _ => True) ⟨[.schedule 10], [], [], 0⟩
    (0 : ℕ) ()
  have hpoll := hnew.call trivial (.poll 0 20 [] rfl rfl rfl)
  have hdelete := hpoll.call trivial (.deleteBefore (10 : ℕ) rfl)
  refine ⟨inferInstance, _, _, _, _, hdelete, rfl, ⟨rfl, le_refl (10 : ℕ), ?_⟩, rfl, rfl, ?_⟩
  · intro j y hj hy
    have hlt := (List.getElem?_eq_some_iff.mp hy).1
    exact absurd hlt (not_lt.mpr hj)
  · rintro ⟨fuel, k, n, s', hr, -⟩
    cases fuel <;> cases hr

end Cozal
