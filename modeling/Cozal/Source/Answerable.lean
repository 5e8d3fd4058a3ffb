import Cozal.Source.Reachable

namespace Cozal

open Transposer

/-!
# Which times can still be asked for

`Source::advance` promises that no earlier time is asked for again, so a time from there on must
stay answerable: some stored step must be at or before it.  Two things break this.  Saturating
the second step consumes the first one when that lies before `deletedBefore`, also when the
second step lies after it; from then on the times between the two are lost.  And a release build
forgets all but the last checkpoint when `delete_before` is given a time before every step.

* `Steps.Answerable` — the time can be asked for.
* `Steps.ConsumesEarly` — a poll is about to consume the first step too early.
* `Steps.KeepsAnswerable` — the condition on a call under which nothing is lost.
* `answerable_after_advance` — in a run of such calls every time that may be asked for is
  answerable.
* `answerable_after_advance_fails` — a run that loses a time.
* `Steps.ConsumesEarly.loses` — a poll that consumes the first step early always loses times.
-/

variable {T : Type} [Transposer T]

/-- The time of the next step after a saturated one. -/
def Step.nextScheduledTime (x : Step T) : Option (Time T) :=
  match x.status with
  | .saturated w => w.metadata.getNextScheduledTime.map fun k => k.time
  | _ => none

namespace Steps

/-- The time of the second step while it is unsaturated, stored or about to be pushed. -/
def secondTime (s : Steps T) : Option (Time T) :=
  match s.steps with
  | [] => none
  | [front] => front.nextScheduledTime
  | _ :: step :: _ => if step.isUnsaturated then some step.getTime else none

/-- A poll at `t` consumes the first step, which lies before `deletedBefore`, while the second
    one lies after it. -/
def ConsumesEarly (s : Steps T) (t : Time T) : Prop :=
  ∃ front d u, s.steps.head? = some front ∧ front.isSaturated = true ∧
    s.deletedBefore = some d ∧ front.getTime < d ∧
    s.secondTime = some u ∧ d < u ∧ u ≤ t ∧ ∀ x, s.steps[2]? = some x → t < x.getTime

/-- The call does not lose a time: a poll of the state does not consume the first step early,
    nor does a poll of the events, which may do so when there are no more than two steps; and
    `delete_before` ignores the time, finds a step before or at it, or finds one checkpoint. -/
def KeepsAnswerable (s : Steps T) : Call T → Prop
  | .getBeforeOrAt _ t _ => ¬ s.ConsumesEarly t
  | .getBeforeOrAtEvents t _ => s.steps.length ≤ 2 → ¬ s.ConsumesEarly t
  | .deleteBefore t => (∃ d, s.deletedBefore = some d ∧ t ≤ d) ∨
      (∃ x ∈ s.steps, x.getTime ≤ t) ∨ s.notUnsaturated.card ≤ 1
  | .poll _ _ _ => True

/-! ### The first step stays in time -/

/-- The first step is not after the start or a time passed to `delete_before`. -/
def FrontInTime (startTime : Time T) (s : Steps T) : Prop :=
  ∃ front, s.steps[0]? = some front ∧
    (front.getTime ≤ startTime ∨ ∃ d, s.deletedBefore = some d ∧ front.getTime ≤ d)

variable {s s' : Steps T} {startTime : Time T}

/-- The first step keeps its time and the times passed to `delete_before` are as they were. -/
theorem FrontInTime.of_eq (h : FrontInTime startTime s)
    (hfront : ∀ x, s.steps[0]? = some x → ∃ x', s'.steps[0]? = some x' ∧ x'.getTime = x.getTime)
    (hdel : s'.deletedBefore = s.deletedBefore) : FrontInTime startTime s' := by
  obtain ⟨x, hx, hle⟩ := h
  obtain ⟨x', hx', ht⟩ := hfront x hx
  exact ⟨x', hx', by rw [ht, hdel]; exact hle⟩

/-- Pushing the next step leaves the first one. -/
theorem FrontInTime.pushed (h : FrontInTime startTime s) (hp : Pushed s s') :
    FrontInTime startTime s' := by
  cases hp with
  | none _ => exact h
  | push _ _ _ =>
    refine h.of_eq ?_ rfl
    intro x hx
    exact ⟨x, getElem?_push hx _, rfl⟩

/-- A step starts: the first one stays, or is consumed when the second one is not after
    `deletedBefore`. -/
theorem FrontInTime.saturated {j : ℕ} {pinnedTimes : List (Time T)} {step : Step T}
    {w : WrappedTransposer T} (h : FrontInTime startTime s)
    (hc : SaturateCases s pinnedTimes j step w s') (hstep : s.steps[j + 1]? = some step)
    (hnot : ∀ front rest d, j = 0 → s.steps = front :: step :: rest →
      s.deletedBefore = some d → front.getTime < d → step.getTime ≤ d) :
    FrontInTime startTime s' := by
  cases hc with
  | @saturate f d hf hd hkeep =>
    refine h.of_eq ?_ rfl
    intro x hx
    have hd0 : d ≠ some 0 := fun hd0 => (hd 0 hd0).ne_zero rfl
    exact ⟨x, (getElem?_saturatedAt_of_ne hstep (by omega) hd0).trans hx, rfl⟩
  | consume hj hs hf hb hlt =>
    exact ⟨_, rfl, Or.inr ⟨_, hb, hnot _ _ _ hj hs hb hlt⟩⟩

/-- The steps before a checkpoint are forgotten: it is before or at the time, or there is no
    other checkpoint, and then it is the first step. -/
theorem FrontInTime.forgotten (h : FrontInTime startTime s) (hs : s.Sound) {t : Time T} {i : ℕ}
    {x : Step T} (hx : s.steps[i]? = some x) (hu : x.isUnsaturated = false)
    (hlt : ∀ b, s.deletedBefore = some b → b < t)
    (hcase : s.LatestCheckpoint t i x ∨ s.notUnsaturated.card ≤ 1) :
    FrontInTime startTime (s.forget i t) := by
  have hfront : (s.forget i t).steps[0]? = some x := by
    simp only [forget, List.getElem?_drop, Nat.add_zero]
    exact hx
  rcases hcase with hlatest | hcard
  · exact ⟨x, hfront, Or.inr ⟨t, rfl, hlatest.le⟩⟩
  · obtain ⟨front, hf, hfu⟩ := hs.front
    have heq := Finset.card_le_one.mp hcard _ (hs.checkpoint hx hu) _ (hs.checkpoint hf hfu)
    obtain rfl : i = 0 := by omega
    obtain ⟨y, hy, hyle⟩ := h
    rw [hx, Option.some.injEq] at hy
    subst hy
    refine ⟨x, hfront, hyle.imp_right ?_⟩
    rintro ⟨d, hd, hle⟩
    exact ⟨t, rfl, hle.trans (hlt d hd).le⟩

/-- A poll leaves the times of the steps alone. -/
theorem FrontInTime.polled (h : FrontInTime startTime s) {i fuel : ℕ} {step : Step T}
    {answers : List (Response T)} {p : StepPolled T} (hstep : s.steps[i]? = some step)
    (hsat : step.isSaturating = true) (hp : step.poll fuel answers = .ok p) :
    FrontInTime startTime (s.setStep i p.step) := by
  refine h.of_eq ?_ rfl
  intro x hx
  obtain ⟨f, a, ch, hst⟩ := Step.isSaturating_iff.mp hsat
  have hdata := (Step.poll_run hst hp).1
  by_cases hi : i = 0
  · subst hi
    rw [hx, Option.some.injEq] at hstep
    subst hstep
    exact ⟨p.step, getElem?_setStep_self hx _, Step.getTime_eq hdata⟩
  · exact ⟨x, (getElem?_setStep_of_ne (Ne.symm hi) _).trans hx, rfl⟩

/-- The first step is consumed early when the second one starts after `deletedBefore`; before
    the push that step may not have been stored yet. -/
theorem Pushed.consumesEarly {front step : Step T} {rest : List (Step T)} {d t : Time T}
    (hp : Pushed s s') (hpos : 0 < s.steps.length) (hs : s'.steps = front :: step :: rest)
    (hfront : front.isSaturated = true) (hunsat : step.isUnsaturated = true)
    (hd : s'.deletedBefore = some d) (hlt : front.getTime < d) (hd' : d < step.getTime)
    (ht : step.getTime ≤ t) (hafter : ∀ x, rest.head? = some x → t < x.getTime) :
    s.ConsumesEarly t := by
  cases hp with
  | none _ =>
    refine ⟨front, d, step.getTime, ?_, hfront, hd, hlt, ?_, hd', ht, ?_⟩
    · rw [hs]; rfl
    · simp only [secondTime, hs, hunsat, if_true]
    · intro x hx
      rw [hs] at hx
      exact hafter x (by rw [List.head?_eq_getElem?]; exact hx)
  | @push last w k hlast hw hk =>
    have hs : s.steps ++ [s.nextStep last k] = front :: step :: rest := hs
    cases hsl : s.steps with
    | nil => rw [hsl] at hpos; cases hpos
    | cons x l =>
      rw [hsl, List.cons_append, List.cons.injEq] at hs
      obtain ⟨rfl, hs⟩ := hs
      cases l with
      | nil =>
        -- the second step is the one that is pushed
        rw [List.nil_append, List.cons.injEq] at hs
        obtain ⟨rfl, -⟩ := hs
        rw [hsl, List.getLast?_singleton, Option.some.injEq] at hlast
        subst hlast
        refine ⟨x, d, k.time, ?_, hfront, hd, hlt, ?_, hd', ht, ?_⟩
        · rw [hsl]; rfl
        · simp only [secondTime, hsl, Step.nextScheduledTime, hw, hk, Option.map_some]
        · intro y hy
          rw [hsl] at hy
          cases hy
      | cons y l =>
        rw [List.cons_append, List.cons.injEq] at hs
        obtain ⟨rfl, rfl⟩ := hs
        refine ⟨x, d, y.getTime, ?_, hfront, hd, hlt, ?_, hd', ht, ?_⟩
        · rw [hsl]; rfl
        · simp only [secondTime, hsl, hunsat, if_true]
        · intro z hz
          rw [hsl] at hz
          have hz' : l[0]? = some z := hz
          refine hafter z ?_
          rw [List.head?_eq_getElem?, getElem?_push hz']

/-- A step that starts in a call which does not consume the first one early. -/
theorem Pushed.second_le {s₁ : Steps T} {t : Time T} {j : ℕ} {x prev : Step T}
    {w : WrappedTransposer T} (hp : Pushed s s₁) (hs : s.Sound) (hx : s₁.LatestStep t (j + 1) x)
    (hunsat : x.status = .unsaturated) (hprev : s₁.steps[j]? = some prev)
    (hw : prev.status = .saturated w) (hnot : ¬ s.ConsumesEarly t) :
    ∀ front rest d, j = 0 → s₁.steps = front :: x :: rest → s₁.deletedBefore = some d →
      front.getTime < d → x.getTime ≤ d := by
  intro front rest d hj heq hd hlt
  by_contra hgt
  subst hj
  rw [heq, List.getElem?_cons_zero, Option.some.injEq] at hprev
  subst hprev
  refine hnot (hp.consumesEarly hs.length_pos heq (Step.isSaturated_iff.mpr ⟨w, hw⟩)
    (Step.isUnsaturated_iff.mpr hunsat) hd hlt (not_le.mp hgt) hx.le ?_)
  intro y hy
  refine hx.after 2 y (by omega) ?_
  rw [heq]
  rw [List.head?_eq_getElem?] at hy
  exact hy

/-- After the push, the second step is the one a poll that consumes the first one early
    starts. -/
theorem ConsumesEarly.pushed {s₁ : Steps T} {t : Time T} (h : s.ConsumesEarly t)
    (hp : Pushed s s₁) : ∃ front step rest d, s₁.steps = front :: step :: rest ∧
      front.isSaturated = true ∧ step.isUnsaturated = true ∧ s₁.deletedBefore = some d ∧
      front.getTime < d ∧ d < step.getTime ∧ step.getTime ≤ t ∧
      ∀ x, rest.head? = some x → t < x.getTime := by
  obtain ⟨front, d, u, hhead, hsat, hd, hlt, hu, hdu, hut, hafter⟩ := h
  cases hsl : s.steps with
  | nil => rw [hsl] at hhead; cases hhead
  | cons x l =>
    rw [hsl, List.head?_cons, Option.some.injEq] at hhead
    subst hhead
    cases l with
    | nil =>
      -- the second step has yet to be pushed
      simp only [secondTime, hsl, Step.nextScheduledTime] at hu
      obtain ⟨w, hw⟩ := Step.isSaturated_iff.mp hsat
      simp only [hw, Option.map_eq_some_iff] at hu
      obtain ⟨k, hk, rfl⟩ := hu
      cases hp with
      | none hnone =>
        rw [hnone x w (by rw [hsl]; rfl) hw] at hk
        cases hk
      | @push last w' k' hlast hw' hk' =>
        rw [hsl, List.getLast?_singleton, Option.some.injEq] at hlast
        subst hlast
        rw [hw, StepStatus.saturated.injEq] at hw'
        subst hw'
        rw [hk, Option.some.injEq] at hk'
        subst hk'
        refine ⟨x, s.nextStep x k, [], d, ?_, hsat, rfl, hd, hlt, hdu, hut, ?_⟩
        · simp only [hsl, List.cons_append, List.nil_append]
        · intro y hy; cases hy
    | cons y l =>
      -- it is stored, and a push only adds steps behind it
      simp only [secondTime, hsl] at hu
      split at hu
      · rename_i hunsat
        obtain rfl := Option.some.inj hu
        cases hp with
        | none _ =>
          refine ⟨x, y, l, d, hsl, hsat, hunsat, hd, hlt, hdu, hut, ?_⟩
          intro z hz
          refine hafter z ?_
          rw [hsl, ← hz, List.head?_eq_getElem?]
          rfl
        | @push last w k hlast hw hk =>
          refine ⟨x, y, l ++ [s.nextStep last k], d, ?_, hsat, hunsat, hd, hlt, hdu, hut, ?_⟩
          · simp only [hsl, List.cons_append]
          · intro z hz
            cases l with
            | nil =>
              -- the second step is the last one, and the last one is saturated
              rw [hsl] at hlast
              obtain rfl : y = last := Option.some.inj hlast
              rw [Step.isUnsaturated_iff.mp hunsat] at hw
              cases hw
            | cons v l =>
              refine hafter z ?_
              rw [hsl]
              exact hz
      · cases hu

section Build

variable [BuildProfile]

/-- There is a stored step at or before the time, and `get_before_or_at` does not return an
    error for it. -/
def Answerable (s : Steps T) (t : Time T) : Prop :=
  (∃ x ∈ s.steps, x.getTime ≤ t) ∧
    ∀ fuel pinnedTimes r s', s.getBeforeOrAt fuel t pinnedTimes = .ok (r, s') → r ≠ .error ()

/-- A time is answerable when a stored step is at or before it. -/
theorem Sound.answerable {t : Time T} (hs : s.Sound) (h : ∃ x ∈ s.steps, x.getTime ≤ t) :
    s.Answerable t := by
  refine ⟨h, ?_⟩
  rintro fuel pinnedTimes r s' hr rfl
  obtain ⟨x, hx, hle⟩ := h
  obtain ⟨s₁, -, hpushed, hcases⟩ := getBeforeOrAt_cases hs hr
  cases hcases with
  | before hbefore =>
    refine absurd (hbefore x ?_) (not_lt.mpr hle)
    cases hpushed with
    | none _ => exact hx
    | push _ _ _ => exact List.mem_append_left _ hx

/-- **A call that loses no time keeps the first step in time.** -/
theorem Call.Does.frontInTime {c : Call T} (hdoes : c.Does s s') (hs : s.Sound)
    (hkeeps : s.KeepsAnswerable c) (h : FrontInTime startTime s) : FrontInTime startTime s' := by
  cases hdoes with
  | getBeforeOrAt fuel t pinnedTimes hr =>
    obtain ⟨s₁, -, hpushed, hcases⟩ := getBeforeOrAt_cases hs hr
    have h₁ := h.pushed hpushed
    cases hcases with
    | before _ | saturated _ _ _ | saturating _ _ | previous _ _ _ _ => exact h₁
    | start hx hunsat hprev hw hcases _ =>
      exact h₁.saturated hcases hx.get (hpushed.second_le hs hx hunsat hprev hw hkeeps)
  | getBeforeOrAtEvents t pinnedTimes hr =>
    obtain ⟨s₁, -, hpushed, hcases⟩ := getBeforeOrAtEvents_cases hs hr
    have h₁ := h.pushed hpushed
    cases hcases with
    | ready _ _ | saturating _ _ _ => exact h₁
    | @start j x prev w s' hx hle hunsat hj hprev hw hcases =>
      have hget : s₁.steps[j + 1]? = some x := by
        rw [show j + 1 = s₁.steps.length - 1 by omega]
        exact hx
      -- the last step is the latest one before or at any later time
      have hlatest : s₁.LatestStep t (j + 1) x := .of_last hget hj hle
      refine h₁.saturated hcases hget ?_
      intro front rest d hj0 heq
      have hlen : s.steps.length ≤ 2 := by
        have hle : s.steps.length ≤ s₁.steps.length := by
          cases hpushed with
          | none _ => exact le_rfl
          | push _ _ _ => simp
        omega
      exact hpushed.second_le hs hlatest hunsat hprev hw (hkeeps hlen) front rest d hj0 heq
  | deleteBefore t hr =>
    rcases deleteBefore_cases hs hr with ⟨-, rfl⟩ | ⟨hlt, i, x, hx, hu, rfl, -, hcase⟩
    · exact h
    · refine h.forgotten hs hx hu hlt (hcase.imp_right fun hbefore => ?_)
      rcases hkeeps with ⟨d, hd, hle⟩ | ⟨y, hy, hle⟩ | hcard
      · exact absurd (hlt d hd) (not_lt.mpr hle)
      · exact absurd (hbefore y hy) (not_lt.mpr hle)
      · exact hcard
  | @poll _ step p i fuel answers hstep hsat hp => exact h.polled hstep hsat hp

/-- The time kept by `delete_before` is one that was passed to it. -/
theorem Call.Does.deletedBefore {c : Call T} (hdoes : c.Does s s') (hs : s.Sound) {d : Time T}
    (hd : s'.deletedBefore = some d) : s.deletedBefore = some d ∨ c = .deleteBefore d := by
  cases hdoes with
  | getBeforeOrAt fuel t pinnedTimes hr =>
    obtain ⟨s₁, -, hpushed, hcases⟩ := getBeforeOrAt_cases hs hr
    have h₁ : s₁.deletedBefore = s.deletedBefore := by cases hpushed <;> rfl
    refine Or.inl ?_
    rw [← h₁, ← hd]
    cases hcases with
    | before _ | saturated _ _ _ | saturating _ _ | previous _ _ _ _ => rfl
    | start _ _ _ _ hcases _ => cases hcases <;> rfl
  | getBeforeOrAtEvents t pinnedTimes hr =>
    obtain ⟨s₁, -, hpushed, hcases⟩ := getBeforeOrAtEvents_cases hs hr
    have h₁ : s₁.deletedBefore = s.deletedBefore := by cases hpushed <;> rfl
    refine Or.inl ?_
    rw [← h₁, ← hd]
    cases hcases with
    | ready _ _ | saturating _ _ _ => rfl
    | start _ _ _ _ _ _ hcases => cases hcases <;> rfl
  | deleteBefore t hr =>
    rcases deleteBefore_cases hs hr with ⟨-, rfl⟩ | ⟨-, i, x, -, -, rfl, -⟩
    · exact Or.inl hd
    · exact Or.inr (by rw [Option.some.inj hd])
  | poll _ _ _ _ _ _ => exact Or.inl hd

/-- In a run that loses no time the first step is in time, and the time kept by `delete_before`
    is one of the calls'. -/
theorem ReachableBy.frontInTime {transposer : T} {rngSeed : Seed T} {calls : List (Call T)}
    (h : ReachableBy KeepsAnswerable transposer startTime rngSeed calls s) :
    FrontInTime startTime s ∧
      ∀ d, s.deletedBefore = some d → Call.deleteBefore d ∈ calls := by
  induction h with
  | new => exact ⟨⟨_, rfl, Or.inl le_rfl⟩, fun d hd => by cases hd⟩
  | @call calls s c s' hreach hkeeps hdoes ih =>
    obtain ⟨hfront, hdel⟩ := ih
    refine ⟨hdoes.frontInTime hreach.sound hkeeps hfront, ?_⟩
    intro d hd
    rcases hdoes.deletedBefore hreach.sound hd with hold | rfl
    · exact List.mem_append_left _ (hdel d hold)
    · exact List.mem_append_right _ (List.mem_singleton_self _)

/-! ### The condition is needed -/

/-- **A poll that consumes the first step early loses times**: afterwards the time kept by
    `delete_before` lies before every step. -/
theorem ConsumesEarly.loses {t : Time T} {fuel : ℕ} {pinnedTimes : List (Time T)}
    {r : Except Unit (BeforeStatus T)} (h : s.ConsumesEarly t) (hs : s.Sound)
    (hr : s.getBeforeOrAt fuel t pinnedTimes = .ok (r, s')) :
    ∃ d, s'.deletedBefore = some d ∧ ∀ x ∈ s'.steps, d < x.getTime := by
  obtain ⟨s₁, -, hpushed, hcases⟩ := getBeforeOrAt_cases hs hr
  obtain ⟨front, step, rest, d, hsteps, hsat, hunsat, hd, hlt, hdu, hut, hafter⟩ :=
    h.pushed hpushed
  have h₁ := hpushed.sound hs
  -- the step that starts is the one the poll is for
  have hget : s₁.steps[1]? = some step := by rw [hsteps]; rfl
  have hlatest : s₁.LatestStep t 1 step := by
    refine h₁.sorted.latest hget hut ?_
    intro y hy
    rw [hsteps] at hy
    exact hafter y (by rw [List.head?_eq_getElem?]; exact hy)
  have huniq : ∀ {i : ℕ} {x : Step T}, s₁.LatestStep t i x → i = 1 ∧ x = step :=
    fun hx => hx.unique hlatest
  rw [Step.isUnsaturated_iff] at hunsat
  obtain ⟨w, hw⟩ := Step.isSaturated_iff.mp hsat
  cases hcases with
  | before hbefore =>
    exact absurd (hbefore step (List.mem_of_getElem? hget)) (not_lt.mpr hut)
  | saturated hx hxs _ =>
    obtain ⟨-, rfl⟩ := huniq hx
    simp [Step.isSaturated, hunsat] at hxs
  | saturating hx hxs =>
    obtain ⟨-, rfl⟩ := huniq hx
    simp [Step.isSaturating, hunsat] at hxs
  | previous hx _ hprev hps =>
    obtain ⟨hi, -⟩ := huniq hx
    obtain rfl : _ = 0 := Nat.succ.inj hi
    rw [hsteps, List.getElem?_cons_zero, Option.some.injEq] at hprev
    subst hprev
    simp [Step.isSaturating, hw] at hps
  | start hx _ _ _ hc _ =>
    obtain ⟨hj, rfl⟩ := huniq hx
    obtain rfl : _ = 0 := Nat.succ.inj hj
    cases hc with
    | saturate d' _ _ hkeep =>
      have hle := hkeep rfl d front hd (by rw [hsteps]; rfl)
      exact absurd hlt (not_lt.mpr hle)
    | @consume front' rest' f b _ hs' _ hb _ =>
      refine ⟨d, hd, ?_⟩
      intro y hy
      have hy' : y ∈ Step.started _ f :: rest' := hy
      rcases List.mem_cons.mp hy' with rfl | hmem
      · exact hdu
      · obtain ⟨m, hm⟩ := List.getElem?_of_mem hmem
        have hyget : s₁.steps[m + 2]? = some y := by rw [hs']; exact hm
        exact hdu.trans (h₁.sorted.lt hget hyget (by omega))

end Build

end Steps

/-! ### The run -/

/-- **Answerability after `advance`.**  In a run of calls that do not consume the first step
    early, every time from the start and the times passed to `delete_before` on is
    answerable. -/
theorem answerable_after_advance [BuildProfile] {transposer : T} {startTime : Time T}
    {rngSeed : Seed T} {calls : List (Steps.Call T)} {s : Steps T}
    (h : Steps.ReachableBy Steps.KeepsAnswerable transposer startTime rngSeed calls s)
    (t : Time T) (hstart : startTime ≤ t) (hdel : ∀ d, .deleteBefore d ∈ calls → d ≤ t) :
    s.Answerable t := by
  obtain ⟨⟨front, hfront, hle⟩, hkept⟩ := h.frontInTime
  refine h.sound.answerable ⟨front, List.mem_of_getElem? hfront, ?_⟩
  rcases hle with hle | ⟨d, hd, hle⟩
  · exact hle.trans hstart
  · exact hle.trans (hdel d (hkept d hd))

/-- The time 5 is passed to `delete_before` and 7 is asked for, with one step at 0. -/
theorem answerable_after_advance_script :
    ∃ (_ : BuildProfile) (s : Steps Script), s.Answerable (7 : ℕ) ∧
      s.deletedBefore = some (5 : ℕ) := by
  let _ : BuildProfile := debugBuild
  have hnew := @Steps.ReachableBy.new Script _ _ Steps.KeepsAnswerable ⟨[.schedule 10], [], [], 0⟩
    (0 : ℕ) ()
  have hpoll := hnew.call (by trivial) (.poll 0 20 [] rfl rfl rfl)
  have hdelete := hpoll.call (by right; right; decide) (.deleteBefore (5 : ℕ) rfl)
  refine ⟨inferInstance, _, answerable_after_advance hdelete (7 : ℕ) (by decide) ?_, rfl⟩
  intro d hd
  simp only [List.nil_append, List.cons_append, List.mem_cons, reduceCtorEq, false_or,
    Steps.Call.deleteBefore.injEq, List.not_mem_nil, or_false] at hd
  subst hd
  decide

/-- A run that loses a time: the steps are at 0 and 10; after `delete_before(5)` a poll of the
    events at 10 consumes the first step, and 7 cannot be asked for any more. -/
theorem answerable_after_advance_fails :
    ∃ (_ : BuildProfile) (calls : List (Steps.Call Script)) (s : Steps Script),
      Steps.Reachable ⟨[.schedule 10], [], [], 0⟩ (0 : ℕ) () calls s ∧
      (∀ d : ℕ, .deleteBefore d ∈ calls → d ≤ 7) ∧ ¬ s.Answerable (7 : ℕ) := by
  let _ : BuildProfile := debugBuild
  have hnew := @Steps.ReachableBy.new Script _ _ (fun _ _ => True) ⟨[.schedule 10], [], [], 0⟩
    (0 : ℕ) ()
  have hpoll := hnew.call trivial (.poll 0 20 [] rfl rfl rfl)
  have hdelete := hpoll.call trivial (.deleteBefore (5 : ℕ) rfl)
  have hevents := hdelete.call trivial (.getBeforeOrAtEvents (10 : ℕ) [] rfl)
  refine ⟨inferInstance, _, _, hevents, ?_, ?_⟩
  · intro d hd
    simp only [List.nil_append, List.cons_append, List.mem_cons, reduceCtorEq, false_or,
      Steps.Call.deleteBefore.injEq, List.not_mem_nil, or_false] at hd
    subst hd
    decide
  · rintro ⟨-, herr⟩
    exact herr 5 [] _ _ rfl rfl

end Cozal
