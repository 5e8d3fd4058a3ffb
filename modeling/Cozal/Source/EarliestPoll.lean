import Cozal.Source.Evaluate
import Cozal.Source.NextEvent
import Cozal.Source.Spacing

namespace Cozal

open Transposer

/-!
# The earliest time a poll can need

`delete_before` returns the time of the first unsaturated step, as the earliest time for which a
later poll could need input.  It does not look at steps that are being saturated.  When none of them
is earlier, an earlier step is saturated or gone, and it is not saturated again unless it loses its
state, which it does only as a checkpoint that is given up.

* `Steps.Settled` — every step that is not saturated is at `e` or later, and so is the last one.
* `Steps.Call.SparesEarlier` — a call gives up no checkpoint that is earlier than `e`.
* `Steps.Call.Does.settled_iff` — these are the calls that keep the steps settled.
* `Steps.Call.Does.le_of_saturates` — in a settled state no earlier step starts or completes.
-/

variable {T : Type} [Transposer T]

namespace Steps

variable {s s' : Steps T} {e : Time T}

/-- Every step that is not saturated is at `e` or later.  So is the last one, and then also those
    that are pushed behind it. -/
def Settled (s : Steps T) (e : Time T) : Prop :=
  ∀ i x, s.steps[i]? = some x → x.isSaturated = false ∨ i + 1 = s.steps.length → e ≤ x.getTime

/-- After `delete_before` has returned a time, the steps are settled when none that is saturating is
    earlier. -/
theorem Sound.settled_of_earliestPollTime (h : s.Sound) (he : s.earliestPollTime = some e)
    (hdone : ∀ x ∈ s.steps, x.isSaturating = true → e ≤ x.getTime) : s.Settled e := by
  unfold earliestPollTime at he
  rw [Option.map_eq_some_iff] at he
  obtain ⟨x, hx, rfl⟩ := he
  obtain ⟨-, k, hk, hget, hbefore⟩ := List.find?_eq_some_iff_getElem.mp hx
  have hkget : s.steps[k]? = some x := by rw [List.getElem?_eq_getElem hk, hget]
  intro i y hy hcase
  have hi := (List.getElem?_eq_some_iff.mp hy).1
  rcases Nat.lt_or_ge i k with hlt | hki
  · -- a step before the first unsaturated one is not the last, so it is saturating
    have hyu : y.isUnsaturated = false := by
      have hnot := hbefore i hlt
      rw [(List.getElem?_eq_some_iff.mp hy).2] at hnot
      simpa using hnot
    have hnsat := hcase.resolve_right (by omega)
    refine hdone y (List.mem_of_getElem? hy) ?_
    by_contra hns
    rw [Bool.not_eq_true] at hns
    rw [isUnsaturated_of_neither hnsat hns] at hyu
    cases hyu
  · rcases hki.lt_or_eq with hlt | rfl
    · exact (h.sorted.lt hkget hy hlt).le
    · rw [hkget, Option.some.injEq] at hy
      exact hy ▸ le_rfl

/-- The steps stay settled when each that is not saturated or the last one was so before, or comes
    after one that was. -/
theorem Settled.of_later (h : s.Settled e) (hlater : ∀ i x', s'.steps[i]? = some x' →
      x'.isSaturated = false ∨ i + 1 = s'.steps.length →
      ∃ k x, s.steps[k]? = some x ∧ (x.isSaturated = false ∨ k + 1 = s.steps.length) ∧
        x.getTime ≤ x'.getTime) : s'.Settled e := by
  intro i x' hx' hcase
  obtain ⟨k, x, hx, hcase, hle⟩ := hlater i x' hx' hcase
  exact (h k x hx hcase).trans hle

/-- The step that is pushed is later than the last one. -/
theorem Pushed.settled (hpushed : Pushed s s') (hs : s.Sound) (h : s.Settled e) :
    s'.Settled e := by
  have hsorted := (hpushed.sound hs).sorted
  cases hpushed with
  | none _ => exact h
  | @push last w k hlast hw hk =>
    rw [List.getLast?_eq_getElem?] at hlast
    have hpos := hs.length_pos
    refine h.of_later ?_
    intro i x hx hcase
    rcases push_cases hx with hx' | ⟨rfl, -⟩
    · have hi := (List.getElem?_eq_some_iff.mp hx').1
      refine ⟨i, x, hx', hcase.imp_right ?_, le_rfl⟩
      intro hlen
      simp only [List.length_append, List.length_singleton] at hlen
      omega
    · exact ⟨_, last, hlast, Or.inr (by omega),
        (hsorted.lt (getElem?_push hlast _) hx (by omega)).le⟩

/-- Forgetting the first steps keeps the others. -/
theorem Settled.forget (h : s.Settled e) (i : ℕ) (time : Time T) : (s.forget i time).Settled e := by
  refine h.of_later ?_
  intro m x hx hcase
  simp only [Steps.forget, List.getElem?_drop, List.length_drop] at hx hcase
  have hm := (List.getElem?_eq_some_iff.mp hx).1
  exact ⟨i + m, x, hx, hcase.imp_right (by omega), le_rfl⟩

/-- A poll does not change when a step is, and the step that it polls was saturating. -/
theorem Settled.poll (h : s.Settled e) {i fuel : ℕ} {step : Step T} {answers : List (Response T)}
    {p : StepPolled T} (hstep : s.steps[i]? = some step) (hsat : step.isSaturating = true)
    (hp : step.poll fuel answers = .ok p) : (s.setStep i p.step).Settled e := by
  obtain ⟨f, a, ch, hst⟩ := Step.isSaturating_iff.mp hsat
  have hdata := (Step.poll_run hst hp).1
  refine h.of_later ?_
  intro m x hx hcase
  rw [length_setStep] at hcase
  rcases setStep_cases hstep hx with ⟨rfl, rfl⟩ | ⟨-, hx⟩
  · exact ⟨m, step, hstep, Or.inl (isSaturating_not_saturated hsat), (Step.getTime_eq hdata).ge⟩
  · exact ⟨m, x, hx, hcase, le_rfl⟩

section Build

variable [BuildProfile]

/-- Saturating the step at `j + 1` gives up no checkpoint that is earlier than `e`, but for the
    first step. -/
def SparesEarlier (s : Steps T) (e : Time T) (pinnedTimes : List (Time T)) (j : ℕ) : Prop :=
  ∀ d x, s.sequenceNumberToDelete pinnedTimes (s.numDeletedSteps + (j + 1))
      = .ok (some (s.numDeletedSteps + d)) →
    s.steps[d]? = some x → d ≠ 0 → e ≤ x.getTime

/-- **A step that is saturated keeps the steps settled** exactly when it costs no checkpoint that
    is earlier than `e`. -/
theorem Settled.saturate_iff (h : s.Settled e) (hs : s.Sound) {pinnedTimes : List (Time T)}
    {j : ℕ} {prev step : Step T} (hprev : s.steps[j]? = some prev)
    (hsat : prev.isSaturated = true) (hstep : s.steps[j + 1]? = some step)
    (hunsat : step.isUnsaturated = true)
    (hs' : s.saturate (s.numDeletedSteps + (j + 1)) pinnedTimes = .ok s') :
    s'.Settled e ↔ s.SparesEarlier e pinnedTimes j := by
  obtain ⟨w, hw⟩ := Step.isSaturated_iff.mp hsat
  obtain ⟨r, f, hr, -, hgiven⟩ := saturate_givenUp hs hprev hw hstep
    (Step.isUnsaturated_iff.mp hunsat) hs'
  have hnsat := isUnsaturated_not_saturated hunsat
  -- of the steps that are as they were, or have started, the settled ones are still settled
  have hold : ∀ d i x', (s.saturatedAt d (j + 1) step f).steps[i]? = some x' →
      x'.isSaturated = false ∨ i + 1 = (s.saturatedAt d (j + 1) step f).steps.length →
      e ≤ x'.getTime ∨ d = some i ∧ ∃ x, s.steps[i]? = some x ∧ x' = x.desaturate := by
    intro d i x' hx' hcase
    rw [length_saturatedAt] at hcase
    rcases saturatedAt_cases hstep hx' with ⟨rfl, rfl⟩ | ⟨-, hd, hx⟩ | ⟨-, -, hx⟩
    · exact Or.inl (h _ step hstep (Or.inl hnsat))
    · exact Or.inr ⟨hd, hx⟩
    · exact Or.inl (h i x' hx hcase)
  cases hgiven with
  | @front front rest b hj heq _ _ =>
    refine iff_of_true ?_ ?_
    · refine h.of_later ?_
      intro i x' hx' hcase
      have hlen : s.steps.length = (s.consumeFront step rest f).steps.length + 1 := by
        rw [heq]
        rfl
      rcases consumeFront_cases heq hx' with ⟨rfl, rfl⟩ | ⟨-, hx⟩
      · exact ⟨j + 1, step, hstep, Or.inl hnsat, le_rfl⟩
      · exact ⟨i + 1, x', hx, hcase.imp_right (by omega), le_rfl⟩
    · intro d x hd _ hne
      rw [hr, Outcome.ok.injEq, Option.some.injEq] at hd
      omega
  | nothing _ =>
    refine iff_of_true ?_ ?_
    · intro i x' hx' hcase
      exact (hold none i x' hx' hcase).resolve_right
        fun hd => absurd hd.1 (Option.some_ne_none i).symm
    · intro d x hd
      rw [hr] at hd
      cases hd
  | @checkpoint d _ hd =>
    obtain ⟨x, hx, -⟩ := hd.checkpoint
    constructor
    · intro hsettled d' x' hd' hx' _
      rw [hr, Outcome.ok.injEq, Option.some.injEq] at hd'
      obtain rfl := Nat.add_left_cancel hd'
      -- the checkpoint that is given up is unsaturated now
      have hne : d ≠ j + 1 := by
        rintro rfl
        obtain ⟨y, hy, hyu⟩ := hd.checkpoint
        exact index_ne hstep hy hunsat hyu rfl
      refine hsettled d x'.desaturate ?_ (Or.inl rfl)
      rw [getElem?_saturatedAt hstep, if_neg hne, if_pos rfl, hx']
      rfl
    · intro hspares i x' hx' hcase
      rcases hold (some d) i x' hx' hcase with hle | ⟨hdi, y, hy, rfl⟩
      · exact hle
      · obtain rfl := Option.some.inj hdi
        exact hspares d y hr hy hd.ne_zero

/-! ### Calls -/

/-- The step at `j + 1` is the one the call has to start. -/
def Call.ToStart (c : Call T) (s : Steps T) (j : ℕ) : Prop :=
  match c with
  | .getBeforeOrAt _ time _ => s.ToStart time j
  | .getBeforeOrAtEvents time _ => j + 2 = s.steps.length ∧ s.ToStart time j
  | .deleteBefore _ => False
  | .poll _ _ _ => False

/-- The call gives up no checkpoint that is earlier than `e`, but for the first step. -/
def Call.SparesEarlier (e : Time T) (s : Steps T) (c : Call T) : Prop :=
  ∀ s₁ j, s.tryNextScheduled = .ok s₁ → c.ToStart s₁ j → s₁.SparesEarlier e c.pinnedTimes j

/-- A call that starts a step keeps the steps settled exactly when it spares the earlier ones. -/
theorem Settled.toStart_iff (h : s.Settled e) (hs : s.Sound) {c : Call T} {t : Time T}
    (hstart : ∀ s₁ j, c.ToStart s₁ j → s₁.ToStart t j) {s₁ : Steps T}
    (hpush : s.tryNextScheduled = .ok s₁)
    (hcase : (∀ j, ¬ c.ToStart s₁ j) ∧ s' = s₁ ∨ ∃ j, c.ToStart s₁ j ∧
      s₁.saturate (s₁.numDeletedSteps + (j + 1)) c.pinnedTimes = .ok s') :
    s'.Settled e ↔ c.SparesEarlier e s := by
  have hpushed := tryNextScheduled_cases hpush
  have h₁ := hpushed.settled hs h
  rcases hcase with ⟨hnone, rfl⟩ | ⟨j, hj, hs'⟩
  · refine iff_of_true h₁ ?_
    intro s₂ j hpush' hj
    obtain rfl := Outcome.ok.inj (hpush.symm.trans hpush')
    exact absurd hj (hnone j)
  · obtain ⟨prev, step, hprev, hsat, hstep, hunsat⟩ := hstart s₁ j hj
    rw [h₁.saturate_iff (hpushed.sound hs) hprev hsat hstep.get hunsat hs']
    constructor
    · intro hspares s₂ k hpush' hk
      obtain rfl := Outcome.ok.inj (hpush.symm.trans hpush')
      obtain ⟨-, step', -, -, hstep', -⟩ := hstart s₁ k hk
      obtain ⟨hjk, -⟩ := hstep.unique hstep'
      exact Nat.succ.inj hjk ▸ hspares
    · intro hspares
      exact hspares s₁ j hpush hj

/-- **The calls that keep the steps settled** are those that give up no checkpoint that is earlier
    than `e`. -/
theorem Call.Does.settled_iff {c : Call T} (hdoes : c.Does s s') (hs : s.Sound)
    (h : s.Settled e) : s'.Settled e ↔ c.SparesEarlier e s := by
  cases hdoes with
  | getBeforeOrAt fuel time pinnedTimes hr =>
    obtain ⟨s₁, hpush, hcase⟩ := getBeforeOrAt_toStart hs hr
    exact h.toStart_iff hs (fun _ _ hj => hj) hpush hcase
  | getBeforeOrAtEvents time pinnedTimes hr =>
    obtain ⟨s₁, hpush, hcase⟩ := getBeforeOrAtEvents_toStart hs hr
    refine h.toStart_iff hs (fun _ _ hj => hj.2) hpush ?_
    refine hcase.imp (And.imp_left fun hnone j hj => hnone j hj.1 hj.2) ?_
    rintro ⟨j, hlen, hj, hs'⟩
    exact ⟨j, ⟨hlen, hj⟩, hs'⟩
  | deleteBefore time hr =>
    refine iff_of_true ?_ (fun s₁ j _ hj => absurd hj id)
    rcases deleteBefore_cases hs hr with ⟨-, rfl⟩ | ⟨-, i, x, -, -, rfl, -⟩
    · exact h
    · exact h.forget i time
  | poll i fuel answers hstep hsat hp =>
    exact iff_of_true (h.poll hstep hsat hp) (fun s₁ j _ hj => absurd hj id)

/-- A saturated step that is earlier than `e` is not the one that has started, so it was stored as it
    is before the next step was pushed. -/
theorem Starts.isSaturated_of_lt {pinnedTimes : List (Time T)} {s₁ : Steps T}
    (hstarts : Starts s₁ pinnedTimes s') (hpushed : Pushed s s₁) (hs : s.Sound) (h : s.Settled e)
    {m : ℕ} {x : Step T} (hx : s'.getBySequenceNumber m = some x) (hsat : x.isSaturated = true)
    (hlt : x.getTime < e) : s.getBySequenceNumber m = some x := by
  have hnot : ¬ x.isUnsaturated = true := by
    intro hunsat
    rw [isUnsaturated_not_saturated hunsat] at hsat
    cases hsat
  have hold : s₁.getBySequenceNumber m = some x → s.getBySequenceNumber m = some x :=
    fun hx => (hpushed.get hx).resolve_right hnot
  cases hstarts with
  | nothing => exact hold hx
  | @saturate j prev step _ hprev hprevsat hstep hunsat hs' =>
    obtain ⟨w, hw⟩ := Step.isSaturated_iff.mp hprevsat
    have hcases := saturate_cases (hpushed.sound hs) hprev hw hstep
      (Step.isUnsaturated_iff.mp hunsat) hs'
    rcases hcases.get hstep hx with ⟨-, htime⟩ | hx | hxu
    · have hle := hpushed.settled hs h (j + 1) step hstep
        (Or.inl (isUnsaturated_not_saturated hunsat))
      exact absurd hlt (not_lt.mpr (hle.trans htime.ge))
    · exact hold hx
    · exact absurd hxu hnot

/-- Of the steps that a call leaves saturated, one that is earlier than `e` was saturated before. -/
theorem Call.Does.isSaturated_of_lt {c : Call T} (hdoes : c.Does s s') (hs : s.Sound)
    (h : s.Settled e) {m : ℕ} {x : Step T} (hx : s'.getBySequenceNumber m = some x)
    (hsat : x.isSaturated = true) (hlt : x.getTime < e) : s.getBySequenceNumber m = some x := by
  cases hdoes with
  | getBeforeOrAt fuel time pinnedTimes hr =>
    obtain ⟨s₁, hpush, hstarts⟩ := getBeforeOrAt_starts hs hr
    exact hstarts.isSaturated_of_lt (tryNextScheduled_cases hpush) hs h hx hsat hlt
  | getBeforeOrAtEvents time pinnedTimes hr =>
    obtain ⟨s₁, hpush, hstarts⟩ := getBeforeOrAtEvents_starts hs hr
    exact hstarts.isSaturated_of_lt (tryNextScheduled_cases hpush) hs h hx hsat hlt
  | deleteBefore time hr =>
    rcases deleteBefore_cases hs hr with ⟨-, rfl⟩ | ⟨-, i, y, -, -, rfl, -⟩
    · exact hx
    · obtain ⟨k, hk, -⟩ := getBySequenceNumber_eq_some.mp hx
      have hle : s.numDeletedSteps + i ≤ m := hk ▸ Nat.le_add_right _ k
      exact (get_forget time hle).symm.trans hx
  | @poll _ step p i fuel answers hstep hsaturating hp =>
    obtain ⟨f, a, ch, hst⟩ := Step.isSaturating_iff.mp hsaturating
    have htime := Step.getTime_eq (Step.poll_run hst hp).1
    rw [get_setStep (List.getElem?_eq_some_iff.mp hstep).1] at hx
    split at hx
    · -- the step that has been polled was saturating, so it is not earlier
      obtain rfl := Option.some.inj hx
      have hle := h i step hstep (Or.inl (isSaturating_not_saturated hsaturating))
      exact absurd hlt (not_lt.mpr (hle.trans htime.ge))
    · exact hx

/-- **In a settled state no earlier step starts or completes.** -/
theorem Call.Does.le_of_saturates {c : Call T} (hdoes : c.Does s s') (hs : s.Sound)
    (h : s.Settled e) {m : ℕ} {x : Step T} (hm : s.Saturates s' m ∨ s.CompletesAt s' m)
    (hx : s'.getBySequenceNumber m = some x) : e ≤ x.getTime := by
  rcases hm with hm | ⟨y, y', hy, hysat, hy', hy'sat⟩
  · cases hdoes.cases hs with
    | starts hpushed hstarts =>
      have h₁ := hpushed.settled hs h
      rw [Saturates, ← hpushed.notUnsaturated] at hm
      cases hstarts with
      | nothing => exact absurd hm.2 hm.1
      | @saturate j prev step _ hprev hsat hstep hunsat hs' =>
        obtain ⟨w, hw⟩ := Step.isSaturated_iff.mp hsat
        obtain ⟨r, f, -, -, hgiven⟩ := saturate_givenUp (hpushed.sound hs) hprev hw hstep
          (Step.isUnsaturated_iff.mp hunsat) hs'
        obtain rfl := hgiven.eq_of_new hm.1 hm.2
        rw [hgiven.getBySequenceNumber hstep, Option.some.injEq] at hx
        subst hx
        exact h₁ (j + 1) step hstep (Or.inl (isUnsaturated_not_saturated hunsat))
    | ignored => exact absurd hm.2 hm.1
    | forget => exact absurd (Finset.mem_of_mem_filter m hm.2) hm.1
    | poll => exact absurd hm.2 hm.1
  · -- a step that completes was not saturated before
    by_contra hlt
    rw [hx, Option.some.injEq] at hy'
    subst hy'
    have hsame := hdoes.isSaturated_of_lt hs h hx hy'sat (not_le.mp hlt)
    rw [hy, Option.some.injEq] at hsame
    subst hsame
    rw [isSaturating_not_saturated hysat] at hy'sat
    cases hy'sat

/-- What `delete_before` returns is the time of the first unsaturated step it leaves. -/
theorem deleteBefore_earliest {time : Time T} {r : Option (Time T)}
    (hr : s.deleteBefore time = .ok (r, s')) : s'.earliestPollTime = r := by
  simp only [deleteBefore, Outcome.bind_eq_ok] at hr
  obtain ⟨-, -, hr⟩ := hr
  split at hr
  · simp only [Outcome.pure_eq, Outcome.ok.injEq, Prod.mk.injEq] at hr
    rw [← hr.1, hr.2]
  · simp only [Outcome.bind_eq_ok, Outcome.pure_eq, Outcome.ok.injEq, Prod.mk.injEq] at hr
    obtain ⟨-, -, -, -, -, -, rfl, rfl⟩ := hr
    rfl

/-- Calls lead from one state to another, each of which meets a condition on the state before
    it. -/
def LeadsTo (meets : Steps T → Call T → Prop) : Steps T → Steps T → Prop :=
  Relation.ReflTransGen fun s s' => ∃ c : Call T, meets s c ∧ c.Does s s'

/-- **The steps stay settled** while the calls give up no earlier checkpoint. -/
theorem Settled.leadsTo (h : s.Settled e) (hs : s.Sound)
    (hrun : LeadsTo (fun s c => c.SparesEarlier e s) s s') : s'.Sound ∧ s'.Settled e := by
  induction hrun with
  | refl => exact ⟨hs, h⟩
  | tail _ hstep ih =>
    obtain ⟨hs, h⟩ := ih
    obtain ⟨c, hspares, hdoes⟩ := hstep
    exact ⟨sound_of_moves (hdoes.moves hs) hs, (hdoes.settled_iff hs h).mpr hspares⟩

/-- The call asks for no time before `time`. -/
def Call.AsksFrom (time : Time T) : Call T → Prop
  | .getBeforeOrAt _ t _ => time ≤ t
  | .getBeforeOrAtEvents t _ => time ≤ t
  | .deleteBefore t => time ≤ t
  | .poll _ _ _ => True

end Build

end Steps

/-- **The earliest poll time.**  After any sequence of calls, when `delete_before` has returned `e`
    and no step earlier than `e` is in the middle of being saturated, every earlier step stays
    saturated: no later call starts or completes one, as long as no call before it has given up a
    checkpoint earlier than `e`, other than a first step that is consumed. -/
theorem earliest_poll_time_kept [BuildProfile] {transposer : T} {startTime : Time T}
    {rngSeed : Seed T} {calls : List (Steps.Call T)} {s s' s₁ : Steps T} {time e : Time T}
    (h : Steps.Reachable transposer startTime rngSeed calls s)
    (hr : s.deleteBefore time = .ok (some e, s'))
    (hdone : ∀ x ∈ s'.steps, x.isSaturating = true → e ≤ x.getTime)
    (hrun : Steps.LeadsTo (fun s c => c.SparesEarlier e s) s' s₁) :
    (∀ x ∈ s₁.steps, x.isSaturated = false → e ≤ x.getTime) ∧
    ∀ (c : Steps.Call T) (s₂ : Steps T) (m : ℕ) (x : Step T), c.Does s₁ s₂ →
      s₁.Saturates s₂ m ∨ s₁.CompletesAt s₂ m → s₂.getBySequenceNumber m = some x →
      e ≤ x.getTime := by
  have hs' := (h.call trivial (.deleteBefore time hr)).sound
  have hsettled := hs'.settled_of_earliestPollTime (Steps.deleteBefore_earliest hr) hdone
  obtain ⟨hs₁, h₁⟩ := hsettled.leadsTo hs' hrun
  refine ⟨?_, fun c s₂ m x hdoes hm hx => hdoes.le_of_saturates hs₁ h₁ hm hx⟩
  intro x hx hnsat
  obtain ⟨i, hi⟩ := List.getElem?_of_mem hx
  exact h₁ i x hi (Or.inl hnsat)

/-- The steps are at 0 and 3, and `delete_before(1)` returns 3.  Of the steps that are saturated
    later, the one at 3 is the earliest. -/
theorem earliest_poll_time_kept_script :
    ∃ (_ : BuildProfile) (x : Step Script), x.isSaturating = true ∧ (3 : ℕ) ≤ x.getTime := by
  let _ : BuildProfile := debugBuild
  have hnew := @Steps.ReachableBy.new Script _ _ (fun _ _ => True) ⟨[.schedule 3], [], [], 0⟩
    (0 : ℕ) ()
  have hpoll := hnew.call trivial (.poll 0 20 [] rfl rfl rfl)
  have hready := hpoll.call trivial (.getBeforeOrAtEvents (1 : ℕ) [] rfl)
  have hnot : (1 : ℕ) ∉ ({0} : Finset ℕ) := by decide
  have hkept := @earliest_poll_time_kept _ _ _ _ _ _ _ _ _ _ (1 : ℕ) _ hready rfl ?_ .refl
  · have hle := hkept.2 _ _ 1 _ (.getBeforeOrAtEvents (3 : ℕ) [] rfl)
      (Or.inl ⟨hnot, Finset.mem_insert_self 1 _⟩) rfl
    exact ⟨inferInstance, _, rfl, hle⟩
  · intro x hx hsat
    rcases List.mem_cons.mp hx with rfl | hx
    · cases hsat
    · obtain rfl := List.mem_singleton.mp hx
      cases hsat

/-- There are checkpoints at 0, 1, ..., 29, and `delete_before(0)` returns 30.  A poll at 30 gives
    up the one at 1.  A poll at 1 saturates that again. -/
theorem earliest_poll_time_kept_fails :
    ∃ (_ : BuildProfile) (calls : List (Steps.Call Script)) (s s' s₁ s₂ : Steps Script)
      (c : Steps.Call Script) (x : Step Script),
      Steps.Reachable ⟨[.schedule 1], [.schedule 1], [], 0⟩ (0 : ℕ) () calls s ∧
      s.deleteBefore (0 : ℕ) = .ok (some (30 : ℕ), s') ∧
      Steps.LeadsTo (fun _ c => c.AsksFrom (0 : ℕ)) s' s₁ ∧ c.AsksFrom (0 : ℕ) ∧
      c.Does s₁ s₂ ∧ s₁.Saturates s₂ 1 ∧ s₂.getBySequenceNumber 1 = some x ∧
      x.getTime < (30 : ℕ) := by
  let _ : BuildProfile := debugBuild
  let poll : Steps.Call Script := .getBeforeOrAtEvents (30 : ℕ) []
  let pollAgain : Steps.Call Script := .getBeforeOrAt 1 (1 : ℕ) []
  have hrun : (Steps.evalAll (Steps.eachInTurn 20 29 ++ [.getBeforeOrAtEvents (29 : ℕ) []])
      (.new (⟨[.schedule 1], [.schedule 1], [], 0⟩ : Script) (0 : ℕ) ())).check (fun s =>
        (s.deleteBefore (0 : ℕ)).check fun (r, s') => r = some (30 : ℕ) &&
          (poll.eval s').check fun s₁ => (pollAgain.eval s₁).check fun s₂ =>
            1 ∉ s₁.notUnsaturated ∧ 1 ∈ s₂.notUnsaturated ∧
              (s₂.getBySequenceNumber 1).map Step.getTime = some (1 : ℕ)) = true := by
    decide +kernel
  obtain ⟨s, heval, hs⟩ := Outcome.exists_of_check hrun
  -- the run has been evaluated once; what follows reads it off, call by call
  obtain ⟨⟨r, s'⟩, hdelete, hs'⟩ := Outcome.exists_of_check hs
  obtain ⟨hr, hs'⟩ := Bool.and_eq_true_iff.mp hs'
  obtain rfl := of_decide_eq_true hr
  obtain ⟨s₁, hpoll, hs₁⟩ := Outcome.exists_of_check hs'
  obtain ⟨s₂, hagain, hs₂⟩ := Outcome.exists_of_check hs₁
  obtain ⟨hnot, hmem, htime⟩ := of_decide_eq_true hs₂
  obtain ⟨x, hx, hxt⟩ := Option.map_eq_some_iff.mp htime
  refine ⟨inferInstance, _, s, s', s₁, s₂, pollAgain, x, Steps.reachable_of_evalAll .new heval,
    hdelete, .single ⟨poll, Nat.zero_le 30, Steps.Call.does_of_eval hpoll⟩, Nat.zero_le 1,
    Steps.Call.does_of_eval hagain, ⟨hnot, hmem⟩, hx, ?_⟩
  rw [hxt]
  show (1 : ℕ) < 30
  decide

end Cozal
