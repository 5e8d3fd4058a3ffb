import Cozal.Source.Liveness

namespace Cozal

open Transposer

/-!
# Channels that take turns

Many channels may poll a source for states as long as they take turns: the times of the polls start
at the start time and never go back, and none is made while another channel waits for a step.  And
the source may be advanced to a time, from the start on, that its steps have reached.  A poll then
finds the last step or the end of the one before, so no step is ever run again, and nothing panics.

* `Steps.Onward` — what such calls keep of the steps; `Steps.Onward.not_consumed`, the first step
  is never given up for the last one.
* `Steps.FoundInTurn`, `Steps.Onward.search` — what a poll finds.
* `NoInputTransposerSource.InTurn` — the invariant of a source, with what a round does to it
  (`InTurn.round`, `InTurn.eventsRound`) and what it does not do (`InTurn.pollRound_avoids`).
* `NoInputTransposerSource.TurnRun` — the runs of calls in turn.
* `calls_in_turn_never_panic` — none of these calls panics.
-/

variable {T : Type} [Transposer T]

/-! ### The steps -/

namespace Steps

variable {s s' s₁ : Steps T} {start now t : Time T}

/-- A step that has started is not before the time. -/
def Reached (s : Steps T) (t : Time T) : Prop :=
  ∃ x ∈ s.steps, x.isUnsaturated = false ∧ t ≤ x.getTime

/-- The steps of a source whose polls have never gone back, with the last one at `now`. -/
structure Onward (start now : Time T) (s : Steps T) : Prop where
  /-- No step later than `now` has started. -/
  started : ∀ x ∈ s.steps, x.isUnsaturated = false → x.getTime ≤ now
  /-- The steps have reached every time that has been deleted. -/
  kept : ∀ d, s.deletedBefore = some d → s.Reached d
  /-- The first step is not later than that, nor than the start. -/
  front : ∀ x, s.steps[0]? = some x → x.getTime ≤ s.deletedBefore.getD start

/-- What a search finds then: a saturated step, or the last one, which is saturating. -/
inductive FoundInTurn (s : Steps T) (t : Time T) : BeforeStatus T → Steps T → Prop where
  | saturated {i x w nextTime} : s.LatestStep t i x → x.status = .saturated w →
      FoundInTurn s t (.saturated i nextTime) s
  | saturating {i n x s'} : s'.steps[i]? = some x → i = s'.steps.length - 1 →
      x.isSaturating = true → x.getTime ≤ t → FoundInTurn s t (.saturating i n) s'

namespace Onward

/-- A new source stands at the start. -/
theorem new (transposer : T) (startTime : Time T) (rngSeed : Seed T) :
    (Steps.new transposer startTime rngSeed).Onward startTime startTime where
  started := by
    intro x hx _
    obtain rfl := List.mem_singleton.mp hx
    exact le_rfl
  kept := by
    intro d hd
    cases hd
  front := by
    intro x hx
    cases hx
    exact le_rfl

/-- The present may be moved on. -/
theorem mono (h : s.Onward start now) (hle : now ≤ t) : s.Onward start t :=
  { h with started := fun x hx hu => (h.started x hx hu).trans hle }

/-- The step that is pushed has yet to start. -/
theorem pushed (h : s.Onward start now) (hs : s.Sound) (hpushed : Pushed s s₁) :
    s₁.Onward start now := by
  have hpos := hs.length_pos
  cases hpushed with
  | none _ => exact h
  | push _ _ _ =>
    refine ⟨?_, ?_, ?_⟩
    · intro x hx hu
      rcases List.mem_append.mp hx with hx | hx
      · exact h.started x hx hu
      · rw [List.mem_singleton.mp hx] at hu
        cases hu
    · intro d hd
      obtain ⟨x, hx, hu, hle⟩ := h.kept d hd
      exact ⟨x, List.mem_append_left _ hx, hu, hle⟩
    · intro x hx
      rw [List.getElem?_append_left hpos] at hx
      exact h.front x hx

/-- **The first step is never given up for the last one**: it would be the only one that has
    started, before a time that the steps have reached. -/
theorem not_consumed (h : s.Onward start now) {pinnedTimes : List (Time T)} {j : ℕ}
    {step : Step T} {w : WrappedTransposer T}
    (hsaturate : SaturateCases s pinnedTimes j step w s') (hlast : j + 2 = s.steps.length)
    (hunsat : step.status = .unsaturated) : ∃ f d, s' = s.saturatedAt d (j + 1) step f := by
  cases hsaturate with
  | @saturate f d _ _ _ => exact ⟨f, d, rfl⟩
  | @consume front rest f d hj heq _ hd hlt =>
    obtain ⟨x, hx, hu, hle⟩ := h.kept d hd
    have hrest : rest = [] := by
      rw [heq, List.length_cons, List.length_cons] at hlast
      exact List.length_eq_zero_iff.mp (by omega)
    rw [heq, hrest] at hx
    rcases List.mem_cons.mp hx with rfl | hx
    · exact absurd hle (not_le.mpr hlt)
    · rw [List.mem_singleton.mp hx] at hu
      simp [Step.isUnsaturated, hunsat] at hu

/-- The last step starts. -/
theorem saturate (h : s.Onward start now) (hs : s.Sound) {pinnedTimes : List (Time T)} {j : ℕ}
    {step : Step T} {w : WrappedTransposer T}
    (hsaturate : SaturateCases s pinnedTimes j step w s') (hstep : s.steps[j + 1]? = some step)
    (hlast : j + 2 = s.steps.length) (hunsat : step.status = .unsaturated)
    (hle : step.getTime ≤ now) : s'.Onward start now := by
  obtain ⟨f, d, rfl⟩ := h.not_consumed hsaturate hlast hunsat
  refine ⟨?_, ?_, ?_⟩
  · intro x' hx' hu
    obtain ⟨i, hi⟩ := List.getElem?_of_mem hx'
    rcases saturatedAt_cases hstep hi with ⟨-, rfl⟩ | ⟨-, -, x, -, rfl⟩ | ⟨-, -, hx⟩
    · exact hle
    · cases hu
    · exact h.started x' (List.mem_of_getElem? hx) hu
  · -- the steps reach as far as the one that starts
    intro d' hd'
    obtain ⟨x, hx, -, hdx⟩ := h.kept d' hd'
    obtain ⟨i, hi⟩ := List.getElem?_of_mem hx
    have hlt := (List.getElem?_eq_some_iff.mp hi).1
    refine ⟨_, List.mem_of_getElem? (getElem?_saturatedAt_self hstep), rfl, hdx.trans ?_⟩
    rcases Nat.lt_or_eq_of_le (show i ≤ j + 1 by omega) with hij | rfl
    · exact (hs.sorted.lt hi hstep hij).le
    · rw [hi, Option.some.injEq] at hstep
      exact hstep ▸ le_rfl
  · intro x' hx'
    rcases saturatedAt_cases hstep hx' with ⟨hj, -⟩ | ⟨-, -, x, hx, rfl⟩ | ⟨-, -, hx⟩
    · cases hj
    · exact h.front x hx
    · exact h.front x' hx

/-- A poll of the events at the present keeps the steps in order. -/
theorem events (h : s.Onward start t) (hs : s.Sound) {pinnedTimes : List (Time T)}
    {r : BeforeStatusEvents T} (hcases : s.EventsCases pinnedTimes t r s') :
    s'.Onward start t := by
  cases hcases with
  | ready _ _ | saturating _ _ _ => exact h
  | @start j x _ _ _ hx hle hunsat hj _ _ hsaturate =>
    refine h.saturate hs hsaturate ?_ hj hunsat hle
    rw [show j + 1 = s.steps.length - 1 by omega]
    exact hx

/-- Polling a step moves nothing. -/
theorem polled (h : s.Onward start now) {i fuel : ℕ} {step : Step T} {answers : List (Response T)}
    {p : StepPolled T} {result : StepPoll T} (hstep : s.steps[i]? = some step)
    (hp : step.poll fuel answers = .ok p) (hr : p.result = .ok result) :
    (s.setStep i p.step).Onward start now := by
  obtain ⟨htime, hunsat, -⟩ := Steps.polled hp hr
  have hsat := isSaturating_not_unsaturated (Step.isSaturating_of_poll hp hr)
  refine ⟨?_, ?_, ?_⟩
  · intro x' hx' hu
    obtain ⟨j, hj⟩ := List.getElem?_of_mem hx'
    rcases setStep_cases hstep hj with ⟨-, rfl⟩ | ⟨-, hx⟩
    · exact htime.trans_le (h.started step (List.mem_of_getElem? hstep) hsat)
    · exact h.started x' (List.mem_of_getElem? hx) hu
  · intro d hd
    obtain ⟨x, hx, hu, hle⟩ := h.kept d hd
    obtain ⟨j, hj⟩ := List.getElem?_of_mem hx
    by_cases hij : j = i
    · subst hij
      rw [hstep, Option.some.injEq] at hj
      subst hj
      exact ⟨p.step, List.mem_of_getElem? (getElem?_setStep_self hstep _), hunsat,
        hle.trans htime.ge⟩
    · exact ⟨x, List.mem_of_getElem? ((getElem?_setStep_of_ne hij _).trans hj), hu, hle⟩
  · intro x' hx'
    rcases setStep_cases hstep hx' with ⟨rfl, rfl⟩ | ⟨-, hx⟩
    · exact htime.trans_le (h.front step hstep)
    · exact h.front x' hx

/-- The steps before a checkpoint are forgotten, for a time that the steps have reached. -/
theorem forget (h : s.Onward start now) (hs : s.Sound) (hreached : s.Reached t) {i : ℕ}
    {x : Step T} (hx : s.LatestCheckpoint t i x) : (s.forget i t).Onward start now := by
  have hget : ∀ m : ℕ, (s.forget i t).steps[m]? = s.steps[i + m]? := fun m => List.getElem?_drop
  refine ⟨?_, ?_, ?_⟩
  · intro y hy hu
    exact h.started y (List.mem_of_mem_drop hy) hu
  · intro d hd
    obtain rfl : t = d := Option.some.inj hd
    obtain ⟨y, hy, hu, hle⟩ := hreached
    obtain ⟨j, hj⟩ := List.getElem?_of_mem hy
    rcases Nat.lt_or_ge j i with hlt | hge
    · -- a step before the checkpoint is before the time
      exact absurd hle (not_le.mpr ((hs.sorted.lt hj hx.get hlt).trans_le hx.le))
    · refine ⟨y, List.mem_of_getElem? (i := j - i) ?_, hu, hle⟩
      rw [hget, Nat.add_sub_cancel' hge]
      exact hj
  · intro y hy
    rw [hget, Nat.add_zero, hx.get, Option.some.injEq] at hy
    exact hy ▸ hx.le

/-- There is a step before or at every time that is not before `now`. -/
theorem exists_latest (h : s.Onward start now) (hs : s.Sound) (hle : now ≤ t) :
    ∃ i x, s.LatestStep t i x := by
  rcases searchBeforeOrAt_cases hs t with ⟨i, x, -, hx⟩ | ⟨-, hbefore⟩
  · exact ⟨i, x, hx⟩
  · obtain ⟨front, -, hfront, hu⟩ := hs.exists_first
    have hmem := List.mem_of_getElem? hfront
    exact absurd (hbefore front hmem) (not_lt.mpr ((h.started front hmem hu).trans hle))

/-- **The latest step** before or at a time that is not before `now` is the last one, unless that
    has yet to start: then it is the saturated one before. -/
theorem latest (h : s.Onward start now) (hs : s.Sound) (hle : now ≤ t) {i : ℕ} {x : Step T}
    (hx : s.LatestStep t i x) : x.isSaturated = true ∨ i + 1 = s.steps.length := by
  have hpos := hs.length_pos
  have hi := (List.getElem?_eq_some_iff.mp hx.get).1
  obtain ⟨y, -, hy, hlast⟩ := hs.exists_last
  rcases Nat.lt_or_eq_of_le (show i ≤ s.steps.length - 1 by omega) with hlt | heq
  · -- the last step is later than the time, so it has not started
    have hlater : t < y.getTime := hx.after _ y hlt hy
    have hunsat : y.isUnsaturated = true := by
      by_contra hu
      rw [Bool.not_eq_true] at hu
      have hyle := (h.started y (List.mem_of_getElem? hy) hu).trans hle
      exact absurd hyle (not_le.mpr hlater)
    simp only [LastStep, Step.isUnsaturated_iff.mp hunsat] at hlast
    obtain ⟨-, j, prev, w, k, hj, hprev, hw, -, -⟩ := hlast
    have hprevle : prev.getTime ≤ t :=
      (h.started prev (List.mem_of_getElem? hprev) (isUnsaturated_of_saturated hw)).trans hle
    refine Or.inl (Step.isSaturated_iff.mpr ⟨w, ?_⟩)
    rcases Nat.lt_or_eq_of_le (show i ≤ j by omega) with hij | rfl
    · exact absurd (hx.after j prev hij hprev) (not_lt.mpr hprevle)
    · rw [hx.get, Option.some.injEq] at hprev
      exact hprev ▸ hw
  · exact Or.inr (by omega)

/-- An unsaturated latest step is the last one, right after a saturated one. -/
theorem latest_unsaturated (h : s.Onward start now) (hs : s.Sound) (hle : now ≤ t) {i : ℕ}
    {x : Step T} (hx : s.LatestStep t i x) (hunsat : x.status = .unsaturated) :
    ∃ j prev w, i = j + 1 ∧ j + 2 = s.steps.length ∧ s.steps[j]? = some prev ∧
      prev.status = .saturated w := by
  have hlast : i + 1 = s.steps.length := by
    refine (h.latest hs hle hx).resolve_left ?_
    simp [Step.isSaturated, hunsat]
  have hend := hs.last i x hx.get hlast
  simp only [LastStep, hunsat] at hend
  obtain ⟨-, j, prev, w, -, hj, hprev, hw, -, -⟩ := hend
  exact ⟨j, prev, w, by omega, hj, hprev, hw⟩

/-- **What a search finds**, and that it keeps the steps onward. -/
theorem found (h : s.Onward start now) (hs : s.Sound) (hle : now ≤ t)
    {pinnedTimes : List (Time T)} {r : Except Unit (BeforeStatus T)}
    (hcases : s.BeforeCases pinnedTimes t r s') :
    ∃ q, r = .ok q ∧ s.FoundInTurn t q s' ∧ s'.Onward start t := by
  cases hcases with
  | before hbefore =>
    obtain ⟨i, x, hx⟩ := h.exists_latest hs hle
    exact absurd (hbefore x (List.mem_of_getElem? hx.get)) (not_lt.mpr hx.le)
  | saturated hx hsat _ =>
    obtain ⟨w, hw⟩ := Step.isSaturated_iff.mp hsat
    exact ⟨_, rfl, .saturated hx hw, h.mono hle⟩
  | saturating hx hsat =>
    rcases h.latest hs hle hx with hsat' | hlast
    · obtain ⟨w, hw⟩ := Step.isSaturated_iff.mp hsat'
      exact absurd hw (isSaturating_ne_saturated hsat w)
    · exact ⟨_, rfl, .saturating hx.get (by omega) hsat hx.le, h.mono hle⟩
  | previous hx hunsat hprev hsat =>
    obtain ⟨j, prev, w, hj, -, hprev', hw⟩ := h.latest_unsaturated hs hle hx hunsat
    obtain rfl := Nat.succ.inj hj
    rw [hprev, Option.some.injEq] at hprev'
    exact absurd (hprev' ▸ hw) (isSaturating_ne_saturated hsat w)
  | start hx hunsat _ _ hsaturate hy =>
    obtain ⟨j, -, -, hj, hlast, -, -⟩ := h.latest_unsaturated hs hle hx hunsat
    obtain rfl := Nat.succ.inj hj
    have hnext := (h.mono hle).saturate hs hsaturate hx.get hlast hunsat hx.le
    obtain ⟨f, d, rfl⟩ := h.not_consumed hsaturate hlast hunsat
    refine ⟨_, rfl, .saturating (getElem?_saturatedAt_self hx.get) ?_ rfl hx.le, hnext⟩
    rw [length_saturatedAt]
    omega

section Build

variable [BuildProfile]

/-- Without pinned times the search returns, with any fuel when it has no step to start. -/
theorem getBeforeOrAt_returns (h : s.Onward start now) (hs : s.Sound) (hlinked : s.Linked)
    (hle : now ≤ t) (fuel : ℕ) : (fuel = 0 ∧ s.getBeforeOrAt fuel t [] = .running) ∨
      ∃ r s', s.getBeforeOrAt fuel t [] = .ok (r, s') := by
  obtain ⟨s₁, hpush⟩ := hs.tryNextScheduled_returns
  have hpushed := tryNextScheduled_cases hpush
  have hs₁ := hpushed.sound hs
  have h₁ := h.pushed hs hpushed
  by_cases hnone : ∀ i x, s₁.LatestStep t i x → x.isUnsaturated = false
  · exact Or.inr (getBeforeOrAt_returns_of_checkpoint hs hpush hnone [] fuel)
  · simp only [not_forall, Bool.not_eq_false] at hnone
    obtain ⟨i, x, hx, hunsat⟩ := hnone
    have hst := Step.isUnsaturated_iff.mp hunsat
    rw [getBeforeOrAt_of_latest hs hpush hx hunsat]
    cases fuel with
    | zero => exact Or.inl ⟨rfl, rfl⟩
    | succ fuel =>
      obtain ⟨j, prev, w, rfl, hlast, hprev, hw⟩ := h₁.latest_unsaturated hs₁ hle hx hst
      have hsat := Step.isSaturated_iff.mpr ⟨w, hw⟩
      have hroom : s₁.MakesRoom [] := Or.inr (by simp)
      obtain ⟨s', hs'⟩ := (saturate_returns_iff hs₁ (hpushed.linked hlinked) hprev hsat hx.get
        hunsat).mpr (Or.inr hroom)
      obtain ⟨f, d, heq⟩ :=
        h₁.not_consumed (saturate_cases hs₁ hprev hw hx.get hst hs') hlast hst
      have hy : s'.steps[j + 1]? = some (x.started f) := by
        rw [heq]
        exact getElem?_saturatedAt_self hx.get
      rw [Nat.add_comm] at hs'
      refine Or.inr ⟨.ok (.saturating (j + 1) (j + 1 + s'.numDeletedSteps)), s', ?_⟩
      simp only [walkBack, hprev, hsat, if_true, hs', Outcome.ok_bind, Outcome.pure_eq, hy,
        Outcome.unwrap_some]

/-- **The search** finds a saturated step, or the last one to wait for. -/
theorem search (h : s.Onward start now) (hs : s.Sound) (hlinked : s.Linked) (hle : now ≤ t)
    (fuel : ℕ) : (fuel = 0 ∧ s.getBeforeOrAt fuel t [] = .running) ∨
      ∃ s₁ q s', s.getBeforeOrAt fuel t [] = .ok (.ok q, s') ∧ Pushed s s₁ ∧
        s₁.FoundInTurn t q s' := by
  refine (h.getBeforeOrAt_returns hs hlinked hle fuel).imp_right ?_
  rintro ⟨r, s', hr⟩
  obtain ⟨s₁, -, hpushed, hcases⟩ := getBeforeOrAt_cases hs hr
  obtain ⟨q, rfl, hq, -⟩ := (h.pushed hs hpushed).found (hpushed.sound hs) hle hcases
  exact ⟨s₁, q, s', hr, hpushed, hq⟩

/-- **A time that the steps have reached** can be deleted, if it is not before the start. -/
theorem deleteBefore (h : s.Onward start now) (hs : s.Sound) (hstart : start ≤ t)
    (hreached : s.Reached t) :
    ∃ r s', s.deleteBefore t = .ok (r, s') ∧ s'.Onward start now := by
  obtain ⟨front, hhead, hfront, -⟩ := hs.exists_first
  have hle := h.front front hfront
  have hreturns : (∃ d, s.deletedBefore = some d ∧ t ≤ d) ∨ s.Searchable t := by
    cases hd : s.deletedBefore with
    | none =>
      rw [hd] at hle
      exact Or.inr (Or.inl ⟨front, hhead, hle.trans hstart⟩)
    | some d =>
      rw [hd] at hle
      rcases le_total t d with htd | hdt
      · exact Or.inl ⟨d, rfl, htd⟩
      · exact Or.inr (Or.inl ⟨front, hhead, hle.trans hdt⟩)
  obtain ⟨r, s', hr⟩ := (deleteBefore_returns_iff hs).mpr hreturns
  refine ⟨r, s', hr, ?_⟩
  rcases deleteBefore_cases hs hr with ⟨-, rfl⟩ | ⟨hlater, i, x, hx, hu, rfl, -, hfound⟩
  · exact h
  · rcases hfound with hlatest | hbefore
    · exact h.forget hs hreached hlatest
    · -- the first step is not later than the time
      have hnot := hbefore front (List.mem_of_getElem? hfront)
      cases hd : s.deletedBefore with
      | none =>
        rw [hd] at hle
        exact absurd (hle.trans hstart) (not_le.mpr hnot)
      | some d =>
        rw [hd] at hle
        exact absurd (hle.trans (hlater d hd).le) (not_le.mpr hnot)

end Build

end Onward

end Steps

/-! ### Interpolations -/

/-- The interpolation returns what that of the reference's state at `t` to `t` returns. -/
def AnswersFor (R : Reference T) (t : Time T) (i : Interpolating T) : Prop :=
  ∀ w state, R.StateAt t w →
    Returns (interpolate w.transposer t w.metadata.lastUpdated.time) state → Returns i state

/-- A poll that is pending changes nothing about the state that is returned in the end. -/
theorem returns_of_pending (hd : Deterministic T) {fuel : ℕ} {answers : List (Response T)}
    {i i' : Interpolating T} (h : pollInterpolation fuel answers i = .ok (.pending i'))
    {state : OutputState T} (hr : Returns i state) : Returns i' state := by
  induction fuel generalizing answers i with
  | zero => cases h
  | succ fuel ih =>
    simp only [pollInterpolation] at h
    cases hr with
    | done hi => simp [hi] at h
    | next hi hr =>
      simp only [hi] at h
      exact ih h hr
    | await x hi hr =>
      simp only [hi] at h
      cases answers with
      | nil =>
        simp only [Outcome.pure_eq, Outcome.ok.injEq, InterpolationPoll.pending.injEq] at h
        exact h ▸ .await x hi hr
      | cons y answers => exact ih h (hd.interpolation hi x y ▸ hr)

/-! ### The invariant -/

/-- A channel waits for the last step, which is saturating, or for an interpolation. -/
def CallerChannelBlockedReason.Stands (reason : CallerChannelBlockedReason T) (s : Steps T) :
    Prop :=
  match reason.inner with
  | .originalStep => ∃ x, s.steps[s.steps.length - 1]? = some x ∧ x.isSaturating = true
  | .repeatStep _ => False
  | .interpolationFuture _ => True

/-- A channel that pins no time waits for no step. -/
theorem CallerChannelBlockedReason.stands_of_unpinned {reason : CallerChannelBlockedReason T}
    (h : reason.getPinnedTime = none) (s : Steps T) : reason.Stands s := by
  obtain ⟨pollTime, inner⟩ := reason
  cases inner with
  | originalStep | repeatStep _ => cases h
  | interpolationFuture _ => trivial

namespace NoInputTransposerSource

variable {R : Reference T} {s s' : NoInputTransposerSource T} {clock time : Time T}
  {out : List (Time T × OutputEvent T)} {channel : ℕ} {r : Round T}

/-- No other channel waits for a step. -/
def Alone (s : NoInputTransposerSource T) (channel : ℕ) : Prop :=
  ∀ other reason, other ≠ channel →
    s.channelStatuses.blockedCallerChannels.get other = some reason →
    reason.getPinnedTime = none

/-- When the channel is free as well, no time is pinned. -/
theorem Alone.unpinned (h : s.Alone channel)
    (hfree : s.channelStatuses.blockedCallerChannels.get channel = none) :
    s.channelStatuses.getPinnedTimes = [] := by
  apply List.eq_nil_iff_forall_not_mem.mpr
  intro t ht
  obtain ⟨other, reason, hreason, hpinned⟩ := ChannelStatuses.mem_getPinnedTimes.mp ht
  by_cases hother : other = channel
  · rw [hother, hfree] at hreason
    cases hreason
  · rw [h other reason hother hreason] at hpinned
    cases hpinned

/-- What happens to the stack wakers does not matter to who waits. -/
theorem Alone.afterWakerEvents (h : s.Alone channel) (events : List (ℕ × StackWakerEvent)) :
    (s.afterWakerEvents events).Alone channel := by
  intro other reason hother hreason
  rw [afterWakerEvents_blocked] at hreason
  exact h other reason hother hreason

/-- When no time is pinned every channel is alone. -/
theorem alone_of_unpinned (h : s.channelStatuses.getPinnedTimes = []) (channel : ℕ) :
    s.Alone channel := by
  intro other reason _ hreason
  cases hpinned : reason.getPinnedTime with
  | none => rfl
  | some t =>
    have ht := ChannelStatuses.mem_getPinnedTimes.mpr ⟨other, reason, hreason, hpinned⟩
    rw [h] at ht
    cases ht

/-- A round of `poll` lets no other channel wait. -/
theorem RoundCases.alone {o : Option (SourcePollOf T (OutputState T))}
    (h : RoundCases time channel r s o s') (halone : s.Alone channel) : s'.Alone channel := by
  intro other reason hother hreason
  rw [h.others other hother] at hreason
  exact halone other reason hother hreason

/-- A source whose calls have been made in turn: the last one at `clock`, and the events `out`
    have been returned. -/
structure InTurn (R : Reference T) (clock : Time T) (out : List (Time T × OutputEvent T))
    (s : NoInputTransposerSource T) : Prop where
  events : EventsInv R s out
  linked : s.steps.Linked
  steps : s.steps.Onward R.startTime clock
  waits : s.channelStatuses.All fun reason => reason.Stands s.steps
  answers : InterpolationsMeet (AnswersFor R) s.channelStatuses

/-- What the round leaves the channel waiting for stands, when the search has found in turn. -/
theorem RoundCases.stands {o : Option (SourcePollOf T (OutputState T))}
    (h : RoundCases time channel r s o s')
    (hstands : s.channelStatuses.All fun reason => reason.Stands s.steps)
    (hfound : ∀ steps i n steps', Steps.Pushed s.steps steps →
      steps.BeforeCases s.channelStatuses.getPinnedTimes time (.ok (.saturating i n)) steps' →
      steps.FoundInTurn time (.saturating i n) steps')
    (halone : s.Alone channel) (hsound : s'.steps.Sound) :
    s'.channelStatuses.All fun reason => reason.Stands s'.steps := by
  intro other reason hreason
  by_cases hother : other = channel
  · subst hother
    cases h with
    | abandon hb _ =>
      simp only [NoInputTransposerSource.abandon, ChannelStatuses.abandon_blocked,
        OrdMap.get_remove_eq_some] at hreason
      exact absurd rfl hreason.1
    | interpolate _ _ _ _ | interpolationPending _ _ =>
      simp only [ChannelStatuses.startInterpolation, ChannelStatuses.occupy, OrdMap.get_insert,
        if_true, Option.some.injEq] at hreason
      exact hreason ▸ trivial
    | @wait steps i n steps' step _ hpushed hcases hstep =>
      cases hfound steps i n steps' hpushed hcases with
      | @saturating _ _ x _ hx hlast hsat _ =>
        rw [hx, Option.some.injEq] at hstep
        subst hstep
        subst hlast
        have hpos : 0 < steps'.steps.length := hsound.length_pos
        -- a last step that is saturating may produce events
        have hcan : x.canProduceEvents = true := by
          obtain ⟨f, a, ch, hst⟩ := Step.isSaturating_iff.mp hsat
          have hend : Steps.LastStep steps'.steps x :=
            hsound.last _ x hx (Nat.sub_add_cancel hpos)
          rw [hend.canProduceEvents]
          simp [Step.isSaturated, hst]
        rw [if_pos hcan, ChannelStatuses.startOriginalStep, ChannelStatuses.occupy,
          OrdMap.get_insert, if_pos rfl, Option.some.injEq] at hreason
        subst hreason
        exact ⟨x, hx, hsat⟩
    | interpolationReady _ _ | originalReady _ _ _ _ =>
      simp [ChannelStatuses.vacate] at hreason
    | @originalEmitted step p e hb hstep hp hr =>
      rw [hb, Option.some.injEq] at hreason
      subst hreason
      refine ⟨p.step, ?_, (Steps.polled hp hr).2.2 (by simp)⟩
      rw [Steps.length_setStep]
      exact Steps.getElem?_setStep_self hstep _
    | @originalPending step p hb hstep hp hr =>
      rw [hb, Option.some.injEq] at hreason
      subst hreason
      refine ⟨p.step, ?_, (Steps.polled hp hr).2.2 (by simp)⟩
      rw [Steps.length_setStep]
      exact Steps.getElem?_setStep_self hstep _
    | repeatWaits hb _ | repeatPending hb _ _ _ _ _ | repeatReady hb _ _ _ _ _ =>
      exact (hstands _ _ hb).elim
  · rw [h.others other hother] at hreason
    exact CallerChannelBlockedReason.stands_of_unpinned (halone other reason hother hreason) _

namespace InTurn

/-- A new source has returned nothing, and no channel waits. -/
theorem new (transposer : T) (startTime : Time T) (rngSeed : Seed T) :
    InTurn ⟨transposer, startTime, rngSeed⟩ startTime []
      (.new transposer startTime rngSeed) where
  events := .new transposer startTime rngSeed
  linked := .new transposer startTime rngSeed
  steps := .new transposer startTime rngSeed
  waits := .new
  answers := .new

/-- The steps keep their invariant. -/
theorem sound (h : InTurn R clock out s) : s.steps.Sound := h.events.emitted.sound

/-- The present may be moved on. -/
theorem mono (h : InTurn R clock out s) (hle : clock ≤ time) : InTurn R time out s :=
  { h with steps := h.steps.mono hle }

/-- What happens to the stack wakers does not matter to calls in turn. -/
theorem afterWakerEvents (h : InTurn R clock out s) (events : List (ℕ × StackWakerEvent)) :
    InTurn R clock out (s.afterWakerEvents events) where
  events := h.events.afterWakerEvents events
  linked := h.linked
  steps := h.steps
  waits := h.waits.of_eq (afterWakerEvents_blocked s events)
  answers := h.answers.of_eq (afterWakerEvents_blocked s events)

/-- A new interpolation is that of the reference's state. -/
theorem answersFor (hd : Deterministic T) (ha : AwaitsEmissions T) (h : InTurn R clock out s)
    {steps : Steps T} {i : ℕ} {x : Step T} {w : WrappedTransposer T}
    (hpushed : Steps.Pushed s.steps steps) (hx : steps.LatestStep time i x)
    (hw : x.status = .saturated w) :
    AnswersFor R time (interpolate w.transposer time w.metadata.lastUpdated.time) := by
  have h₁ := h.events.emitted.pushed hd ha hpushed
  obtain ⟨o, f, os, hpoint, hc, -, hnext⟩ :=
    h₁.line.latest hd (tracked_invariant hd ha) h₁.sound hpushed hx hw
  obtain ⟨g, hrun, hready⟩ := hpoint.run_completes hc
  intro w' state hw' hstate
  have hat : R.StateAt time w := ⟨_, _, g, hrun, hready, hx.le, hnext⟩
  obtain rfl := hw'.unique hd hat
  exact hstate

/-- **A round of `poll`** in turn keeps the invariant, with the event it returns. -/
theorem round (hd : Deterministic T) (ha : AwaitsEmissions T) (h : InTurn R time out s)
    (halone : s.Alone channel) {o : Option (SourcePollOf T (OutputState T))}
    (hround : RoundCases time channel r s o s') :
    InTurn R time (out ++ roundInterrupts o) s' := by
  have hevents := h.events.round hd ha hround
  have hfound : ∀ steps i n steps', Steps.Pushed s.steps steps →
      steps.BeforeCases s.channelStatuses.getPinnedTimes time (.ok (.saturating i n)) steps' →
      steps.FoundInTurn time (.saturating i n) steps' ∧ steps'.Onward R.startTime time := by
    intro steps i n steps' hpushed hcases
    obtain ⟨q, hq, hfound⟩ :=
      (h.steps.pushed h.sound hpushed).found (hpushed.sound h.sound) le_rfl hcases
    cases hq
    exact hfound
  refine ⟨hevents, Steps.linked_of_moves hround.moves h.linked, ?_, ?_, ?_⟩
  · cases hround with
    | abandon _ _ | interpolationPending _ _ | interpolationReady _ _ | repeatWaits _ _ =>
      exact h.steps
    | interpolate _ hpushed _ _ => exact h.steps.pushed h.sound hpushed
    | wait _ hpushed hcases _ => exact (hfound _ _ _ _ hpushed hcases).2
    | originalEmitted _ hstep hp hr | originalPending _ hstep hp hr
    | originalReady _ hstep hp hr => exact h.steps.polled hstep hp hr
    | repeatPending _ _ hstep _ hp hr | repeatReady _ _ hstep _ hp hr =>
      exact h.steps.polled hstep hp hr
  · refine hround.stands h.waits ?_ halone hevents.emitted.sound
    intro steps i n steps' hpushed hcases
    exact (hfound steps i n steps' hpushed hcases).1
  · refine hround.interpolations h.answers ?_ ?_
    · intro steps i x w hpushed hx hw
      exact h.answersFor hd ha hpushed hx hw
    · intro t i i' hi hpending w state hw hstate
      exact returns_of_pending hd hpending (hi w state hw hstate)

section Build

variable [BuildProfile]

/-- **A round of `poll_events`** in turn keeps the invariant, with the event it returns. -/
theorem eventsRound (hd : Deterministic T) (ha : AwaitsEmissions T) (h : InTurn R time out s)
    (hunpinned : s.channelStatuses.getPinnedTimes = []) {pinnedTimes : List (Time T)}
    {o : Option (SourcePollOf T Unit)} (hround : EventsRoundCases time pinnedTimes r s o s') :
    InTurn R time (out ++ roundInterrupts o) s' := by
  have hstatuses := hround.channelStatuses
  refine ⟨h.events.eventsRound hd ha hround, Steps.linked_of_moves hround.moves h.linked, ?_, ?_,
    hstatuses ▸ h.answers⟩
  · cases hround with
    | ready hpushed _ _ => exact h.steps.pushed h.sound hpushed
    | emitted hpushed hcases hstep hp hr | pending hpushed hcases hstep hp hr
    | completed _ hpushed hcases hstep hp hr =>
      have h₁ := h.steps.pushed h.sound hpushed
      exact (h₁.events (hpushed.sound h.sound) hcases).polled hstep hp hr
  · -- no channel waits for a step, so the steps do not matter to any of them
    intro channel reason hreason
    rw [hstatuses] at hreason
    refine CallerChannelBlockedReason.stands_of_unpinned ?_ _
    exact alone_of_unpinned hunpinned (channel + 1) channel reason (by omega) hreason

/-- The invariant holds before every round of `poll`, and the channel stays alone. -/
theorem pollRound (hd : Deterministic T) (ha : AwaitsEmissions T) (h : InTurn R time out s)
    (halone : s.Alone channel) {o : Option (SourcePollOf T (OutputState T))}
    (hr : NoInputTransposerSource.pollRound time channel r s = .ok (o, s')) :
    InTurn R time (out ++ roundInterrupts o) s' ∧ s'.Alone channel := by
  have hcases := pollRound_cases h.sound hr
  have hwoken := halone.afterWakerEvents r.wakerEvents
  exact ⟨(h.afterWakerEvents r.wakerEvents).round hd ha hwoken hcases, hcases.alone hwoken⟩

/-- The invariant holds before every round of `poll_events`, and no time gets pinned. -/
theorem pollEventsRound (hd : Deterministic T) (ha : AwaitsEmissions T) (h : InTurn R time out s)
    (hunpinned : s.channelStatuses.getPinnedTimes = []) {pinnedTimes : List (Time T)}
    {o : Option (SourcePollOf T Unit)}
    (hr : NoInputTransposerSource.pollEventsRound time pinnedTimes r s = .ok (o, s')) :
    InTurn R time (out ++ roundInterrupts o) s' ∧ s'.channelStatuses.getPinnedTimes = [] := by
  have hcases := pollEventsRound_cases h.sound hr
  exact ⟨h.eventsRound hd ha hunpinned hcases, hcases.channelStatuses ▸ hunpinned⟩

/-! ### What a round does not do -/

/-- A free channel whose turn it is starts to wait, if there is fuel. -/
theorem pollFree_returns (hd : Deterministic T) (ha : AwaitsEmissions T) (h : InTurn R time out s)
    (halone : s.Alone channel)
    (hfree : s.channelStatuses.blockedCallerChannels.get channel = none) (fuel : ℕ) :
    (fuel = 0 ∧ s.pollFree time channel fuel = .running) ∨
      ∃ s', s.pollFree time channel fuel = .ok s' := by
  simp only [NoInputTransposerSource.pollFree, halone.unpinned hfree]
  rcases h.steps.search h.sound h.linked le_rfl fuel with
    ⟨hfuel, hq⟩ | ⟨steps, q, steps', hq, hpushed, hfound⟩
  · exact Or.inl ⟨hfuel, by rw [hq]; rfl⟩
  · refine Or.inr ?_
    rw [hq, Outcome.ok_bind]
    cases hfound with
    | @saturated i x w nextTime hx hw =>
      have h₁ := h.events.emitted.pushed hd ha hpushed
      obtain ⟨o, f, os, hpoint, hc, -, -⟩ :=
        h₁.line.latest hd (tracked_invariant hd ha) h₁.sound hpushed hx hw
      -- the step has been updated at its own time, which is not later than that of the poll
      have hnot : ¬ time < w.metadata.lastUpdated.time := by
        rw [(hc.drained hpoint.inTime).lastUpdated]
        exact not_lt.mpr hx.le
      have hi : x.interpolate time
          = .ok (Transposer.interpolate w.transposer time w.metadata.lastUpdated.time) := by
        simp only [Step.interpolate, hw, hnot, and_false, if_false]
      simp only [Outcome.expect_ok, Outcome.ok_bind, hx.get, Outcome.unwrap_some, hi]
      exact ⟨_, rfl⟩
    | @saturating i n x _ hx _ _ _ =>
      simp only [Outcome.expect_ok, Outcome.ok_bind, hx, Outcome.unwrap_some]
      split
      · exact ⟨_, rfl⟩
      · exact ⟨_, rfl⟩

/-- **A round of `poll`** in turn does not panic. -/
theorem pollRound_avoids (hd : Deterministic T) (ha : AwaitsEmissions T) (h : InTurn R time out s)
    (halone : s.Alone channel) (r : Round T) :
    (NoInputTransposerSource.pollRound time channel r s).Avoids fun _ => True := by
  unfold NoInputTransposerSource.pollRound
  replace h := h.afterWakerEvents r.wakerEvents
  replace halone := halone.afterWakerEvents r.wakerEvents
  revert h halone
  generalize s.afterWakerEvents r.wakerEvents = u
  intro h halone
  show Outcome.Avoids _ (u.channelStatuses.getChannelStatus channel >>= _)
  unfold ChannelStatuses.getChannelStatus
  cases hb : u.channelStatuses.blockedCallerChannels.get channel with
  | none =>
    show Outcome.Avoids _ (u.pollFree time channel r.fuel >>= _)
    rcases h.pollFree_returns hd ha halone hb r.fuel with ⟨-, hq⟩ | ⟨u', hq⟩
    · rw [hq]
      exact .running
    · rw [hq]
      exact .ok _
  | some reason =>
    obtain ⟨pollTime, inner⟩ := reason
    cases inner with
    | originalStep =>
      obtain ⟨x, hx, hsat⟩ := h.waits channel _ hb
      show Outcome.Avoids _ (if pollTime ≠ time then _ else _)
      split
      · exact .ok _
      · obtain ⟨hpoll, hresult⟩ := h.events.emitted.roundAvoids hd ha hx hsat r
        rw [← List.getLast?_eq_getElem?] at hx
        unfold pollOriginalStepFuture
        rw [Steps.getLast_ok.mpr hx, Outcome.ok_bind]
        refine hpoll.bind fun p hp => (hresult p hp).bind fun result _ => ?_
        cases result <;> exact .ok _
    | repeatStep stepId => exact (h.waits channel _ hb).elim
    | interpolationFuture i =>
      show Outcome.Avoids _ (if pollTime ≠ time then _ else _)
      split
      · exact .ok _
      · refine Outcome.Avoids.bind ?_ fun _ _ => .ok _
        refine (pollInterpolation_avoids _ _ _).bind fun q _ => ?_
        cases q with
        | pending _ => exact .ok _
        | ready state =>
          obtain ⟨last, hlast, -, -⟩ := h.sound.exists_last
          show Outcome.Avoids _ (u.steps.getLast >>= _ >>= _)
          rw [Steps.getLast_ok.mpr hlast]
          exact .ok _

end Build

end InTurn

/-! ### Runs -/

/-- The call is made in turn after a poll at `clock`.  A poll is not made before that time, nor
    while a channel waits for a step but the one it is made for; and the source is not advanced to
    a time before its start, nor further than its steps have reached. -/
def TakesTurn (start clock : Time T) (s : NoInputTransposerSource T) : Call T → Prop
  | .poll time channel _ => clock ≤ time ∧ s.Alone channel
  | .pollEvents time _ => clock ≤ time ∧ s.channelStatuses.getPinnedTimes = []
  | .releaseChannel _ => True
  | .advance time => start ≤ time ∧ s.steps.Reached time

/-- The time of the last poll once the call has been made. -/
def Call.lastPoll (clock : Time T) : Call T → Time T
  | .poll time _ _ => time
  | .pollEvents time _ => time
  | .releaseChannel _ => clock
  | .advance _ => clock

section Build

variable [BuildProfile]

/-- The source after calls in turn, with what they have returned and the time of the last poll.
    Before the first one the clock stands at the start. -/
inductive TurnRun (R : Reference T) :
    List (Call T × Reply T) → Time T → NoInputTransposerSource T → Prop where
  | new : TurnRun R [] R.startTime (.new R.transposer R.startTime R.rngSeed)
  | call {history clock s reply s'} (c : Call T) : TurnRun R history clock s →
      TakesTurn R.startTime clock s c → s.call c = .ok (reply, s') →
      TurnRun R (history ++ [(c, reply)]) (c.lastPoll clock) s'

/-- **A poll in turn keeps the invariant**, with the event it returns, and its channel alone. -/
theorem InTurn.poll (hd : Deterministic T) (ha : AwaitsEmissions T) (h : InTurn R clock out s)
    (hle : clock ≤ time) (halone : s.Alone channel) {rounds : List (Round T)}
    {p : SourcePollOf T (OutputState T)} (hp : s.poll time channel rounds = .ok (p, s')) :
    InTurn R time (out ++ p.interrupts) s' ∧ s'.Alone channel := by
  -- the rounds before the last one return nothing
  obtain ⟨r, u, ⟨hu, hualone⟩, -, hr⟩ := Outcome.loop_ok
    (P := fun u => InTurn R time out u ∧ u.Alone channel) hp
    (.of_forall (fun _ _ => trivial) _ _) ⟨h.mono hle, halone⟩
    (fun r u u' ⟨hu, hualone⟩ _ hr => (List.append_nil out) ▸ hu.pollRound hd ha hualone hr)
  exact hu.pollRound hd ha hualone hr

/-- **A call in turn keeps the invariant**, with the event it returns. -/
theorem InTurn.call (hd : Deterministic T) (ha : AwaitsEmissions T) (h : InTurn R clock out s)
    {c : Call T} {reply : Reply T} (hturn : TakesTurn R.startTime clock s c)
    (hc : s.call c = .ok (reply, s')) :
    InTurn R (c.lastPoll clock) (out ++ reply.interrupts) s' := by
  cases call_cases hc with
  | @poll p s' time channel rounds hp =>
    obtain ⟨hle, halone⟩ := hturn
    exact (h.poll hd ha hle halone hp).1
  | @pollEvents p s' time rounds hp =>
    obtain ⟨hle, hunpinned⟩ := hturn
    obtain ⟨r, u, ⟨hu, hunpinned⟩, -, hr⟩ := Outcome.loop_ok
      (P := fun u => InTurn R time out u ∧ u.channelStatuses.getPinnedTimes = []) hp
      (.of_forall (fun _ _ => trivial) _ _) ⟨h.mono hle, hunpinned⟩
      (fun r u u' ⟨hu, hunpinned⟩ _ hr =>
        (List.append_nil out) ▸ hu.pollEventsRound hd ha hunpinned hr)
    exact (hu.pollEventsRound hd ha hunpinned hr).1
  | releaseFree _ => exact (List.append_nil out).symm ▸ h
  | @release channel b hb =>
    rw [Reply.interrupts, List.append_nil]
    exact
      { events := ⟨h.events.emitted, h.events.covered.vacate ChannelStatuses.abandon_blocked⟩
        linked := h.linked
        steps := h.steps
        waits := h.waits.vacate ChannelStatuses.abandon_blocked
        answers := h.answers.vacate ChannelStatuses.abandon_blocked }
  | @advance time q steps hq =>
    obtain ⟨hstart, hreached⟩ := hturn
    obtain ⟨q', steps', hq', hsteps⟩ := h.steps.deleteBefore h.sound hstart hreached
    rw [hq, Outcome.ok.injEq, Prod.mk.injEq] at hq'
    obtain ⟨-, rfl⟩ := hq'
    have hlinked := Steps.linked_of_moves
      ((Steps.Call.Does.deleteBefore time hq).moves h.sound) h.linked
    refine ⟨(h.events.call hd ha hc).1, hlinked, hsteps, ?_, h.answers⟩
    rcases Steps.deleteBefore_cases h.sound hq with ⟨-, rfl⟩ | ⟨-, i, x, hx, -, rfl, -⟩
    · exact h.waits
    · -- the last step is never forgotten
      refine h.waits.imp fun channel reason _ hstands => ?_
      unfold CallerChannelBlockedReason.Stands at hstands ⊢
      split at hstands
      · obtain ⟨y, hy, hsat⟩ := hstands
        rw [← List.getLast?_eq_getElem?] at hy
        refine ⟨y, ?_, hsat⟩
        rw [← List.getLast?_eq_getElem?]
        exact Steps.last_forget time hx hy
      · exact hstands.elim
      · trivial

/-- The invariant holds after every run. -/
theorem TurnRun.inTurn (hd : Deterministic T) (ha : AwaitsEmissions T)
    {history : List (Call T × Reply T)} (h : TurnRun R history clock s) :
    InTurn R clock (interrupts history) s := by
  induction h with
  | new => exact .new R.transposer R.startTime R.rngSeed
  | @call history clock s reply s' c _ hturn hc ih =>
    have hnext := ih.call hd ha hturn hc
    rw [interrupts_append]
    simpa [interrupts] using hnext

/-- **No call in turn panics.** -/
theorem InTurn.call_avoids (hd : Deterministic T) (ha : AwaitsEmissions T)
    (h : InTurn R clock out s) {c : Call T} (hturn : TakesTurn R.startTime clock s c) :
    (s.call c).Avoids fun _ => True := by
  cases c with
  | poll time channel rounds =>
    obtain ⟨hle, halone⟩ := hturn
    refine Outcome.Avoids.bind ?_ fun _ _ => .ok _
    refine Outcome.Avoids.loop (P := fun u => InTurn R time out u ∧ u.Alone channel)
      (.of_forall (fun _ _ => trivial) _ _) ⟨h.mono hle, halone⟩ ?_ ?_
    · rintro r u u' ⟨hu, hualone⟩ - hr
      exact (List.append_nil out) ▸ hu.pollRound hd ha hualone hr
    · rintro r u ⟨hu, hualone⟩ -
      exact hu.pollRound_avoids hd ha hualone r
  | pollEvents time rounds =>
    have hquiet : Quiet R out s := ⟨h.events, h.linked, hturn.2⟩
    refine Outcome.Avoids.bind ?_ fun _ _ => .ok _
    exact fun site _ => hquiet.pollEvents_ne_panic hd ha rounds site
  | releaseChannel channel =>
    refine Outcome.Avoids.bind ?_ fun _ _ => .ok _
    refine Outcome.Avoids.bind ?_ fun _ _ => .ok _
    unfold ChannelStatuses.getChannelStatus
    split
    · exact .ok _
    · exact .ok _
    · rename_i hb
      exact (h.waits channel _ hb).elim
    · exact .ok _
  | advance time =>
    obtain ⟨hstart, hreached⟩ := hturn
    obtain ⟨q, steps, hq, -⟩ := h.steps.deleteBefore h.sound hstart hreached
    refine Outcome.Avoids.bind ?_ fun _ _ => .ok _
    unfold NoInputTransposerSource.advance
    rw [hq, Outcome.ok_bind]
    exact .ok _

end Build

end NoInputTransposerSource

open NoInputTransposerSource in
/-- **No call panics** of those that are made in turn: the polls and advances are made for times
    from the start on, the times of the polls never go back, none is made while another channel
    waits for a step (it may wait for an interpolation), and the source is not advanced past its
    steps. -/
theorem calls_in_turn_never_panic [BuildProfile] (hd : Deterministic T) (ha : AwaitsEmissions T)
    {R : Reference T} {history : List (Call T × Reply T)} {clock : Time T}
    {s : NoInputTransposerSource T} (h : TurnRun R history clock s) {c : Call T}
    (hturn : TakesTurn R.startTime clock s c) : ∀ site, s.call c ≠ .panic site :=
  fun site => (h.inTurn hd ha).call_avoids hd ha hturn site trivial

open NoInputTransposerSource in
/-- A channel gets an event, the source is advanced and the channel is released; then another one
    has its turn. -/
theorem calls_in_turn_never_panic_script :
    ∃ (_ : BuildProfile) (s : NoInputTransposerSource Script),
      (∀ site, s.call (.poll (12 : ℕ) 1 [⟨[], 30, []⟩]) ≠ .panic site) ∧
      s.steps.steps.length = 1 := by
  let _ : BuildProfile := debugBuild
  let R : Reference Script := ⟨⟨[.emit 5, .schedule 10], [.emit 7], [], 0⟩, (0 : ℕ), ()⟩
  let round : Round Script := ⟨[], 20, []⟩
  have hfirst : TakesTurn (0 : ℕ) (0 : ℕ) (.new R.transposer R.startTime R.rngSeed)
      (.poll (3 : ℕ) 0 [round, round]) := ⟨by decide, alone_of_unpinned rfl 0⟩
  have hpoll := (TurnRun.new (R := R)).call (.poll (3 : ℕ) 0 [round, round]) hfirst rfl
  have hadvance := hpoll.call (.advance (0 : ℕ))
    ⟨by decide, _, List.mem_cons_self, rfl, by decide⟩ rfl
  have hrelease := hadvance.call (.releaseChannel 0) trivial rfl
  exact ⟨inferInstance, _, calls_in_turn_never_panic Script.deterministic Script.awaitsEmissions
    hrelease (c := .poll (12 : ℕ) 1 [⟨[], 30, []⟩]) ⟨by decide, alone_of_unpinned rfl 1⟩, rfl⟩

end Cozal
