import Cozal.Source.Reachable

namespace Cozal

open Transposer

/-!
# When a call on the steps returns

The lemmas of `Cozal.Source.Calls` say what a call does that returns.  This file says which calls
return.  Each lookup and each saturation has an exact condition on the state before it.

* `Steps.Linked` — every stored step but the first one is a scheduled step that comes right after
  the one before it, so that it can always be saturated from that.
* `Steps.Searchable` — the times for which a last checkpoint before or at them is found.
* `Steps.ConsumesFront`, `Steps.MakesRoom` — the first step is given up for the second one; or
  the checkpoint to give up can be chosen.
* `Steps.saturate_returns_iff` — a step is saturated exactly when one of these holds.
-/

variable {T : Type} [Transposer T]

/-- The second step is scheduled, and is the one after the first step. -/
def Step.ComesBefore (x y : Step T) : Prop :=
  y.uuidPrev = some x.uuidSelf ∧ ∃ k, y.data = .scheduled k

namespace Steps

variable {s s' : Steps T}

/-! ### Each step comes after the one before it -/

/-- The stored steps follow one another. -/
def Linked (s : Steps T) : Prop :=
  ∀ i x y, s.steps[i]? = some x → s.steps[i + 1]? = some y → x.ComesBefore y

/-- Steps that are the same but for their status. -/
def SameStep (x y : Step T) : Prop :=
  x.data = y.data ∧ x.uuidSelf = y.uuidSelf ∧ x.uuidPrev = y.uuidPrev

/-- A single step follows nothing. -/
theorem Linked.new (transposer : T) (startTime : Time T) (rngSeed : Seed T) :
    (Steps.new transposer startTime rngSeed).Linked := by
  intro i x y _ hy
  have hi := (List.getElem?_eq_some_iff.mp hy).1
  simp only [Steps.new, List.length_singleton] at hi
  omega

/-- The steps stay linked when some are dropped at the front and others change their status. -/
theorem Linked.of_sameStep (h : s.Linked) (c : ℕ)
    (hsame : ∀ i x', s'.steps[i]? = some x' → ∃ x, s.steps[i + c]? = some x ∧ SameStep x x') :
    s'.Linked := by
  intro i x' y' hx' hy'
  obtain ⟨x, hx, -, hself, -⟩ := hsame i x' hx'
  obtain ⟨y, hy, hdata, -, hprev⟩ := hsame (i + 1) y' hy'
  obtain ⟨hlink, k, hk⟩ := h (i + c) x y hx (by rw [Nat.add_right_comm]; exact hy)
  exact ⟨by rw [← hprev, hlink, hself], k, by rw [← hdata, hk]⟩

/-- **The moves keep the steps linked.** -/
theorem Move.linked {pinnedTimes : List (Time T)} (h : Move pinnedTimes s s') (hs : s.Linked) :
    s'.Linked := by
  cases h with
  -- the new step carries on from the last one; all others are as they were
  | @push last w k hlast hw hk =>
    intro i x y hx hy
    rcases push_cases hy with hy | ⟨hi, rfl⟩
    · rcases push_cases hx with hx | ⟨hi, -⟩
      · exact hs i x y hx hy
      · have hlt := (List.getElem?_eq_some_iff.mp hy).1
        omega
    · rcases push_cases hx with hx | ⟨hi', -⟩
      · rw [List.getLast?_eq_getElem?, show s.steps.length - 1 = i by omega, hx,
          Option.some.injEq] at hlast
        subst hlast
        exact ⟨rfl, k, rfl⟩
      · omega
  -- every other move keeps what a step has been made with, at its place or at one less each
  -- step that is dropped
  | @saturate j prev w step f d _ _ hstep _ _ _ =>
    refine hs.of_sameStep 0 ?_
    intro i x' hx'
    rcases saturatedAt_cases hstep hx' with ⟨rfl, rfl⟩ | ⟨-, -, x, hx, rfl⟩ | ⟨-, -, hx⟩
    · exact ⟨step, hstep, rfl, rfl, rfl⟩
    · exact ⟨x, hx, rfl, rfl, rfl⟩
    · exact ⟨x', hx, rfl, rfl, rfl⟩
  | @consume front w step rest f b heq _ _ _ _ _ =>
    refine hs.of_sameStep 1 ?_
    intro i x' hx'
    rcases consumeFront_cases heq hx' with ⟨rfl, rfl⟩ | ⟨-, hx⟩
    · exact ⟨step, by rw [heq]; rfl, rfl, rfl, rfl⟩
    · exact ⟨x', hx, rfl, rfl, rfl⟩
  | @forget n x time _ _ _ =>
    refine hs.of_sameStep n ?_
    intro i x' hx'
    refine ⟨x', ?_, rfl, rfl, rfl⟩
    rw [Nat.add_comm]
    simpa only [Steps.forget, List.getElem?_drop] using hx'
  | @poll n step p fuel answers hstep hsat hp =>
    obtain ⟨f, a, ch, hst⟩ := Step.isSaturating_iff.mp hsat
    obtain ⟨hdata, hself, hprev, -⟩ := Step.poll_run hst hp
    refine hs.of_sameStep 0 ?_
    intro i x' hx'
    rcases setStep_cases hstep hx' with ⟨rfl, rfl⟩ | ⟨-, hx⟩
    · exact ⟨step, hstep, hdata.symm, hself.symm, hprev.symm⟩
    · exact ⟨x', hx, rfl, rfl, rfl⟩

/-- The steps follow one another, whatever is moved. -/
theorem MovesTo.linked (h : s.MovesTo s') (hs : s.Linked) : s'.Linked := by
  induction h with
  | refl => exact hs
  | tail _ hmove ih =>
    obtain ⟨pinnedTimes, hmove⟩ := hmove
    exact hmove.linked ih

/-- The steps follow one another after moves. -/
theorem linked_of_moves {pinnedTimes : List (Time T)}
    (h : Relation.ReflTransGen (Move pinnedTimes) s s') (hs : s.Linked) : s'.Linked :=
  (movesTo_of_moves h).linked hs

/-- The pushed step follows the last one. -/
theorem Pushed.linked (h : Pushed s s') (hs : s.Linked) : s'.Linked :=
  linked_of_moves (h.moves []) hs

/-- The push always returns. -/
theorem Sound.tryNextScheduled_returns (h : s.Sound) : ∃ s', s.tryNextScheduled = .ok s' := by
  obtain ⟨last, hlast, -⟩ := h.exists_last
  unfold tryNextScheduled
  simp only [Outcome.bind_eq_ok, getLast_ok]
  cases hst : last.status with
  | unsaturated | saturating f a ch =>
    exact ⟨s, last, hlast, by simp [Step.isSaturated, hst]⟩
  | saturated w =>
    cases hk : w.metadata.getNextScheduledTime with
    | none =>
      refine ⟨s, last, hlast, ?_⟩
      simp [Step.isSaturated, Step.nextScheduledUnsaturated, Step.nextUnsaturated, Except.map,
        hst, hk]
    | some k =>
      refine ⟨{ s with steps := s.steps ++ [s.nextStep last k] }, last, hlast, ?_⟩
      simp [Step.isSaturated, Step.nextScheduledUnsaturated, Step.nextUnsaturated, Except.map,
        hst, hk, nextStep]

/-- Pushing the next step forgets nothing. -/
theorem Pushed.deletedBefore (h : Pushed s s') : s'.deletedBefore = s.deletedBefore := by
  cases h <;> rfl

/-- What the push does is what it has been found to do. -/
theorem Pushed.tryNextScheduled (h : Pushed s s') (hs : s.Sound) :
    s.tryNextScheduled = .ok s' := by
  obtain ⟨s₂, hpush⟩ := hs.tryNextScheduled_returns
  rw [hpush, Outcome.ok.injEq]
  cases tryNextScheduled_cases hpush with
  | none hnone =>
    cases h with
    | none _ => rfl
    | push hlast hw hk =>
      rw [hnone _ _ hlast hw] at hk
      cases hk
  | push hlast hw hk =>
    cases h with
    | none hnone =>
      rw [hnone _ _ hlast hw] at hk
      cases hk
    | push hlast' hw' hk' =>
      rw [hlast, Option.some.injEq] at hlast'
      subst hlast'
      rw [hw, StepStatus.saturated.injEq] at hw'
      subst hw'
      rw [hk, Option.some.injEq] at hk'
      subst hk'
      rfl

/-- The first step is the earliest one. -/
theorem Sound.front_le (h : s.Sound) {front x : Step T} (hfront : s.steps.head? = some front)
    (hx : x ∈ s.steps) : front.getTime ≤ x.getTime := by
  rw [List.head?_eq_getElem?] at hfront
  obtain ⟨i, hi⟩ := List.getElem?_of_mem hx
  rcases Nat.eq_zero_or_pos i with rfl | hpos
  · rw [hfront, Option.some.injEq] at hi
    exact hi ▸ le_rfl
  · exact (h.sorted.lt hfront hi hpos).le

/-- There is a checkpoint up to a sequence number exactly when that has not been dropped. -/
theorem Sound.exists_checkpoint_le (h : s.Sound) {m : ℕ} :
    (∃ n, OrdSet.last (s.notUnsaturated.filter (· ≤ m)) = some n) ↔ s.numDeletedSteps ≤ m := by
  rw [OrdSet.exists_last]
  constructor
  · rintro ⟨n, hn⟩
    obtain ⟨hn, hle⟩ := Finset.mem_filter.mp hn
    obtain ⟨i, x, rfl, -, -⟩ := h.exists_of_checkpoint hn
    omega
  · intro hle
    obtain ⟨front, hfront, hu⟩ := h.front
    exact ⟨s.numDeletedSteps, Finset.mem_filter.mpr ⟨h.checkpoint hfront hu, hle⟩⟩

/-- Unsaturated steps are dropped until there is one that is not. -/
theorem popUnsaturated_returns {steps : List (Step T)} (h : ∃ x ∈ steps, x.isUnsaturated = false)
    (n : ℕ) : ∃ r, ensureFirstStepIsNotUnsaturated.popUnsaturated steps n = .ok r := by
  induction steps generalizing n with
  | nil =>
    obtain ⟨x, hx, -⟩ := h
    cases hx
  | cons y rest ih =>
    rw [ensureFirstStepIsNotUnsaturated.popUnsaturated]
    split
    · rename_i hyu
      refine ih ?_ (n + 1)
      obtain ⟨x, hx, hxu⟩ := h
      rcases List.mem_cons.mp hx with rfl | hx
      · rw [hyu] at hxu
        cases hxu
      · exact ⟨x, hx, hxu⟩
    · exact ⟨_, rfl⟩

/-- Popping off the front returns when some step is not unsaturated. -/
theorem ensureFirst_returns (h : ∃ x ∈ s.steps, x.isUnsaturated = false) :
    ∃ s', s.ensureFirstStepIsNotUnsaturated = .ok s' := by
  obtain ⟨r, hr⟩ := popUnsaturated_returns h s.numDeletedSteps
  exact ⟨_, by rw [ensureFirstStepIsNotUnsaturated, hr]; rfl⟩

section Build

variable [BuildProfile]

/-- **The steps are linked after every sequence of calls.** -/
theorem ReachableBy.linked {meets : Steps T → Call T → Prop} {transposer : T}
    {startTime : Time T} {rngSeed : Seed T} {calls : List (Call T)} {s : Steps T}
    (h : ReachableBy meets transposer startTime rngSeed calls s) : s.Linked := by
  induction h with
  | new => exact .new transposer startTime rngSeed
  | call hreach _ hdoes ih => exact linked_of_moves (hdoes.moves hreach.sound) ih

/-! ### Searching for a checkpoint -/

/-- A last checkpoint is found for the time: the first step is not later than it, or the
    subtraction `0 - 1` wraps to the greatest of all sequence numbers. -/
def Searchable (s : Steps T) (t : Time T) : Prop :=
  (∃ front, s.steps.head? = some front ∧ front.getTime ≤ t) ∨
    BuildProfile.debugAssertions = false ∧ s.numDeletedSteps = 0

/-- **The lookup of a checkpoint** returns exactly for the times it can search for. -/
theorem lookup_returns_iff (h : s.Sound) {t : Time T} :
    (∃ n, s.getNotUnsaturatedBeforeOrAtTime t = .ok n) ↔ s.Searchable t := by
  obtain ⟨front, hhead, hfront, -⟩ := h.exists_first
  have hfound : ∀ i, (∃ x, s.LatestStep t i x) →
      ((∃ n m, i + s.numDeletedSteps = m ∧
        OrdSet.last (s.notUnsaturated.filter (· ≤ m)) = some n) ↔ s.Searchable t) := by
    rintro i ⟨x, hx⟩
    have hle := (h.front_le hhead (List.mem_of_getElem? hx.get)).trans hx.le
    obtain ⟨n, hn⟩ := h.exists_checkpoint_le.mpr (Nat.le_add_left _ i)
    exact iff_of_true ⟨n, _, rfl, hn⟩ (Or.inl ⟨front, hhead, hle⟩)
  unfold getNotUnsaturatedBeforeOrAtTime sequenceNumberBeforeOrAt binarySearchByTime
  simp only [Outcome.bind_eq_ok, Outcome.unwrap_eq_ok]
  cases hb : binarySearchByKey Step.getTime s.steps t with
  | ok i =>
    simp only [Outcome.ok.injEq]
    exact hfound i (binarySearchByKey_latest h.sorted (Or.inl hb))
  | error i =>
    cases i with
    | succ i =>
      simp only [Outcome.ok.injEq]
      exact hfound i (binarySearchByKey_latest h.sorted (Or.inr hb))
    | zero =>
      -- every step is later than the time
      have hbefore := binarySearchByKey_none h.sorted hb front (List.mem_of_getElem? hfront)
      have hsearch : s.Searchable t ↔
          BuildProfile.debugAssertions = false ∧ s.numDeletedSteps = 0 := by
        refine or_iff_right ?_
        rintro ⟨front', hfront', hle⟩
        rw [hhead, Option.some.injEq] at hfront'
        exact absurd (hfront' ▸ hle) (not_le.mpr hbefore)
      rw [hsearch]
      cases BuildProfile.debugAssertions with
      | true => simp
      | false =>
        simp only [Bool.false_eq_true, if_false, Outcome.ok.injEq, true_and]
        simp only [exists_eq_left', h.exists_checkpoint_le]
        -- the wrapped number is below every checkpoint, unless no step has been dropped yet
        split <;> omega

/-- The lookups for the pinned times return exactly when every one can be searched for. -/
theorem pinnedSteps_returns_iff (h : s.Sound) {pinnedTimes : List (Time T)} :
    (∃ ns, s.pinnedSteps pinnedTimes = .ok ns) ↔ ∀ t ∈ pinnedTimes, s.Searchable t := by
  induction pinnedTimes with
  | nil => simp [pinnedSteps]
  | cons t ts ih =>
    rw [List.forall_mem_cons, ← ih, ← lookup_returns_iff h]
    simp only [pinnedSteps, Outcome.bind_eq_ok, Outcome.pure_eq, Outcome.ok.injEq]
    constructor
    · rintro ⟨_, n, hn, ns, hns, rfl⟩
      exact ⟨⟨n, hn⟩, ns, hns⟩
    · rintro ⟨⟨n, hn⟩, ns, hns⟩
      exact ⟨n :: ns, n, hn, ns, hns, rfl⟩

/-! ### Saturating a step -/

/-- The first step is given up for the step at `j + 1`: that is the second one, and the first one
    lies before `deletedBefore`. -/
def ConsumesFront (s : Steps T) (j : ℕ) : Prop :=
  j = 0 ∧ ∃ front b, s.steps.head? = some front ∧ s.deletedBefore = some b ∧ front.getTime < b

/-- The checkpoint to give up can be chosen: there is room for another one, or the steps of all
    pinned times are found. -/
def MakesRoom (s : Steps T) (pinnedTimes : List (Time T)) : Prop :=
  s.notUnsaturated.card < s.numberOfCheckpoints ∨ ∀ t ∈ pinnedTimes, s.Searchable t

/-- The choice of the checkpoint to give up returns exactly when the first step is consumed or room
    can be made. -/
theorem sequenceNumberToDelete_returns_iff (h : s.Sound) {pinnedTimes : List (Time T)} {j : ℕ} :
    (∃ r, s.sequenceNumberToDelete pinnedTimes (s.numDeletedSteps + (j + 1)) = .ok r) ↔
      s.ConsumesFront j ∨ s.MakesRoom pinnedTimes := by
  obtain ⟨front, hhead, -, -⟩ := h.exists_first
  obtain ⟨last, hlast, -⟩ := h.last_checkpoint
  have hcond : ((∃ b ∈ s.deletedBefore, front.getTime < b) ∧
      s.numDeletedSteps + 1 = s.numDeletedSteps + (j + 1)) ↔ s.ConsumesFront j := by
    constructor
    · rintro ⟨⟨b, hb, hlt⟩, hj⟩
      exact ⟨by omega, front, b, hhead, hb, hlt⟩
    · rintro ⟨rfl, front', b, hfront', hb, hlt⟩
      rw [hhead, Option.some.injEq] at hfront'
      exact ⟨⟨b, hb, hfront' ▸ hlt⟩, rfl⟩
  simp only [sequenceNumberToDelete, h.first_checkpoint, hhead, hlast, Outcome.unwrap_some,
    Outcome.ok_bind]
  -- the choice fails nowhere but at the lookup of the pinned times, the last of its three branches
  by_cases hconsumes : s.ConsumesFront j
  · rw [if_pos (hcond.mpr hconsumes)]
    exact iff_of_true ⟨_, rfl⟩ (Or.inl hconsumes)
  · rw [if_neg (fun hc => hconsumes (hcond.mp hc)), or_iff_right hconsumes]
    by_cases hroom : s.numberOfCheckpoints > s.notUnsaturated.card
    · rw [if_pos hroom]
      exact iff_of_true ⟨_, rfl⟩ (Or.inl hroom)
    · rw [if_neg hroom, MakesRoom, or_iff_right hroom, ← pinnedSteps_returns_iff h]
      simp only [Outcome.bind_eq_ok, Outcome.pure_eq, Outcome.ok.injEq]
      constructor
      · rintro ⟨r, ns, hns, -⟩
        exact ⟨ns, hns⟩
      · rintro ⟨ns, hns⟩
        exact ⟨_, ns, hns, rfl⟩

/-- A step can be saturated from the one that comes before it. -/
theorem saturateAdjacent_returns {j : ℕ} {prev step : Step T} {w : WrappedTransposer T}
    (hprev : s.steps[j]? = some prev) (hw : prev.status = .saturated w)
    (hstep : s.steps[j + 1]? = some step) (hlink : prev.ComesBefore step) (take : Bool) :
    ∃ s', s.saturateAdjacent (j + 1) take = .ok s' := by
  obtain ⟨huuid, k, hk⟩ := hlink
  have hsub : usizeSub (j + 1 + s.numDeletedSteps) 1 = .ok (j + s.numDeletedSteps) := by
    rw [Nat.add_right_comm]
    exact usizeSub_succ _
  cases take with
  | true =>
    simp [saturateAdjacent, getStepAndPrev, hprev, hstep, Step.saturateTake, huuid, hw,
      Step.saturate, hk, Step.saturationFuture, hsub]
  | false =>
    simp [saturateAdjacent, getStepAndPrev, hprev, hstep, Step.saturateClone, huuid, hw,
      Step.saturate, hk, Step.saturationFuture]

/-- The step that has been saturated has started. -/
theorem started_of_saturateAdjacent {j : ℕ} {prev step : Step T} {w : WrappedTransposer T}
    {take : Bool} (hprev : s.steps[j]? = some prev) (hw : prev.status = .saturated w)
    (hstep : s.steps[j + 1]? = some step) (hs' : s.saturateAdjacent (j + 1) take = .ok s') :
    ∃ x ∈ s'.steps, x.isUnsaturated = false := by
  have hj := (List.getElem?_eq_some_iff.mp hstep).1
  cases take with
  | true =>
    obtain ⟨f, -, rfl⟩ := saturateAdjacent_take hprev hw hstep hs'
    exact ⟨step.started f, List.mem_set (by rw [List.length_set]; exact hj) _, rfl⟩
  | false =>
    obtain ⟨f, -, rfl⟩ := saturateAdjacent_clone hprev hw hstep hs'
    exact ⟨step.started f, List.mem_set hj _, rfl⟩

/-- The step to start and the one before it are still there when a checkpoint has been given up
    for it. -/
theorem evict_returns {j d : ℕ} {x step : Step T} (hstep : s.steps[j + 1]? = some step)
    (hunsat : step.isUnsaturated = true) (hx : s.steps[d]? = some x)
    (hxu : x.isUnsaturated = false) :
    ∃ s₁ take, s.evict (some (s.numDeletedSteps + d)) (s.numDeletedSteps + (j + 1))
        = .ok (s₁, take) ∧ s₁.numDeletedSteps = s.numDeletedSteps ∧
      s₁.steps[j]? = s.steps[j]? ∧ s₁.steps[j + 1]? = s.steps[j + 1]? := by
  have hprevious : usizeSub (s.numDeletedSteps + (j + 1)) 1 = .ok (s.numDeletedSteps + j) :=
    usizeSub_succ _
  have hne : d ≠ j + 1 := (index_ne hstep hx hunsat hxu).symm
  by_cases hdj : d = j
  · subst hdj
    exact ⟨s, true, by simp [evict, hprevious], rfl, rfl, rfl⟩
  · refine ⟨{ s.setStep d x.desaturate with
      notUnsaturated := s.notUnsaturated.erase (d + s.numDeletedSteps) }, false, ?_, rfl,
      getElem?_setStep_of_ne (Ne.symm hdj) _, getElem?_setStep_of_ne (Ne.symm hne) _⟩
    simp [evict, hprevious, hdj, usizeSub_add_left, desaturate, hx]

/-- **A step is saturated** exactly when the first step is given up for it, or a checkpoint to
    give up can be chosen. -/
theorem saturate_returns_iff (h : s.Sound) (hlinked : s.Linked) {pinnedTimes : List (Time T)}
    {j : ℕ} {prev step : Step T} (hprev : s.steps[j]? = some prev)
    (hsat : prev.isSaturated = true) (hstep : s.steps[j + 1]? = some step)
    (hunsat : step.isUnsaturated = true) :
    (∃ s', s.saturate (s.numDeletedSteps + (j + 1)) pinnedTimes = .ok s') ↔
      s.ConsumesFront j ∨ s.MakesRoom pinnedTimes := by
  rw [← sequenceNumberToDelete_returns_iff h]
  simp only [saturate, Outcome.bind_eq_ok]
  constructor
  · rintro ⟨s', r, hr, -⟩
    exact ⟨r, hr⟩
  · rintro ⟨r, hr⟩
    obtain ⟨w, hw⟩ := Step.isSaturated_iff.mp hsat
    have hevict : ∃ s₁ take, s.evict r (s.numDeletedSteps + (j + 1)) = .ok (s₁, take) ∧
        s₁.numDeletedSteps = s.numDeletedSteps ∧ s₁.steps[j]? = s.steps[j]? ∧
        s₁.steps[j + 1]? = s.steps[j + 1]? := by
      rcases sequenceNumberToDelete_cases h hstep hr with ⟨rfl, rfl, -⟩ | ⟨-, rfl | ⟨d, rfl, hd⟩⟩
      · exact evict_returns hstep hunsat hprev (isUnsaturated_of_saturated hw)
      · exact ⟨s, false, rfl, rfl, rfl, rfl⟩
      · obtain ⟨x, hx, hxu⟩ := hd.checkpoint
        exact evict_returns hstep hunsat hx hxu
    obtain ⟨s₁, take, hevict, hnum, hj, hj1⟩ := hevict
    -- giving a checkpoint up touches neither of the two steps, so the rest goes through
    obtain ⟨s₂, hs₂⟩ := saturateAdjacent_returns (hj.trans hprev) hw (hj1.trans hstep)
      (hlinked j prev step hprev hstep) take
    obtain ⟨s', hs'⟩ := ensureFirst_returns
      (started_of_saturateAdjacent (hj.trans hprev) hw (hj1.trans hstep) hs₂)
    exact ⟨s', r, hr, (s₁, take), hevict, j + 1, by rw [hnum]; exact usizeSub_add_left _ _, s₂,
      hs₂, hs'⟩

end Build

end Steps

end Cozal
