import Cozal.Source.Evictions
import Cozal.Source.WalkBack

namespace Cozal

open Transposer

/-!
# A step and the one before it

The steps lie in a ring buffer, which hands them out as two slices.  A step is saturated through
references to it and to the step before it, and the seam may run between the two.

* `getStepAndPrevMut` — the two references, from the slices; `getStepAndPrevMut_eq`, they are what
  `Steps.getStepAndPrev` says, wherever the seam is.
* `Steps.Call.Saturates`, `Steps.AsksNeighbours` — the calls of `saturate`, and the call of
  `get_step_and_prev_mut` that each of them makes.
* `Steps.Call.Does.saturates` — a lookup that returns has made one of these calls of `saturate`,
  or none.
* `step_and_prev` — the index asked for is that of a step with one before it.
-/

/-! ### The two slices of a ring buffer -/

section Slices

variable [BuildProfile] {α : Type}

omit [BuildProfile] in
/-- `split_at_mut` of a slice. -/
def splitAtMut (slice : List α) (mid : ℕ) : Outcome (List α × List α) :=
  if mid ≤ slice.length then .ok (slice.take mid, slice.drop mid) else .panic .dequeIndex

/-- The slices that end before and begin at a position of the deque. -/
def slicesAround (front back : List α) (i : ℕ) : Outcome (List α × List α) :=
  match compare i front.length with
  | .lt => splitAtMut front i
  | .eq => return (front, back)
  | .gt => do splitAtMut back (← usizeSub i front.length)

/-- The elements at the positions `i - 1` and `i` of a deque with these two slices. -/
def getStepAndPrevMut (front back : List α) (i : ℕ) : Outcome (α × α) := do
  let (before, after) ← slicesAround front back i
  let previous ← Outcome.unwrap .dequeIndex before.getLast?
  let step ← Outcome.unwrap .dequeIndex after.head?
  return (previous, step)

omit [BuildProfile] in
/-- A slice can be split anywhere up to its end. -/
theorem splitAtMut_of_le {slice : List α} {mid : ℕ} (h : mid ≤ slice.length) :
    splitAtMut slice mid = .ok (slice.take mid, slice.drop mid) :=
  if_pos h

omit [BuildProfile] in
/-- The last element before a position behind the first one. -/
theorem getLast?_take_succ {slice : List α} {i : ℕ} (h : i < slice.length) :
    (slice.take (i + 1)).getLast? = slice[i]? := by
  rw [List.getLast?_eq_getElem?, List.length_take_of_le h, Nat.succ_sub_one,
    List.getElem?_take_of_lt (Nat.lt_succ_self i)]

/-- Between the first position and the last one, the slices end at the element before and begin
    with the one at the position. -/
theorem slicesAround_succ {front back : List α} {i : ℕ} (hi : i + 1 < (front ++ back).length) :
    ∃ before after, slicesAround front back (i + 1) = .ok (before, after) ∧
      before.getLast? = (front ++ back)[i]? ∧ after.head? = (front ++ back)[i + 1]? := by
  rw [List.length_append] at hi
  unfold slicesAround
  rcases lt_trichotomy (i + 1) front.length with hlt | heq | hgt
  · -- both elements are in the front slice
    refine ⟨front.take (i + 1), front.drop (i + 1), ?_, ?_, ?_⟩
    · rw [compare_lt_iff_lt.mpr hlt]
      exact splitAtMut_of_le hlt.le
    · rw [getLast?_take_succ (by omega), List.getElem?_append_left (by omega)]
    · rw [List.head?_drop, List.getElem?_append_left hlt]
  · -- the seam runs between them
    refine ⟨front, back, ?_, ?_, ?_⟩
    · rw [compare_eq_iff_eq.mpr heq]
      rfl
    · rw [List.getLast?_eq_getElem?, ← heq, Nat.add_sub_cancel,
        List.getElem?_append_left (by omega)]
    · rw [List.head?_eq_getElem?, List.getElem?_append_right heq.ge, heq, Nat.sub_self]
  · -- both are in the back slice
    obtain ⟨k, rfl⟩ : ∃ k, i = front.length + k := ⟨i - front.length, by omega⟩
    refine ⟨back.take (k + 1), back.drop (k + 1), ?_, ?_, ?_⟩
    · rw [compare_gt_iff_gt.mpr hgt, Nat.add_assoc]
      show (usizeSub (front.length + (k + 1)) front.length >>= splitAtMut back) = _
      rw [usizeSub_add_left, Outcome.ok_bind]
      exact splitAtMut_of_le (by omega)
    · rw [getLast?_take_succ (by omega), List.getElem?_append_right (Nat.le_add_right _ k),
        Nat.add_sub_cancel_left]
    · rw [List.head?_drop, List.getElem?_append_right (by omega), Nat.add_assoc,
        Nat.add_sub_cancel_left]

/-- **`get_step_and_prev_mut`** returns the elements at the positions before and at the index. -/
theorem getStepAndPrevMut_succ {front back : List α} {i : ℕ} {previous step : α}
    (hprevious : (front ++ back)[i]? = some previous)
    (hstep : (front ++ back)[i + 1]? = some step) :
    getStepAndPrevMut front back (i + 1) = .ok (previous, step) := by
  have hi := (List.getElem?_eq_some_iff.mp hstep).1
  obtain ⟨before, after, hslices, hbefore, hafter⟩ := slicesAround_succ hi
  simp only [getStepAndPrevMut, hslices, hbefore, hprevious, hafter, hstep, Outcome.ok_bind,
    Outcome.unwrap_some, Outcome.pure_eq]

end Slices

/-! ### Where the two are asked for -/

variable {T : Type} [Transposer T]

namespace Steps

variable {s s₁ s' u : Steps T} {n i : ℕ} {pinnedTimes : List (Time T)}

section Build

variable [BuildProfile]

/-- Within the deque, the model of the deque as one list says the same as the slices. -/
theorem getStepAndPrev_eq {front back : List (Step T)} (hslices : front ++ back = s.steps)
    (hpos : 1 ≤ i) (hi : i < s.steps.length) :
    s.getStepAndPrev i = getStepAndPrevMut front back i := by
  obtain ⟨j, rfl⟩ : ∃ j, i = j + 1 := ⟨i - 1, by omega⟩
  have hprevious := List.getElem?_eq_getElem (show j < s.steps.length by omega)
  have hstep := List.getElem?_eq_getElem hi
  rw [getStepAndPrevMut_succ (by rw [hslices]; exact hprevious) (by rw [hslices]; exact hstep)]
  simp only [getStepAndPrev, hprevious, hstep, Outcome.unwrap_some, Outcome.ok_bind,
    Outcome.pure_eq]

/-- `saturate` of the step of sequence number `n` gets to its call of `get_step_and_prev_mut`,
    with the steps `u` and the index `i`. -/
inductive AsksNeighbours (s : Steps T) (pinnedTimes : List (Time T)) (n : ℕ) :
    Steps T → ℕ → Prop where
  | saturate {toDesaturate u take i} :
      s.sequenceNumberToDelete pinnedTimes n = .ok toDesaturate →
      s.evict toDesaturate n = .ok (u, take) → usizeSub n u.numDeletedSteps = .ok i →
      AsksNeighbours s pinnedTimes n u i

/-- The call gets to its call of `saturate`, with the steps `s₁` and the sequence number `n`:
    the loop of `get_before_or_at` does once the step before the one it looks for is saturated,
    and `get_before_or_at_events` when the last step is unsaturated. -/
inductive Call.Saturates (s : Steps T) : Call T → Steps T → ℕ → Prop where
  | getBeforeOrAt {s₁ j previous step} (fuel : ℕ) (time : Time T) (pinnedTimes : List (Time T)) :
      s.debugAssertions = .ok () → s.tryNextScheduled = .ok s₁ →
      s₁.searchBeforeOrAt time = .ok (j + 1) → s₁.steps[j + 1]? = some step →
      step.isSaturated = false → step.isSaturating = false → s₁.steps[j]? = some previous →
      previous.isSaturated = true →
      Call.Saturates s (.getBeforeOrAt fuel time pinnedTimes) s₁ (j + 1 + s₁.numDeletedSteps)
  | getBeforeOrAtEvents {s₁ n last} (time : Time T) (pinnedTimes : List (Time T)) :
      s.debugAssertions = .ok () → s.tryNextScheduled = .ok s₁ → s₁.maxSequenceNumber = .ok n →
      s₁.getLast = .ok last → ¬ (time < last.getTime ∨ last.canProduceEvents = false) →
      last.isUnsaturated = true →
      Call.Saturates s (.getBeforeOrAtEvents time pinnedTimes) s₁ n

/-- The step of sequence number `n` is stored at `j + 1` and unsaturated, and the one before it is
    saturated. -/
structure Saturable (s : Steps T) (n j : ℕ) (prev x : Step T) : Prop where
  number : n = s.numDeletedSteps + (j + 1)
  previous : s.steps[j]? = some prev
  previous_saturated : prev.isSaturated = true
  step : s.steps[j + 1]? = some x
  step_unsaturated : x.isUnsaturated = true

/-- **A step is only saturated from a saturated one.** -/
theorem Call.Saturates.saturable {c : Call T} (h : c.Saturates s s₁ n) (hs : s.Sound) :
    s₁.Sound ∧ ∃ j prev x, s₁.Saturable n j prev x := by
  cases h with
  | @getBeforeOrAt _ j previous step _ _ _ _ hpush _ hstep hnsat hnsat' hprev hsat =>
    refine ⟨(tryNextScheduled_cases hpush).sound hs, j, previous, step, ?_⟩
    exact ⟨Nat.add_comm _ _, hprev, hsat, hstep, isUnsaturated_of_neither hnsat hnsat'⟩
  | @getBeforeOrAtEvents _ _ last time pinnedTimes _ hpush hn hlast _ hunsat =>
    have h₁ := (tryNextScheduled_cases hpush).sound hs
    have hpos := h₁.length_pos
    rw [getLast_ok, List.getLast?_eq_getElem?] at hlast
    have hend := h₁.last _ last hlast (by omega)
    -- the invariant has a saturated step before an unsaturated last one
    simp only [LastStep, Step.isUnsaturated_iff.mp hunsat] at hend
    obtain ⟨-, j, prev, w, k, hj, hprev, hw, -, -⟩ := hend
    rw [maxSequenceNumber, usizeSub_of_le (by omega), Outcome.ok.injEq] at hn
    refine ⟨h₁, j, prev, last, by omega, hprev, Step.isSaturated_iff.mpr ⟨w, hw⟩, ?_, hunsat⟩
    rw [← hlast, show s₁.steps.length - 1 = j + 1 by omega]

/-- The steps follow one another where `saturate` is called. -/
theorem Call.Saturates.linked {c : Call T} (h : c.Saturates s s₁ n) (hs : s.Linked) :
    s₁.Linked := by
  cases h with
  | getBeforeOrAt _ _ _ _ hpush _ _ _ _ _ _ => exact (tryNextScheduled_cases hpush).linked hs
  | getBeforeOrAtEvents _ _ _ hpush _ _ _ _ => exact (tryNextScheduled_cases hpush).linked hs

/-- Giving up a checkpoint drops no step. -/
theorem evict_keeps {toDesaturate : Option ℕ} {take : Bool}
    (h : s.evict toDesaturate n = .ok (u, take)) :
    u.numDeletedSteps = s.numDeletedSteps ∧ u.steps.length = s.steps.length := by
  cases toDesaturate with
  | none =>
    obtain ⟨rfl, -⟩ := Prod.mk.inj (Outcome.ok.inj h)
    exact ⟨rfl, rfl⟩
  | some d =>
    simp only [evict, Outcome.bind_eq_ok] at h
    obtain ⟨previous, -, h⟩ := h
    split at h
    · obtain ⟨rfl, -⟩ := Prod.mk.inj (Outcome.ok.inj h)
      exact ⟨rfl, rfl⟩
    · simp only [desaturate, Outcome.bind_eq_ok, Outcome.pure_eq, Outcome.ok.injEq,
        Prod.mk.injEq] at h
      obtain ⟨i, -, -, ⟨x, -, rfl⟩, rfl, -⟩ := h
      exact ⟨rfl, List.length_set⟩

/-- **The index asked for** is that of a step with one before it. -/
theorem Saturable.neighbours {j : ℕ} {prev x : Step T} (h : s.Saturable n j prev x)
    (hasks : s.AsksNeighbours pinnedTimes n u i) : 1 ≤ i ∧ i < u.steps.length := by
  obtain ⟨-, hevict, hsub⟩ := hasks
  obtain ⟨hnum, hlength⟩ := evict_keeps hevict
  have hj := (List.getElem?_eq_some_iff.mp h.step).1
  rw [h.number, hnum, usizeSub_add_left, Outcome.ok.injEq] at hsub
  omega

/-! ### No call asks in vain -/

/-- The choice of the checkpoint to give up does not index the deque. -/
theorem Sound.sequenceNumberToDelete_avoids_dequeIndex (h : s.Sound) :
    (s.sequenceNumberToDelete pinnedTimes n).Avoids (· = .dequeIndex) := by
  obtain ⟨front, hhead, -, -⟩ := h.exists_first
  have hlookup : ∀ t, (s.getNotUnsaturatedBeforeOrAtTime t).Avoids (· = .dequeIndex) := by
    intro t
    refine Outcome.Avoids.bind ?_ fun _ _ => .unwrap Panic.noConfusion _
    unfold sequenceNumberBeforeOrAt
    split
    · exact .ok _
    · exact .ok _
    · split
      · exact .panic Panic.noConfusion
      · exact .ok _
  have hpinned : (s.pinnedSteps pinnedTimes).Avoids (· = .dequeIndex) := by
    induction pinnedTimes with
    | nil => exact .ok _
    | cons t ts ih => exact (hlookup t).bind fun _ _ => ih.bind fun _ _ => .ok _
  unfold sequenceNumberToDelete
  rw [hhead, Outcome.unwrap_some]
  refine (Outcome.Avoids.unwrap Panic.noConfusion _).bind fun first _ => ?_
  rw [Outcome.ok_bind]
  split
  · exact .ok _
  · split
    · exact .ok _
    · refine (Outcome.Avoids.unwrap Panic.noConfusion _).bind fun _ _ => ?_
      exact hpinned.bind fun _ _ => .ok _

/-- Once a checkpoint has been chosen, the step is saturated; so no index of the deque fails. -/
theorem Saturable.avoids_dequeIndex {j : ℕ} {prev x : Step T} (h : s.Saturable n j prev x)
    (hs : s.Sound) (hlinked : s.Linked) :
    (s.saturate n pinnedTimes).Avoids (· = .dequeIndex) := by
  obtain ⟨rfl, hprev, hsat, hx, hunsat⟩ := h
  by_cases hchosen : ∃ r, s.sequenceNumberToDelete pinnedTimes (s.numDeletedSteps + (j + 1)) = .ok r
  · obtain ⟨s', hs'⟩ := (saturate_returns_iff hs hlinked hprev hsat hx hunsat).mpr
      ((sequenceNumberToDelete_returns_iff hs).mp hchosen)
    rw [hs']
    exact .ok s'
  · refine hs.sequenceNumberToDelete_avoids_dequeIndex.bind ?_
    intro r hr
    exact absurd ⟨r, hr⟩ hchosen

/-- `get_before_or_at` saturates the step it has to start. -/
theorem ToStart.saturates_getBeforeOrAt {t : Time T} {j : ℕ} (h : s₁.ToStart t j) (hs : s.Sound)
    (hpush : s.tryNextScheduled = .ok s₁) (fuel : ℕ) (pinnedTimes : List (Time T)) :
    Call.Saturates s (.getBeforeOrAt fuel t pinnedTimes) s₁ (j + 1 + s₁.numDeletedSteps) := by
  obtain ⟨prev, x, hprev, hsat, hx, hunsat⟩ := h
  have hsearch := ((tryNextScheduled_cases hpush).sound hs).searchBeforeOrAt_eq hx
  have hst := Step.isUnsaturated_iff.mp hunsat
  exact .getBeforeOrAt fuel t pinnedTimes hs.debugAssertions_returns hpush hsearch hx.get
    (by simp [Step.isSaturated, hst]) (by simp [Step.isSaturating, hst]) hprev hsat

/-- And so does `get_before_or_at_events`, if that is the last one. -/
theorem ToStart.saturates_getBeforeOrAtEvents {t : Time T} {j : ℕ} (h : s₁.ToStart t j)
    (hs : s.Sound) (hpush : s.tryNextScheduled = .ok s₁) (hj : j + 2 = s₁.steps.length)
    (pinnedTimes : List (Time T)) :
    Call.Saturates s (.getBeforeOrAtEvents t pinnedTimes) s₁ (s₁.numDeletedSteps + (j + 1)) := by
  obtain ⟨prev, x, -, -, hx, hunsat⟩ := h
  have hend := ((tryNextScheduled_cases hpush).sound hs).last _ x hx.get (by omega)
  simp only [LastStep, Step.isUnsaturated_iff.mp hunsat] at hend
  refine .getBeforeOrAtEvents t pinnedTimes hs.debugAssertions_returns hpush ?_ ?_ ?_ hunsat
  · rw [maxSequenceNumber, usizeSub_of_le (by omega)]
    congr 1
    omega
  · rw [getLast_ok, List.getLast?_eq_getElem?, ← hx.get]
    congr 1
    omega
  · rw [not_or, not_lt, Bool.not_eq_false]
    exact ⟨hx.le, hend.1⟩

/-- **A lookup that returns** has pushed the next step and made at most one call of `saturate`. -/
theorem Call.Does.saturates {c : Call T} (h : c.Does s s') (hs : s.Sound) :
    (∃ time, c = .deleteBefore time) ∨ (∃ i fuel answers, c = .poll i fuel answers) ∨
      s.tryNextScheduled = .ok s' ∨
      ∃ s₁ n, c.Saturates s s₁ n ∧ s₁.saturate n c.pinnedTimes = .ok s' := by
  cases h with
  | deleteBefore time _ => exact Or.inl ⟨time, rfl⟩
  | poll i fuel answers _ _ _ => exact Or.inr (Or.inl ⟨i, fuel, answers, rfl⟩)
  | getBeforeOrAt fuel time pinnedTimes hr =>
    obtain ⟨s₁, hpush, ⟨-, rfl⟩ | ⟨j, hj, hs'⟩⟩ := getBeforeOrAt_toStart hs hr
    · exact Or.inr (Or.inr (Or.inl hpush))
    · rw [Nat.add_comm] at hs'
      exact Or.inr (Or.inr (Or.inr
        ⟨s₁, _, hj.saturates_getBeforeOrAt hs hpush fuel pinnedTimes, hs'⟩))
  | getBeforeOrAtEvents time pinnedTimes hr =>
    obtain ⟨s₁, hpush, ⟨-, rfl⟩ | ⟨j, hlast, hj, hs'⟩⟩ := getBeforeOrAtEvents_toStart hs hr
    · exact Or.inr (Or.inr (Or.inl hpush))
    · exact Or.inr (Or.inr (Or.inr
        ⟨s₁, _, hj.saturates_getBeforeOrAtEvents hs hpush hlast pinnedTimes, hs'⟩))

end Build

end Steps

/-- **A step and the one before it.**  For every deque and every seam of its ring buffer,
    `get_step_and_prev_mut` returns the elements at the positions `i - 1` and `i` whenever there
    are two.  After any sequence of calls there are two whenever a lookup gets to it through
    `saturate`, which therefore panics at no index of the deque. -/
theorem step_and_prev [BuildProfile] :
    (∀ (α : Type) (front back : List α) (i : ℕ), 1 ≤ i → i < (front ++ back).length →
      ∃ previous step, getStepAndPrevMut front back i = .ok (previous, step) ∧
        (front ++ back)[i - 1]? = some previous ∧ (front ++ back)[i]? = some step) ∧
    ∀ (transposer : T) (startTime : Time T) (rngSeed : Seed T) (calls : List (Steps.Call T))
      (s : Steps T), Steps.Reachable transposer startTime rngSeed calls s →
      ∀ c s₁ n, Steps.Call.Saturates s c s₁ n →
        (∀ u i, s₁.AsksNeighbours c.pinnedTimes n u i → (1 ≤ i ∧ i < u.steps.length) ∧
          ∀ front back, front ++ back = u.steps →
            u.getStepAndPrev i = getStepAndPrevMut front back i) ∧
        (s₁.saturate n c.pinnedTimes).Avoids (· = .dequeIndex) := by
  constructor
  · intro α front back i hpos hi
    obtain ⟨j, rfl⟩ : ∃ j, i = j + 1 := ⟨i - 1, by omega⟩
    have hprevious := List.getElem?_eq_getElem (show j < (front ++ back).length by omega)
    have hstep := List.getElem?_eq_getElem hi
    exact ⟨_, _, getStepAndPrevMut_succ hprevious hstep, hprevious, hstep⟩
  · intro transposer startTime rngSeed calls s hreach c s₁ n hc
    obtain ⟨h₁, j, prev, x, hsaturable⟩ := hc.saturable hreach.sound
    constructor
    · intro u i hasks
      have hneighbours := hsaturable.neighbours hasks
      exact ⟨hneighbours, fun front back hslices =>
        Steps.getStepAndPrev_eq hslices hneighbours.1 hneighbours.2⟩
    · exact hsaturable.avoids_dequeIndex h₁ (hc.linked hreach.linked)

/-- The step at 3 is saturated from the step at 0, which are at the indices 1 and 0. -/
theorem step_and_prev_script :
    ∃ (_ : BuildProfile) (s : Steps Script) (c : Steps.Call Script) (s₁ u : Steps Script) (n : ℕ),
      Steps.Call.Saturates s c s₁ n ∧ s₁.AsksNeighbours c.pinnedTimes n u 1 ∧
        1 < u.steps.length := by
  let _ : BuildProfile := debugBuild
  have hnew := @Steps.ReachableBy.new Script _ _ (fun _ _ => True) ⟨[.schedule 3], [], [], 0⟩
    (0 : ℕ) ()
  have hpoll := hnew.call trivial (.poll 0 20 [] rfl rfl rfl)
  have hready := hpoll.call trivial (.getBeforeOrAtEvents (2 : ℕ) [] rfl)
  obtain ⟨calls, s, hreach, hsaturates, hasks⟩ : ∃ calls s,
      Steps.Reachable (⟨[.schedule 3], [], [], 0⟩ : Script) (0 : ℕ) () calls s ∧
      Steps.Call.Saturates s (.getBeforeOrAt 5 (4 : ℕ) []) s (0 + 1 + s.numDeletedSteps) ∧
      s.AsksNeighbours [] (0 + 1 + s.numDeletedSteps) s 1 :=
    ⟨_, _, hready, @Steps.Call.Saturates.getBeforeOrAt Script _ _ _ _ 0 _ _ 5 (4 : ℕ) []
      rfl rfl rfl rfl rfl rfl rfl rfl, @Steps.AsksNeighbours.saturate Script _ _ _ _ _ none _ _ _
      rfl rfl rfl⟩
  have hneighbours := (step_and_prev.2 _ _ _ _ _ hreach _ _ _ hsaturates).1 _ _ hasks
  exact ⟨inferInstance, s, _, s, s, _, hsaturates, hasks, hneighbours.1.2⟩

end Cozal
