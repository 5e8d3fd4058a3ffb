import Cozal.Source.Moves

namespace Cozal

open Transposer

/-!
# Calls on the steps, as moves

Every method of `Steps` that changes it is a sequence of the moves of `Cozal.Source.Moves`.  For
each method one lemma says which, and what the method returns; later files use these and never
unfold a method.

* `Steps.tryNextScheduled_cases`, `Steps.searchBeforeOrAt_cases` — the next step is pushed, and
  the last step before or at a time is found.
* `Steps.latestCheckpoint_of_ok` — the last checkpoint before or at a time.
* `Steps.saturate_cases` — a step is saturated at the cost of a checkpoint, or of the first step.
* `Steps.getBeforeOrAt_cases`, `Steps.getBeforeOrAtEvents_cases`, `Steps.deleteBefore_cases` —
  the three calls.
-/

variable {T : Type} [Transposer T]

namespace Steps

variable {s s' : Steps T}

/-- The last step is there exactly when there is a step. -/
theorem getLast_ok {last : Step T} : s.getLast = .ok last ↔ s.steps.getLast? = some last :=
  Outcome.unwrap_eq_ok

/-- The next step is pushed exactly when the last one is saturated and has a next one. -/
inductive Pushed (s : Steps T) : Steps T → Prop where
  | none : (∀ last w, s.steps.getLast? = some last → last.status = .saturated w →
      w.metadata.getNextScheduledTime = none) → Pushed s s
  | push {last w k} : s.steps.getLast? = some last → last.status = .saturated w →
      w.metadata.getNextScheduledTime = some k →
      Pushed s { s with steps := s.steps ++ [s.nextStep last k] }

/-- A call that returns has pushed the next step, if there is one. -/
theorem tryNextScheduled_cases (h : s.tryNextScheduled = .ok s') : Pushed s s' := by
  simp only [tryNextScheduled, Outcome.bind_eq_ok, getLast_ok] at h
  obtain ⟨last, hlast, h⟩ := h
  cases hst : last.status with
  | unsaturated | saturating f a ch =>
    -- nothing is pushed behind a step that is not saturated
    simp only [Step.isSaturated, hst, Bool.false_eq_true, if_false, Outcome.pure_eq,
      Outcome.ok.injEq] at h
    subst h
    refine .none ?_
    intro last' w hlast' hw
    rw [hlast, Option.some.injEq] at hlast'
    rw [← hlast', hst] at hw
    cases hw
  | saturated w =>
    simp only [Step.isSaturated, hst, if_true, Outcome.bind_eq_ok, Outcome.expect_eq_ok] at h
    obtain ⟨new, hnew, h⟩ := h
    simp only [Step.nextScheduledUnsaturated, Step.nextUnsaturated, hst] at hnew
    cases hk : w.metadata.getNextScheduledTime with
    | none =>
      -- nor when it has nothing scheduled
      simp only [hk, Except.map, Except.ok.injEq] at hnew
      subst hnew
      simp only [Outcome.pure_eq, Outcome.ok.injEq] at h
      subst h
      refine .none ?_
      intro last' w' hlast' hw'
      rw [hlast, Option.some.injEq] at hlast'
      rw [← hlast', hst, StepStatus.saturated.injEq] at hw'
      exact hw' ▸ hk
    | some k =>
      simp only [hk, Except.map, Except.ok.injEq] at hnew
      subst hnew
      simp only [Outcome.pure_eq, Outcome.ok.injEq] at h
      subst h
      exact .push hlast hst hk

/-- The invariant is kept when the next step is pushed. -/
theorem Pushed.sound (h : Pushed s s') (hs : s.Sound) : s'.Sound := by
  cases h with
  | none _ => exact hs
  | push hlast hw hk => exact hs.push hlast hw hk

/-- Pushing the next step is one move, or none. -/
theorem Pushed.moves (h : Pushed s s') (pinnedTimes : List (Time T)) :
    Relation.ReflTransGen (Move pinnedTimes) s s' := by
  cases h with
  | none _ => exact .refl
  | push hlast hw hk => exact .single (.push hlast hw hk)

/-! ### Searching -/

/-- The step at index `i` is the last one before or at `t`. -/
abbrev LatestStep (s : Steps T) (t : Time T) (i : ℕ) (x : Step T) : Prop :=
  Latest Step.getTime s.steps t i x

/-- The search finds the last step before or at the time, and fails when every step is later. -/
theorem searchBeforeOrAt_cases (h : s.Sound) (t : Time T) :
    (∃ i x, s.searchBeforeOrAt t = .ok i ∧ s.LatestStep t i x) ∨
      s.searchBeforeOrAt t = .error () ∧ ∀ y ∈ s.steps, t < y.getTime := by
  unfold searchBeforeOrAt binarySearchByTime
  cases hb : binarySearchByKey Step.getTime s.steps t with
  | ok i =>
    obtain ⟨x, hx⟩ := binarySearchByKey_latest h.sorted (Or.inl hb)
    exact Or.inl ⟨i, x, rfl, hx⟩
  | error i =>
    cases i with
    | zero => exact Or.inr ⟨rfl, binarySearchByKey_none h.sorted hb⟩
    | succ i =>
      obtain ⟨x, hx⟩ := binarySearchByKey_latest h.sorted (Or.inr hb)
      exact Or.inl ⟨i, x, rfl, hx⟩

/-- The last step before or at a time is the one that is found. -/
theorem Sound.searchBeforeOrAt_eq (h : s.Sound) {t : Time T} {i : ℕ} {x : Step T}
    (hx : s.LatestStep t i x) : s.searchBeforeOrAt t = .ok i := by
  rcases searchBeforeOrAt_cases h t with ⟨k, y, hk, hy⟩ | ⟨-, hbefore⟩
  · rw [hk, (hy.unique hx).1]
  · exact absurd (hbefore x (List.mem_of_getElem? hx.get)) (not_lt.mpr hx.le)

/-- A checkpoint is one of the sequence numbers that are kept for them. -/
theorem Sound.exists_of_checkpoint (h : s.Sound) {n : ℕ} (hn : n ∈ s.notUnsaturated) :
    ∃ i x, n = s.numDeletedSteps + i ∧ s.steps[i]? = some x ∧ x.isUnsaturated = false := by
  obtain ⟨i, x, hx, hu, hn⟩ := (h.checkpoints n).mp hn
  exact ⟨i, x, hn, hx, hu⟩

/-- A step that is not unsaturated is a checkpoint. -/
theorem Sound.checkpoint (h : s.Sound) {i : ℕ} {x : Step T} (hx : s.steps[i]? = some x)
    (hu : x.isUnsaturated = false) : s.numDeletedSteps + i ∈ s.notUnsaturated :=
  (h.checkpoints _).mpr ⟨i, x, hx, hu, rfl⟩

/-- The invariant does not depend on `deletedBefore`. -/
theorem Sound.withDeletedBefore (h : s.Sound) (b : Option (Time T)) :
    Sound { s with deletedBefore := b } :=
  ⟨h.sorted, h.checkpoints, h.front, h.past, h.last⟩

/-- There is one last checkpoint before or at a time. -/
theorem LatestCheckpoint.unique {t : Time T} {i j : ℕ} {x y : Step T}
    (h : s.LatestCheckpoint t i x) (h' : s.LatestCheckpoint t j y) : i = j := by
  rcases lt_trichotomy i j with hlt | heq | hgt
  · have hu := h.after j y hlt h'.get h'.le
    rw [h'.checkpoint] at hu
    cases hu
  · exact heq
  · have hu := h'.after i x hgt h.get h.le
    rw [h.checkpoint] at hu
    cases hu

/-! ### What saturating a step does -/

/-- What saturating the step at `j + 1` does.  The first step is given up for the second one
    exactly when it lies before `deletedBefore`. -/
inductive SaturateCases (s : Steps T) (pinnedTimes : List (Time T)) (j : ℕ) (step : Step T)
    (w : WrappedTransposer T) : Steps T → Prop where
  | saturate {f} (d : Option ℕ) :
      Step.saturationFuture step.data w step.eventCount = some f →
      (∀ d' ∈ d, s.Dispensable pinnedTimes j d') →
      (j = 0 → ∀ b front, s.deletedBefore = some b → s.steps.head? = some front →
        b ≤ front.getTime) →
      SaturateCases s pinnedTimes j step w (s.saturatedAt d (j + 1) step f)
  | consume {front rest f b} : j = 0 → s.steps = front :: step :: rest →
      Step.saturationFuture step.data w step.eventCount = some f →
      s.deletedBefore = some b → front.getTime < b →
      SaturateCases s pinnedTimes j step w (s.consumeFront step rest f)

/-- Saturating a step is one move. -/
theorem SaturateCases.move {pinnedTimes : List (Time T)} {j : ℕ} {prev step : Step T}
    {w : WrappedTransposer T} (h : SaturateCases s pinnedTimes j step w s')
    (hprev : s.steps[j]? = some prev) (hw : prev.status = .saturated w)
    (hstep : s.steps[j + 1]? = some step) (hunsat : step.status = .unsaturated) :
    Move pinnedTimes s s' := by
  cases h with
  | saturate d hf hd _ => exact .saturate d hprev hw hstep hunsat hf hd
  | consume hj hs hf hb hlt =>
    subst hj
    rw [hs, List.getElem?_cons_zero, Option.some.injEq] at hprev
    subst hprev
    exact .consume hs hw hunsat hf hb hlt

/-- No step is added or dropped behind the ones there are. -/
theorem SaturateCases.total_eq {pinnedTimes : List (Time T)} {j : ℕ} {step : Step T}
    {w : WrappedTransposer T} (h : SaturateCases s pinnedTimes j step w s') :
    s'.numDeletedSteps + s'.steps.length = s.numDeletedSteps + s.steps.length := by
  cases h with
  | saturate d _ _ _ => exact total_saturatedAt s d _ _ _
  | consume _ hs _ _ _ => exact total_consumeFront hs _

/-- What saturating a step does to the last one. -/
theorem SaturateCases.last {pinnedTimes : List (Time T)} {j : ℕ} {step : Step T}
    {w : WrappedTransposer T} (h : SaturateCases s pinnedTimes j step w s')
    (hstep : s.steps[j + 1]? = some step) (hunsat : step.status = .unsaturated)
    {x : Step T} (hx : s.steps.getLast? = some x) :
    s'.steps.getLast? = some x ∨
      x.status = .unsaturated ∧ ∃ f, s'.steps.getLast? = some (x.started f) := by
  cases h with
  | saturate d _ hd _ =>
    rcases last_saturatedAt hstep hunsat hd hx with hsame | ⟨hxu, hstarted⟩
    · exact Or.inl hsame
    · exact Or.inr ⟨hxu, _, hstarted⟩
  | consume _ heq _ _ _ =>
    rcases last_consumeFront heq hunsat hx with hsame | ⟨hxu, hstarted⟩
    · exact Or.inl hsame
    · exact Or.inr ⟨hxu, _, hstarted⟩

/-- Steps whose first one is not unsaturated lose none. -/
theorem ensureFirst_eq {x : Step T} (hx : s.steps.head? = some x)
    (hu : x.isUnsaturated = false) (h : s.ensureFirstStepIsNotUnsaturated = .ok s') :
    s' = s := by
  obtain ⟨steps, checkpoints, num, before, number⟩ := s
  cases steps with
  | nil => cases hx
  | cons y rest =>
    cases hx
    simp only [ensureFirstStepIsNotUnsaturated, ensureFirstStepIsNotUnsaturated.popUnsaturated,
      hu, Bool.false_eq_true, if_false, Outcome.ok_bind, Outcome.pure_eq, Outcome.ok.injEq] at h
    exact h.symm

/-- A step loses its state. -/
theorem set_desaturate {steps : List (Step T)} {d : ℕ} {x : Step T} (hx : steps[d]? = some x) :
    steps.set d x.desaturate = desaturateAt (some d) steps := by
  rw [desaturateAt, List.modify_eq_set_getElem?, hx]
  rfl

/-- The other steps are as they were. -/
theorem getElem?_desaturateAt {d : Option ℕ} {i : ℕ} (hi : d ≠ some i) (steps : List (Step T)) :
    (desaturateAt d steps)[i]? = steps[i]? := by
  cases d with
  | none => rfl
  | some d =>
    have hne : d ≠ i := fun heq => hi (by rw [heq])
    simp [desaturateAt, hne]

/-- No step is dropped when the first one has not been given up. -/
theorem ensureFirst_saturatedAt (h : s.Sound) {d : Option ℕ} (hd : d ≠ some 0) {j : ℕ}
    {step : Step T} {f : SaturationFuture T}
    (hpop : (s.saturatedAt d (j + 1) step f).ensureFirstStepIsNotUnsaturated = .ok s') :
    s' = s.saturatedAt d (j + 1) step f := by
  obtain ⟨first, hfirst, hfu⟩ := h.front
  have hhead : (s.saturatedAt d (j + 1) step f).steps.head? = some first := by
    rw [saturatedAt, List.head?_eq_getElem?, List.getElem?_set_ne (by omega),
      getElem?_desaturateAt hd, hfirst]
  exact ensureFirst_eq hhead hfu hpop

/-- The first step is dropped when it has been given up for the second one. -/
theorem ensureFirst_consumeFront {front step : Step T} {rest : List (Step T)}
    {f : SaturationFuture T} (hsteps : s.steps = front :: step :: rest)
    (hpop : (s.saturatedAt (some 0) 1 step f).ensureFirstStepIsNotUnsaturated = .ok s') :
    s' = s.consumeFront step rest f := by
  simp only [ensureFirstStepIsNotUnsaturated, saturatedAt, desaturateAt, hsteps,
    List.modify_zero_cons, List.set_cons_succ, List.set_cons_zero,
    ensureFirstStepIsNotUnsaturated.popUnsaturated, Step.desaturate, Step.isUnsaturated,
    if_true, Step.started, Bool.false_eq_true, if_false, Outcome.ok_bind, Outcome.pure_eq,
    Outcome.ok.injEq] at hpop
  exact hpop.symm

/-! ### Searching for a checkpoint -/

section Build

variable [BuildProfile]

/-- The last checkpoint before or at a time is found; for a time before every step a checkpoint
    is found as well, or none is and the call does not return. -/
theorem latestCheckpoint_of_ok (h : s.Sound) {t : Time T} {n : ℕ}
    (hn : s.getNotUnsaturatedBeforeOrAtTime t = .ok n) :
    (∃ i x, n = s.numDeletedSteps + i ∧ s.LatestCheckpoint t i x) ∨
      (∀ y ∈ s.steps, t < y.getTime) ∧ n ∈ s.notUnsaturated := by
  simp only [getNotUnsaturatedBeforeOrAtTime, Outcome.bind_eq_ok, Outcome.unwrap_eq_ok,
    OrdSet.last_eq_some, Finset.mem_filter] at hn
  obtain ⟨m, hm, ⟨hn, hnm⟩, hmax⟩ := hn
  -- the number searched for is that of the last step before or at the time, if there is one
  have hfound : ∀ i x, m = i + s.numDeletedSteps → s.LatestStep t i x →
      ∃ i x, n = s.numDeletedSteps + i ∧ s.LatestCheckpoint t i x := by
    rintro i x rfl hx
    obtain ⟨d, y, rfl, hy, hyu⟩ := h.exists_of_checkpoint hn
    refine ⟨d, y, rfl, hy, hyu, ?_, ?_⟩
    · rcases Nat.lt_or_ge d i with hlt | hge
      · exact (h.sorted.lt hy hx.get hlt).le.trans hx.le
      · obtain rfl : d = i := by omega
        rw [hx.get, Option.some.injEq] at hy
        exact hy ▸ hx.le
    · intro j z hj hz hzt
      by_contra hzu
      rw [Bool.not_eq_true] at hzu
      -- a later checkpoint before or at the time would have been found
      have hji : j ≤ i := by
        by_contra hij
        exact absurd (hx.after j z (by omega) hz) (not_lt.mpr hzt)
      have hle := hmax _ ⟨h.checkpoint hz hzu, by omega⟩
      omega
  unfold sequenceNumberBeforeOrAt binarySearchByTime at hm
  cases hb : binarySearchByKey Step.getTime s.steps t with
  | ok i =>
    simp only [hb, Outcome.ok.injEq] at hm
    obtain ⟨x, hx⟩ := binarySearchByKey_latest h.sorted (Or.inl hb)
    exact Or.inl (hfound i x hm.symm hx)
  | error i =>
    cases i with
    | zero => exact Or.inr ⟨binarySearchByKey_none h.sorted hb, hn⟩
    | succ i =>
      simp only [hb, Outcome.ok.injEq] at hm
      obtain ⟨x, hx⟩ := binarySearchByKey_latest h.sorted (Or.inr hb)
      exact Or.inl (hfound i x hm.symm hx)

/-- Each pinned time has its checkpoint among those that are looked up. -/
theorem mem_pinnedSteps {pinnedTimes : List (Time T)} {ns : List ℕ}
    (h : s.pinnedSteps pinnedTimes = .ok ns) {t : Time T} (ht : t ∈ pinnedTimes) :
    ∃ n ∈ ns, s.getNotUnsaturatedBeforeOrAtTime t = .ok n := by
  induction pinnedTimes generalizing ns with
  | nil => cases ht
  | cons t' ts ih =>
    simp only [pinnedSteps, Outcome.bind_eq_ok, Outcome.pure_eq, Outcome.ok.injEq] at h
    obtain ⟨n, hn, ns', hns', rfl⟩ := h
    rcases List.mem_cons.mp ht with rfl | ht
    · exact ⟨n, List.mem_cons_self, hn⟩
    · obtain ⟨m, hm, hmt⟩ := ih hns' ht
      exact ⟨m, List.mem_cons_of_mem _ hm, hmt⟩

/-! ### Saturating a step -/

/-- The checkpoint that is given up for the step at `j + 1`: the first one when it is next to the
    step and before `deletedBefore`, else none or one that can be dispensed with. -/
theorem sequenceNumberToDelete_cases (h : s.Sound) {pinnedTimes : List (Time T)} {j : ℕ}
    {step : Step T} {r : Option ℕ} (hstep : s.steps[j + 1]? = some step)
    (hr : s.sequenceNumberToDelete pinnedTimes (s.numDeletedSteps + (j + 1)) = .ok r) :
    (j = 0 ∧ r = some s.numDeletedSteps ∧ ∃ b front, s.deletedBefore = some b ∧
      s.steps.head? = some front ∧ front.getTime < b) ∨
    (j = 0 → ∀ b front, s.deletedBefore = some b → s.steps.head? = some front →
        b ≤ front.getTime) ∧
      (r = none ∨ ∃ d, r = some (s.numDeletedSteps + d) ∧ s.Dispensable pinnedTimes j d) := by
  simp only [sequenceNumberToDelete, h.first_checkpoint, Outcome.unwrap_some, Outcome.ok_bind,
    Outcome.bind_eq_ok, Outcome.unwrap_eq_ok] at hr
  obtain ⟨front, hfront, hr⟩ := hr
  split at hr
  · rename_i hcond
    obtain ⟨⟨b, hb, hlt⟩, hj⟩ := hcond
    cases hr
    exact Or.inl ⟨by omega, rfl, b, front, hb, hfront, hlt⟩
  · rename_i hcond
    refine Or.inr ⟨?_, ?_⟩
    · intro hj b front' hb hfront'
      rw [hfront, Option.some.injEq] at hfront'
      subst hfront'
      by_contra hlt
      exact hcond ⟨⟨b, hb, not_le.mp hlt⟩, by omega⟩
    split at hr
    · cases hr
      exact Or.inl rfl
    · simp only [Outcome.bind_eq_ok, Outcome.unwrap_eq_ok, Outcome.pure_eq,
        Outcome.ok.injEq] at hr
      obtain ⟨last, hlast, ns, hns, rfl⟩ := hr
      cases hmin : OrdSet.minByKey trailingZeros (s.notUnsaturated.filter (· ∉
          s.numDeletedSteps :: ((if last + 1 ≠ s.numDeletedSteps + (j + 1) then [last] else [])
            ++ ns))) with
      | none => exact Or.inl rfl
      | some n =>
        refine Or.inr ?_
        obtain ⟨hn, hneeded⟩ := Finset.mem_filter.mp (OrdSet.minByKey_mem hmin)
        simp only [List.mem_cons, List.mem_append, not_or] at hneeded
        obtain ⟨hfirst, hnotLast, hpinned⟩ := hneeded
        obtain ⟨d, x, rfl, hx, hxu⟩ := h.exists_of_checkpoint hn
        obtain ⟨hlastMem, hlastMax⟩ := OrdSet.last_eq_some.mp hlast
        have hd := (List.getElem?_eq_some_iff.mp hx).1
        have hj := (List.getElem?_eq_some_iff.mp hstep).1
        -- the last checkpoint is needed unless the new step follows it
        have hnot : last ≠ s.numDeletedSteps + j → last ≠ s.numDeletedSteps + d := by
          intro hne heq
          rw [if_pos (by omega)] at hnotLast
          exact hnotLast (by simp [heq])
        refine ⟨d, rfl, by rintro rfl; exact hfirst rfl, ⟨x, hx, hxu⟩, ?_, ?_⟩
        · intro y hy
          rw [List.getLast?_eq_getElem?] at hy
          obtain ⟨l, z, rfl, hz, hzu⟩ := h.exists_of_checkpoint hlastMem
          have hl := (List.getElem?_eq_some_iff.mp hz).1
          constructor
          · intro _ hlen
            -- the last step is the last checkpoint, and the new step cannot follow it
            have hle := hlastMax _ (h.checkpoint hx hxu)
            exact hnot (by omega) (by omega)
          · intro hyu hlen
            -- the last checkpoint is the step before the last one
            have hle := hlastMax _ (h.checkpoint hx hxu)
            have hl' : l ≠ s.steps.length - 1 := (index_ne hy hz hyu hzu).symm
            by_contra hdj
            exact hnot (by omega) (by omega)
        · intro t ht y hy
          obtain ⟨n, hmem, hnt⟩ := mem_pinnedSteps hns ht
          rcases latestCheckpoint_of_ok h hnt with ⟨i, z, rfl, hz⟩ | ⟨hbefore, -⟩
          · obtain rfl := hz.unique hy
            exact hpinned hmem
          · exact absurd (hbefore y (List.mem_of_getElem? hy.get)) (not_lt.mpr hy.le)

/-- Saturating a step from a copy of the state of the one before it. -/
theorem saturateAdjacent_clone {j : ℕ} {prev step : Step T} {w : WrappedTransposer T}
    (hprev : s.steps[j]? = some prev) (hw : prev.status = .saturated w)
    (hstep : s.steps[j + 1]? = some step) (h : s.saturateAdjacent (j + 1) false = .ok s') :
    ∃ f, Step.saturationFuture step.data w step.eventCount = some f ∧
      s' = { s with
        steps := s.steps.set (j + 1) (step.started f)
        notUnsaturated := insert (s.numDeletedSteps + (j + 1)) s.notUnsaturated } := by
  simp only [saturateAdjacent, getStepAndPrev, hprev, hstep, Outcome.unwrap_some,
    Outcome.ok_bind, Outcome.pure_eq, Bool.false_eq_true, if_false, Outcome.bind_eq_ok] at h
  obtain ⟨⟨r, step'⟩, hclone, u, hr, h⟩ := h
  obtain rfl := Outcome.expect_eq_ok.mp hr
  obtain ⟨w', hw', hs⟩ := Step.saturateClone_ok hclone
  rw [hw, StepStatus.saturated.injEq] at hw'
  subst hw'
  obtain ⟨f, hf, rfl⟩ := Step.saturate_ok hs
  refine ⟨f, hf, ?_⟩
  rw [Nat.add_comm s.numDeletedSteps]
  exact (Outcome.ok.inj h).symm

/-- Saturating a step from the state of the one before it, which loses it. -/
theorem saturateAdjacent_take {j : ℕ} {prev step : Step T} {w : WrappedTransposer T}
    (hprev : s.steps[j]? = some prev) (hw : prev.status = .saturated w)
    (hstep : s.steps[j + 1]? = some step) (h : s.saturateAdjacent (j + 1) true = .ok s') :
    ∃ f, Step.saturationFuture step.data w step.eventCount = some f ∧
      s' = { s with
        steps := (s.steps.set j prev.desaturate).set (j + 1) (step.started f)
        notUnsaturated := insert (s.numDeletedSteps + (j + 1))
          (s.notUnsaturated.erase (s.numDeletedSteps + j)) } := by
  have hsub : usizeSub (j + 1 + s.numDeletedSteps) 1 = .ok (s.numDeletedSteps + j) := by
    rw [Nat.add_comm]
    exact usizeSub_succ _
  simp only [saturateAdjacent, getStepAndPrev, hprev, hstep, Outcome.unwrap_some,
    Outcome.ok_bind, Outcome.pure_eq, if_true, hsub, Outcome.bind_eq_ok] at h
  obtain ⟨⟨r, step', prev'⟩, htake, u, hr, h⟩ := h
  obtain rfl := Outcome.expect_eq_ok.mp hr
  obtain ⟨w', hw', hs, rfl⟩ := Step.saturateTake_ok htake
  rw [hw, StepStatus.saturated.injEq] at hw'
  subst hw'
  obtain ⟨f, hf, rfl⟩ := Step.saturate_ok hs
  refine ⟨f, hf, ?_⟩
  rw [Nat.add_comm s.numDeletedSteps (j + 1)]
  exact (Outcome.ok.inj h).symm

/-- The step at `j + 1` starts from the one before it.  When that is the one to be given up, it
    is taken; else a copy of it is, and another step loses its state. -/
theorem saturatedAt_of_evict {j i : ℕ} {prev step : Step T} {w : WrappedTransposer T}
    {s₁ s₂ : Steps T} {take : Bool} {d : Option ℕ} (hprev : s.steps[j]? = some prev)
    (hw : prev.status = .saturated w) (hstep : s.steps[j + 1]? = some step)
    (hd : ∀ d' ∈ d, d' ≠ j + 1 ∧ ∃ x, s.steps[d']? = some x)
    (hevict : s.evict (d.map (s.numDeletedSteps + ·)) (s.numDeletedSteps + (j + 1))
      = .ok (s₁, take))
    (hi : usizeSub (s.numDeletedSteps + (j + 1)) s₁.numDeletedSteps = .ok i)
    (hadj : s₁.saturateAdjacent i take = .ok s₂) :
    ∃ f, Step.saturationFuture step.data w step.eventCount = some f ∧
      s₂ = s.saturatedAt d (j + 1) step f := by
  cases d with
  | none =>
    simp only [evict, Option.map_none, Outcome.pure_eq, Outcome.ok.injEq, Prod.mk.injEq] at hevict
    obtain ⟨rfl, rfl⟩ := hevict
    obtain rfl := Outcome.ok.inj ((usizeSub_add_left _ _).symm.trans hi)
    exact saturateAdjacent_clone hprev hw hstep hadj
  | some d =>
    have hprevious : usizeSub (s.numDeletedSteps + (j + 1)) 1 = .ok (s.numDeletedSteps + j) :=
      usizeSub_succ _
    obtain ⟨hdstep, x, hx⟩ := hd d rfl
    by_cases hdj : d = j
    · subst hdj
      simp only [evict, Option.map_some, hprevious, Outcome.ok_bind, if_true, Outcome.pure_eq,
        Outcome.ok.injEq, Prod.mk.injEq] at hevict
      obtain ⟨rfl, rfl⟩ := hevict
      obtain rfl := Outcome.ok.inj ((usizeSub_add_left _ _).symm.trans hi)
      obtain ⟨f, hf, rfl⟩ := saturateAdjacent_take hprev hw hstep hadj
      rw [set_desaturate hprev]
      exact ⟨f, hf, rfl⟩
    · have hne : ¬ s.numDeletedSteps + d = s.numDeletedSteps + j := by omega
      simp only [evict, Option.map_some, hprevious, Outcome.ok_bind, hne, if_false,
        usizeSub_add_left, desaturate, hx, Outcome.unwrap_some, Outcome.pure_eq,
        Outcome.ok.injEq, Prod.mk.injEq] at hevict
      obtain ⟨rfl, rfl⟩ := hevict
      obtain rfl := Outcome.ok.inj ((usizeSub_add_left _ _).symm.trans hi)
      -- giving up another step changes neither the step to start nor the one before it
      have hget : ∀ i, d ≠ i → (s.steps.set d x.desaturate)[i]? = s.steps[i]? :=
        fun i hi => List.getElem?_set_ne hi
      obtain ⟨f, hf, rfl⟩ := saturateAdjacent_clone ((hget j hdj).trans hprev) hw
        ((hget (j + 1) hdstep).trans hstep) hadj
      refine ⟨f, hf, ?_⟩
      simp only [setStep, set_desaturate hx, Nat.add_comm d]
      rfl

/-- What is left when the step at `j + 1` has started with the future `f`, and the checkpoint
    `r`, if any, was chosen to be given up for it. -/
inductive GivenUp (s : Steps T) (pinnedTimes : List (Time T)) (j : ℕ) (step : Step T)
    (f : SaturationFuture T) : Option ℕ → Steps T → Prop where
  | front {front rest b} : j = 0 → s.steps = front :: step :: rest →
      s.deletedBefore = some b → front.getTime < b →
      GivenUp s pinnedTimes j step f (some s.numDeletedSteps) (s.consumeFront step rest f)
  | nothing : (j = 0 → ∀ b front, s.deletedBefore = some b → s.steps.head? = some front →
        b ≤ front.getTime) →
      GivenUp s pinnedTimes j step f none (s.saturatedAt none (j + 1) step f)
  | checkpoint {d} : (j = 0 → ∀ b front, s.deletedBefore = some b →
        s.steps.head? = some front → b ≤ front.getTime) →
      s.Dispensable pinnedTimes j d →
      GivenUp s pinnedTimes j step f (some (s.numDeletedSteps + d))
        (s.saturatedAt (some d) (j + 1) step f)

/-- A step that is saturated starts, and what was chosen to be given up for it is gone. -/
theorem saturate_givenUp (h : s.Sound) {pinnedTimes : List (Time T)} {j : ℕ}
    {prev step : Step T} {w : WrappedTransposer T} (hprev : s.steps[j]? = some prev)
    (hw : prev.status = .saturated w) (hstep : s.steps[j + 1]? = some step)
    (hunsat : step.status = .unsaturated)
    (hs' : s.saturate (s.numDeletedSteps + (j + 1)) pinnedTimes = .ok s') :
    ∃ r f, s.sequenceNumberToDelete pinnedTimes (s.numDeletedSteps + (j + 1)) = .ok r ∧
      Step.saturationFuture step.data w step.eventCount = some f ∧
      GivenUp s pinnedTimes j step f r s' := by
  simp only [saturate, Outcome.bind_eq_ok] at hs'
  obtain ⟨r, hr, ⟨s₁, take⟩, hevict, i, hi, s₂, hadj, hpop⟩ := hs'
  refine ⟨r, ?_⟩
  rcases sequenceNumberToDelete_cases h hstep hr with
    ⟨rfl, rfl, b, front, hb, hfront, hlt⟩ | ⟨hkeep, rfl | ⟨d, rfl, hd⟩⟩
  · -- the first step is given up for the second one
    obtain ⟨f, hf, rfl⟩ := saturatedAt_of_evict (d := some 0) hprev hw hstep
      (by rintro d ⟨⟩; exact ⟨by omega, prev, hprev⟩) hevict hi hadj
    obtain ⟨rest, hsteps⟩ : ∃ rest, s.steps = prev :: step :: rest := by
      cases hsl : s.steps with
      | nil => rw [hsl] at hprev; cases hprev
      | cons x l =>
        rw [hsl] at hprev hstep
        cases hprev
        cases l with
        | nil => cases hstep
        | cons y rest => cases hstep; exact ⟨rest, rfl⟩
    rw [hsteps, List.head?_cons, Option.some.injEq] at hfront
    subst hfront
    rw [ensureFirst_consumeFront hsteps hpop]
    exact ⟨f, hr, hf, .front rfl hsteps hb hlt⟩
  · -- no checkpoint is given up
    obtain ⟨f, hf, rfl⟩ := saturatedAt_of_evict (d := none) hprev hw hstep
      (by rintro d ⟨⟩) hevict hi hadj
    rw [ensureFirst_saturatedAt h (by simp) hpop]
    exact ⟨f, hr, hf, .nothing hkeep⟩
  · -- another checkpoint is given up, which is not the step to start: that is unsaturated
    obtain ⟨x, hx, hxu⟩ := hd.checkpoint
    have hne : d ≠ j + 1 := (index_ne hstep hx (Step.isUnsaturated_iff.mpr hunsat) hxu).symm
    obtain ⟨f, hf, rfl⟩ := saturatedAt_of_evict (d := some d) hprev hw hstep
      (by rintro d' ⟨⟩; exact ⟨hne, x, hx⟩) hevict hi hadj
    rw [ensureFirst_saturatedAt h (by simpa using hd.ne_zero) hpop]
    exact ⟨f, hr, hf, .checkpoint hkeep hd⟩

/-- A step is saturated at the cost of a checkpoint that can be dispensed with, or of the first
    step. -/
theorem saturate_cases (h : s.Sound) {pinnedTimes : List (Time T)} {j : ℕ}
    {prev step : Step T} {w : WrappedTransposer T} (hprev : s.steps[j]? = some prev)
    (hw : prev.status = .saturated w) (hstep : s.steps[j + 1]? = some step)
    (hunsat : step.status = .unsaturated)
    (hs' : s.saturate (s.numDeletedSteps + (j + 1)) pinnedTimes = .ok s') :
    SaturateCases s pinnedTimes j step w s' := by
  obtain ⟨r, f, -, hf, hgiven⟩ := saturate_givenUp h hprev hw hstep hunsat hs'
  cases hgiven with
  | front hj hsteps hb hlt => exact .consume hj hsteps hf hb hlt
  | nothing hkeep => exact .saturate none hf (by simp) hkeep
  | @checkpoint d hkeep hd => exact .saturate (some d) hf (by rintro d' ⟨⟩; exact hd) hkeep

/-! ### The calls -/

/-- What `get_before_or_at` does once the next step has been pushed: the last step before or at
    the time is saturated or saturating; or it is unsaturated, and then the one before it is
    saturating, or is saturated and the step starts.  The index of the step is returned as it
    was found, also when the first step has been given up. -/
inductive BeforeCases (s : Steps T) (pinnedTimes : List (Time T)) (t : Time T) :
    Except Unit (BeforeStatus T) → Steps T → Prop where
  | before : (∀ y ∈ s.steps, t < y.getTime) → BeforeCases s pinnedTimes t (.error ()) s
  | saturated {i x nextTime} : s.LatestStep t i x → x.isSaturated = true →
      s.getScheduledTime = .ok nextTime →
      BeforeCases s pinnedTimes t (.ok (.saturated i nextTime)) s
  | saturating {i x} : s.LatestStep t i x → x.isSaturating = true →
      BeforeCases s pinnedTimes t (.ok (.saturating i (s.numDeletedSteps + i))) s
  | previous {i x prev} : s.LatestStep t (i + 1) x → x.status = .unsaturated →
      s.steps[i]? = some prev → prev.isSaturating = true →
      BeforeCases s pinnedTimes t (.ok (.saturating i (s.numDeletedSteps + i))) s
  | start {j x prev w s' y} : s.LatestStep t (j + 1) x → x.status = .unsaturated →
      s.steps[j]? = some prev → prev.status = .saturated w →
      SaturateCases s pinnedTimes j x w s' → s'.steps[j + 1]? = some y →
      BeforeCases s pinnedTimes t (.ok (.saturating (j + 1) (s'.numDeletedSteps + (j + 1)))) s'

/-- The loop looks at the step before `i` again and again: it ends in its first round or not at
    all. -/
theorem walkBack_cases {pinnedTimes : List (Time T)} {i fuel : ℕ}
    {r : Except Unit BeforeStatusInternal} (h : s.walkBack pinnedTimes i fuel = .ok (r, s')) :
    (i = 0 ∧ r = .error () ∧ s' = s) ∨
    ∃ j, i = j + 1 ∧
      ((s.steps[j]? = none ∧ r = .error () ∧ s' = s) ∨
      ∃ prev, s.steps[j]? = some prev ∧
        ((prev.isSaturated = true ∧ r = .ok (.saturating (j + 1)) ∧
            s.saturate (j + 1 + s.numDeletedSteps) pinnedTimes = .ok s') ∨
          (prev.isSaturating = true ∧ r = .ok (.saturating j) ∧ s' = s))) := by
  induction fuel with
  | zero => cases h
  | succ fuel ih =>
    cases i with
    | zero =>
      simp only [walkBack, Outcome.pure_eq, Outcome.ok.injEq, Prod.mk.injEq] at h
      exact Or.inl ⟨rfl, h.1.symm, h.2.symm⟩
    | succ j =>
      simp only [walkBack] at h
      cases hj : s.steps[j]? with
      | none =>
        simp only [hj, Outcome.pure_eq, Outcome.ok.injEq, Prod.mk.injEq] at h
        exact Or.inr ⟨j, rfl, Or.inl ⟨hj, h.1.symm, h.2.symm⟩⟩
      | some prev =>
        simp only [hj] at h
        split at h
        · rename_i hsat
          simp only [Outcome.bind_eq_ok, Outcome.pure_eq, Outcome.ok.injEq, Prod.mk.injEq] at h
          obtain ⟨s₁, hs₁, rfl, rfl⟩ := h
          exact Or.inr ⟨j, rfl, Or.inr ⟨prev, hj, Or.inl ⟨hsat, rfl, hs₁⟩⟩⟩
        · split at h
          · rename_i hsat
            simp only [Outcome.pure_eq, Outcome.ok.injEq, Prod.mk.injEq] at h
            exact Or.inr ⟨j, rfl, Or.inr ⟨prev, hj, Or.inr ⟨hsat, h.1.symm, h.2.symm⟩⟩⟩
          -- the step before is unsaturated: the next round looks at the same one again
          · exact ih h

/-- What the search of `get_before_or_at` finds once the next step has been pushed, and which step
    it saturates. -/
inductive FoundCases (s : Steps T) (pinnedTimes : List (Time T)) (t : Time T) :
    Except Unit BeforeStatusInternal → Steps T → Prop where
  | before : (∀ y ∈ s.steps, t < y.getTime) → FoundCases s pinnedTimes t (.error ()) s
  | saturated {i x} : s.LatestStep t i x → x.isSaturated = true →
      FoundCases s pinnedTimes t (.ok (.saturatedReady i)) s
  | saturating {i x} : s.LatestStep t i x → x.isSaturating = true →
      FoundCases s pinnedTimes t (.ok (.saturating i)) s
  | previous {i x prev} : s.LatestStep t (i + 1) x → x.status = .unsaturated →
      s.steps[i]? = some prev → prev.isSaturating = true →
      FoundCases s pinnedTimes t (.ok (.saturating i)) s
  | start {j x prev s'} : s.LatestStep t (j + 1) x → x.status = .unsaturated →
      s.steps[j]? = some prev → prev.isSaturated = true →
      s.saturate (s.numDeletedSteps + (j + 1)) pinnedTimes = .ok s' →
      FoundCases s pinnedTimes t (.ok (.saturating (j + 1))) s'

/-- `get_before_or_at_internal` pushes the next step, and then finds one of the cases. -/
theorem getBeforeOrAtInternal_cases (h : s.Sound) {fuel : ℕ} {t : Time T}
    {pinnedTimes : List (Time T)} {r : Except Unit BeforeStatusInternal}
    (hr : s.getBeforeOrAtInternal fuel t pinnedTimes false = .ok (r, s')) :
    ∃ s₁, s.tryNextScheduled = .ok s₁ ∧ Pushed s s₁ ∧ FoundCases s₁ pinnedTimes t r s' := by
  simp only [getBeforeOrAtInternal, Bool.false_eq_true, if_false, Outcome.bind_eq_ok] at hr
  obtain ⟨s₁, hpush, hr⟩ := hr
  have hpushed := tryNextScheduled_cases hpush
  have h₁ := hpushed.sound h
  refine ⟨s₁, hpush, hpushed, ?_⟩
  rcases searchBeforeOrAt_cases h₁ t with ⟨i, x, hi, hx⟩ | ⟨hi, hbefore⟩
  · simp only [hi, hx.get] at hr
    split at hr
    · rename_i hsat
      simp only [Outcome.pure_eq, Outcome.ok.injEq, Prod.mk.injEq] at hr
      obtain ⟨rfl, rfl⟩ := hr
      exact .saturated hx hsat
    · rename_i hnsat
      split at hr
      · rename_i hsat
        simp only [Outcome.pure_eq, Outcome.ok.injEq, Prod.mk.injEq] at hr
        obtain ⟨rfl, rfl⟩ := hr
        exact .saturating hx hsat
      · -- it is unsaturated: the loop goes to the step before it
        rename_i hnsat'
        rw [Bool.not_eq_true] at hnsat hnsat'
        have hunsat := Step.isUnsaturated_iff.mp (isUnsaturated_of_neither hnsat hnsat')
        -- the loop ends before the first step, past the last one, or at a step that is not
        -- unsaturated
        rcases walkBack_cases hr with ⟨rfl, -, -⟩ | ⟨j, rfl, ⟨hnone, -, -⟩ | ⟨prev, hprev, hcase⟩⟩
        · -- the first step is never unsaturated
          obtain ⟨y, hy, hyu⟩ := h₁.front
          rw [hx.get, Option.some.injEq] at hy
          subst hy
          rw [Step.isUnsaturated_iff.mpr hunsat] at hyu
          cases hyu
        · have hlen := (List.getElem?_eq_some_iff.mp hx.get).1
          rw [List.getElem?_eq_none_iff] at hnone
          omega
        · rcases hcase with ⟨hsat, rfl, hs'⟩ | ⟨hsat, rfl, rfl⟩
          · rw [Nat.add_comm] at hs'
            exact .start hx hunsat hprev hsat hs'
          · exact .previous hx hunsat hprev hsat
  · simp only [hi, Outcome.pure_eq, Outcome.ok.injEq, Prod.mk.injEq] at hr
    obtain ⟨rfl, rfl⟩ := hr
    exact .before hbefore

/-- What it has found is handed out with the steps as the search has left them. -/
theorem getBeforeOrAt_found (h : s.Sound) {fuel : ℕ} {t : Time T} {pinnedTimes : List (Time T)}
    {r : Except Unit (BeforeStatus T)} (hr : s.getBeforeOrAt fuel t pinnedTimes = .ok (r, s')) :
    ∃ s₁ found, s.tryNextScheduled = .ok s₁ ∧ Pushed s s₁ ∧
      FoundCases s₁ pinnedTimes t found s' ∧
      ((found = .error () ∧ r = .error ()) ∨
        (∃ i nextTime, found = .ok (.saturatedReady i) ∧ s'.getScheduledTime = .ok nextTime ∧
          r = .ok (.saturated i nextTime)) ∨
        ∃ i y, found = .ok (.saturating i) ∧ s'.steps[i]? = some y ∧
          r = .ok (.saturating i (s'.numDeletedSteps + i))) := by
  simp only [getBeforeOrAt, Outcome.bind_eq_ok] at hr
  obtain ⟨-, -, ⟨found, s₂⟩, hin, hout⟩ := hr
  obtain ⟨s₁, hpush, hpushed, hfound⟩ := getBeforeOrAtInternal_cases h hin
  refine ⟨s₁, found, hpush, hpushed, ?_⟩
  cases found with
  | error u =>
    simp only [Outcome.pure_eq, Outcome.ok.injEq, Prod.mk.injEq] at hout
    obtain ⟨rfl, rfl⟩ := hout
    exact ⟨hfound, Or.inl ⟨rfl, rfl⟩⟩
  | ok found =>
    cases found with
    | allRepeat => cases hout
    | saturatedReady i =>
      simp only [Outcome.bind_eq_ok, Outcome.unwrap_eq_ok, Outcome.pure_eq, Outcome.ok.injEq,
        Prod.mk.injEq] at hout
      obtain ⟨nextTime, hnext, -, -, rfl, rfl⟩ := hout
      exact ⟨hfound, Or.inr (Or.inl ⟨i, nextTime, rfl, hnext, rfl⟩)⟩
    | saturating i =>
      simp only [Outcome.bind_eq_ok, Outcome.unwrap_eq_ok, Outcome.pure_eq, Outcome.ok.injEq,
        Prod.mk.injEq] at hout
      obtain ⟨y, hy, rfl, rfl⟩ := hout
      exact ⟨hfound, Or.inr (Or.inr ⟨i, y, rfl, hy, by rw [Nat.add_comm]⟩)⟩

/-- **`get_before_or_at`** pushes the next step and then does one of the cases. -/
theorem getBeforeOrAt_cases (h : s.Sound) {fuel : ℕ} {t : Time T}
    {pinnedTimes : List (Time T)} {r : Except Unit (BeforeStatus T)}
    (hr : s.getBeforeOrAt fuel t pinnedTimes = .ok (r, s')) :
    ∃ s₁, s.tryNextScheduled = .ok s₁ ∧ Pushed s s₁ ∧ BeforeCases s₁ pinnedTimes t r s' := by
  obtain ⟨s₁, found, hpush, hpushed, hfound, hout⟩ := getBeforeOrAt_found h hr
  refine ⟨s₁, hpush, hpushed, ?_⟩
  rcases hout with ⟨rfl, rfl⟩ | ⟨i, nextTime, rfl, hnext, rfl⟩ | ⟨i, y, rfl, hy, rfl⟩
  · cases hfound with
    | before hbefore => exact .before hbefore
  · cases hfound with
    | saturated hx hsat => exact .saturated hx hsat hnext
  · cases hfound with
    | saturating hx hsat => exact .saturating hx hsat
    | previous hx hunsat hprev hsat => exact .previous hx hunsat hprev hsat
    | start hx hunsat hprev hsat hs' =>
      obtain ⟨w, hw⟩ := Step.isSaturated_iff.mp hsat
      exact .start hx hunsat hprev hw
        (saturate_cases (hpushed.sound h) hprev hw hx.get hunsat hs') hy

/-- What `get_before_or_at_events` does once the next step has been pushed: the last step is
    later or can produce no events; or it is saturating; or it is unsaturated and starts. -/
inductive EventsCases (s : Steps T) (pinnedTimes : List (Time T)) (t : Time T) :
    BeforeStatusEvents T → Steps T → Prop where
  | ready {x} : s.steps[s.steps.length - 1]? = some x →
      t < x.getTime ∨ x.canProduceEvents = false →
      EventsCases s pinnedTimes t
        (.ready (if x.canProduceEvents then some x.getTime else none)) s
  | saturating {x} : s.steps[s.steps.length - 1]? = some x → x.getTime ≤ t →
      x.isSaturating = true →
      EventsCases s pinnedTimes t
        (.saturating (s.steps.length - 1) (s.numDeletedSteps + s.steps.length - 1)) s
  | start {j x prev w s'} : s.steps[s.steps.length - 1]? = some x → x.getTime ≤ t →
      x.status = .unsaturated → j + 2 = s.steps.length → s.steps[j]? = some prev →
      prev.status = .saturated w → SaturateCases s pinnedTimes j x w s' →
      EventsCases s pinnedTimes t
        (.saturating (s'.steps.length - 1) (s.numDeletedSteps + s.steps.length - 1)) s'

/-- What `get_before_or_at_events` finds once the next step has been pushed, and which step it
    saturates. -/
inductive FoundEventsCases (s : Steps T) (pinnedTimes : List (Time T)) (t : Time T) :
    BeforeStatusEvents T → Steps T → Prop where
  | ready {x} : s.steps[s.steps.length - 1]? = some x →
      t < x.getTime ∨ x.canProduceEvents = false →
      FoundEventsCases s pinnedTimes t
        (.ready (if x.canProduceEvents then some x.getTime else none)) s
  | saturating {x} : s.steps[s.steps.length - 1]? = some x → x.getTime ≤ t →
      x.isSaturating = true →
      FoundEventsCases s pinnedTimes t
        (.saturating (s.steps.length - 1) (s.numDeletedSteps + s.steps.length - 1)) s
  | start {j x prev s'} : s.steps[s.steps.length - 1]? = some x → x.getTime ≤ t →
      x.status = .unsaturated → j + 2 = s.steps.length → s.steps[j]? = some prev →
      prev.isSaturated = true →
      s.saturate (s.numDeletedSteps + (j + 1)) pinnedTimes = .ok s' →
      FoundEventsCases s pinnedTimes t
        (.saturating (s'.steps.length - 1) (s.numDeletedSteps + s.steps.length - 1)) s'

/-- `get_before_or_at_events` pushes the next step, and then finds one of the cases. -/
theorem getBeforeOrAtEvents_found (h : s.Sound) {t : Time T} {pinnedTimes : List (Time T)}
    {r : BeforeStatusEvents T} (hr : s.getBeforeOrAtEvents t pinnedTimes = .ok (r, s')) :
    ∃ s₁, s.tryNextScheduled = .ok s₁ ∧ Pushed s s₁ ∧ FoundEventsCases s₁ pinnedTimes t r s' := by
  simp only [getBeforeOrAtEvents, Outcome.bind_eq_ok, getLast_ok] at hr
  obtain ⟨-, -, s₁, hpush, n, hn, x, hx, hr⟩ := hr
  have hpushed := tryNextScheduled_cases hpush
  have h₁ := hpushed.sound h
  have hpos := h₁.length_pos
  rw [maxSequenceNumber, usizeSub_of_le (by omega), Outcome.ok.injEq] at hn
  subst hn
  rw [List.getLast?_eq_getElem?] at hx
  have hlast := h₁.last _ x hx (by omega)
  refine ⟨s₁, hpush, hpushed, ?_⟩
  split at hr
  · rename_i hcond
    simp only [Outcome.pure_eq, Outcome.ok.injEq, Prod.mk.injEq] at hr
    obtain ⟨rfl, rfl⟩ := hr
    exact .ready hx hcond
  · rename_i hcond
    rw [not_or, not_lt, Bool.not_eq_false] at hcond
    cases hst : x.status with
    | unsaturated =>
      simp only [LastStep, hst] at hlast
      obtain ⟨-, j, prev, w, k, hj, hprev, hw, -, -⟩ := hlast
      simp only [Step.isUnsaturated_iff.mpr hst, if_true, Outcome.bind_eq_ok, Outcome.pure_eq,
        Outcome.ok.injEq, Prod.mk.injEq] at hr
      obtain ⟨s₂, hs₂, rfl, rfl⟩ := hr
      -- the number of the last step, as `saturate` looks it up
      rw [show s₁.numDeletedSteps + s₁.steps.length - 1 = s₁.numDeletedSteps + (j + 1) by
        omega] at hs₂
      exact .start hx hcond.1 hst hj hprev (Step.isSaturated_iff.mpr ⟨w, hw⟩) hs₂
    | saturating f a ch =>
      simp only [Step.isUnsaturated, hst, Bool.false_eq_true, if_false, Outcome.pure_eq,
        Outcome.ok_bind, Outcome.ok.injEq, Prod.mk.injEq] at hr
      obtain ⟨rfl, rfl⟩ := hr
      exact .saturating hx hcond.1 (Step.isSaturating_iff.mpr ⟨f, a, ch, hst⟩)
    -- a saturated last step can produce no events, and has been ready
    | saturated w =>
      simp only [LastStep, hst] at hlast
      rw [hlast.1] at hcond
      cases hcond.2

/-- **`get_before_or_at_events`** pushes the next step and then does one of the cases. -/
theorem getBeforeOrAtEvents_cases (h : s.Sound) {t : Time T} {pinnedTimes : List (Time T)}
    {r : BeforeStatusEvents T} (hr : s.getBeforeOrAtEvents t pinnedTimes = .ok (r, s')) :
    ∃ s₁, s.tryNextScheduled = .ok s₁ ∧ Pushed s s₁ ∧ EventsCases s₁ pinnedTimes t r s' := by
  obtain ⟨s₁, hpush, hpushed, hfound⟩ := getBeforeOrAtEvents_found h hr
  refine ⟨s₁, hpush, hpushed, ?_⟩
  cases hfound with
  | ready hx hcond => exact .ready hx hcond
  | saturating hx hle hsat => exact .saturating hx hle hsat
  | @start j x prev _ hx hle hunsat hj hprev hsat hs' =>
    obtain ⟨w, hw⟩ := Step.isSaturated_iff.mp hsat
    have hxj : s₁.steps[j + 1]? = some x := by
      rw [show j + 1 = s₁.steps.length - 1 by omega]
      exact hx
    exact .start hx hle hunsat hj hprev hw
      (saturate_cases (hpushed.sound h) hprev hw hxj hunsat hs')

/-- **`delete_before`** ignores a time that is not later than an earlier one; else it forgets
    the steps before a checkpoint, the last one before or at the time if there is one. -/
theorem deleteBefore_cases (h : s.Sound) {t : Time T} {r : Option (Time T)}
    (hr : s.deleteBefore t = .ok (r, s')) :
    ((∃ b, s.deletedBefore = some b ∧ t ≤ b) ∧ s' = s) ∨
    ((∀ b, s.deletedBefore = some b → b < t) ∧ ∃ i x, s.steps[i]? = some x ∧
      x.isUnsaturated = false ∧ s' = s.forget i t ∧
      s.getNotUnsaturatedBeforeOrAtTime t = .ok (s.numDeletedSteps + i) ∧
      (s.LatestCheckpoint t i x ∨ ∀ y ∈ s.steps, t < y.getTime)) := by
  simp only [deleteBefore, Outcome.bind_eq_ok] at hr
  obtain ⟨-, -, hr⟩ := hr
  split at hr
  · rename_i hcond
    simp only [Outcome.pure_eq, Outcome.ok.injEq, Prod.mk.injEq] at hr
    exact Or.inl ⟨hcond, hr.2.symm⟩
  · rename_i hcond
    refine Or.inr ⟨fun b hb => lt_of_not_ge fun hle => hcond ⟨b, hb, hle⟩, ?_⟩
    simp only [Outcome.bind_eq_ok, Outcome.pure_eq, Outcome.ok.injEq, Prod.mk.injEq] at hr
    obtain ⟨n, hn, i, hi, -, -, -, rfl⟩ := hr
    have hsound := h.withDeletedBefore (some t)
    have hforget : ∀ d x, n = s.numDeletedSteps + d → s.steps[d]? = some x → i = d := by
      rintro d x rfl -
      exact (Outcome.ok.inj ((usizeSub_add_left _ _).symm.trans hi)).symm
    rcases latestCheckpoint_of_ok hsound hn with ⟨d, x, hnd, hx⟩ | ⟨hbefore, hmem⟩
    · obtain rfl := hforget d x hnd hx.get
      refine ⟨i, x, hx.get, hx.checkpoint, ?_, hnd ▸ hn,
        Or.inl ⟨hx.get, hx.checkpoint, hx.le, hx.after⟩⟩
      rw [hnd]; rfl
    · obtain ⟨d, x, hnd, hx, hxu⟩ := hsound.exists_of_checkpoint hmem
      obtain rfl := hforget d x hnd hx
      refine ⟨i, x, hx, hxu, ?_, hnd ▸ hn, Or.inr hbefore⟩
      rw [hnd]; rfl

end Build

end Steps

end Cozal
