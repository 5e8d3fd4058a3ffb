import Cozal.Source.Steps
import Cozal.Transposer.Chain

namespace Cozal

open Transposer

/-!
# What a call can do to the steps

Every call on `Steps` changes it by a few moves.  This file says what the moves are, and that
each keeps the representation invariant; `Cozal.Source.Calls` shows that calls are made of them.

* `Steps.Move` — push the next step, saturate a step at the cost of a checkpoint or of the
  first step, forget the steps before a checkpoint, poll a step.
* `Steps.Sound` — the invariant.  The last step is the only one that may still produce events,
  it is never given up half way, and while it is unsaturated the one before it is saturated.
* `Steps.Move.sound` — the moves keep it.
* `Steps.Move.last` — what a move does to the last step.
-/

variable {T : Type} [Transposer T]

/-- The step at the start of its future. -/
def Step.started (step : Step T) (f : SaturationFuture T) : Step T :=
  { step with status := .saturating f none .new }

namespace Steps

/-! ### Moves -/

/-- The step that is pushed after a saturated last one. -/
def nextStep (s : Steps T) (last : Step T) (k : ScheduledTime (Time T)) : Step T where
  data := .scheduled k
  status := .unsaturated
  eventCount := 0
  canProduceEvents := true
  uuidSelf := s.numDeletedSteps + s.steps.length
  uuidPrev := some last.uuidSelf

/-- The steps when the one at index `d`, if any, has lost its state. -/
def desaturateAt (d : Option ℕ) (steps : List (Step T)) : List (Step T) :=
  match d with
  | none => steps
  | some d => steps.modify d Step.desaturate

/-- The checkpoints without the one at index `d`, if any. -/
def checkpointsWithout (s : Steps T) : Option ℕ → Finset ℕ
  | none => s.notUnsaturated
  | some d => s.notUnsaturated.erase (s.numDeletedSteps + d)

/-- The step at index `i` has started with the future `f`, and the checkpoint at index `d` is
    gone. -/
def saturatedAt (s : Steps T) (d : Option ℕ) (i : ℕ) (step : Step T) (f : SaturationFuture T) :
    Steps T :=
  { s with
    steps := (desaturateAt d s.steps).set i (step.started f)
    notUnsaturated := insert (s.numDeletedSteps + i) (s.checkpointsWithout d) }

/-- The second step has started with the future `f` and is the first one now. -/
def consumeFront (s : Steps T) (step : Step T) (rest : List (Step T)) (f : SaturationFuture T) :
    Steps T :=
  { s with
    steps := step.started f :: rest
    numDeletedSteps := s.numDeletedSteps + 1
    notUnsaturated := insert (s.numDeletedSteps + 1) (s.notUnsaturated.erase s.numDeletedSteps) }

/-- The steps before index `i` are gone, for a call of `delete_before` with `time`. -/
def forget (s : Steps T) (i : ℕ) (time : Time T) : Steps T :=
  { s with
    steps := s.steps.drop i
    numDeletedSteps := s.numDeletedSteps + i
    notUnsaturated := s.notUnsaturated.filter (s.numDeletedSteps + i ≤ ·)
    deletedBefore := some time }

/-- The step at `i` is the last checkpoint at or before `t`. -/
structure LatestCheckpoint (s : Steps T) (t : Time T) (i : ℕ) (x : Step T) : Prop where
  get : s.steps[i]? = some x
  checkpoint : x.isUnsaturated = false
  le : x.getTime ≤ t
  after : ∀ j y, i < j → s.steps[j]? = some y → y.getTime ≤ t → y.isUnsaturated = true

/-- The checkpoint at index `d` may be given up for the step at `j + 1`: it is not the first,
    no pinned time needs it, and it is not the last one unless the new step follows it. -/
structure Dispensable (s : Steps T) (pinnedTimes : List (Time T)) (j d : ℕ) : Prop where
  ne_zero : d ≠ 0
  checkpoint : ∃ x, s.steps[d]? = some x ∧ x.isUnsaturated = false
  not_last : ∀ y, s.steps.getLast? = some y →
    (y.isUnsaturated = false → d + 1 ≠ s.steps.length) ∧
      (y.isUnsaturated = true → d + 2 = s.steps.length → d = j)
  not_pinned : ∀ t ∈ pinnedTimes, ∀ x, ¬ s.LatestCheckpoint t d x

/-- What one part of a call does, while the times `pinnedTimes` are pinned. -/
inductive Move (pinnedTimes : List (Time T)) : Steps T → Steps T → Prop where
  | push {s last w k} : s.steps.getLast? = some last → last.status = .saturated w →
      w.metadata.getNextScheduledTime = some k →
      Move pinnedTimes s { s with steps := s.steps ++ [s.nextStep last k] }
  | saturate {s j prev w step f} (d : Option ℕ) : s.steps[j]? = some prev →
      prev.status = .saturated w → s.steps[j + 1]? = some step → step.status = .unsaturated →
      Step.saturationFuture step.data w step.eventCount = some f →
      (∀ d' ∈ d, s.Dispensable pinnedTimes j d') →
      Move pinnedTimes s (s.saturatedAt d (j + 1) step f)
  | consume {s front w step rest f b} : s.steps = front :: step :: rest →
      front.status = .saturated w → step.status = .unsaturated →
      Step.saturationFuture step.data w step.eventCount = some f →
      s.deletedBefore = some b → front.getTime < b →
      Move pinnedTimes s (s.consumeFront step rest f)
  | forget {s i x} (time : Time T) : s.steps[i]? = some x → x.isUnsaturated = false →
      (∀ b, s.deletedBefore = some b → b < time) → Move pinnedTimes s (s.forget i time)
  | poll {s i step p} (fuel : ℕ) (answers : List (Response T)) : s.steps[i]? = some step →
      step.isSaturating = true → step.poll fuel answers = .ok p →
      Move pinnedTimes s (s.setStep i p.step)

/-! ### The invariant -/

/-- The last step has not produced all its events unless it is saturated; while it is
    unsaturated the step before it is saturated, and it is the next one of that. -/
def LastStep (steps : List (Step T)) (x : Step T) : Prop :=
  match x.status with
  | .unsaturated => x.canProduceEvents = true ∧ ∃ i prev w k, i + 2 = steps.length ∧
      steps[i]? = some prev ∧ prev.status = .saturated w ∧
      w.metadata.getNextScheduledTime = some k ∧ x.data = .scheduled k
  | .saturating f _ _ => x.canProduceEvents = true ∧ InTime x.getTime f
  | .saturated w => x.canProduceEvents = false ∧ Drained x.getTime w

/-- The representation invariant of `Steps`. -/
structure Sound (s : Steps T) : Prop where
  sorted : SortedBy Step.getTime s.steps
  checkpoints : ∀ n, n ∈ s.notUnsaturated ↔
    ∃ i x, s.steps[i]? = some x ∧ x.isUnsaturated = false ∧ n = s.numDeletedSteps + i
  front : ∃ x, s.steps[0]? = some x ∧ x.isUnsaturated = false
  past : ∀ i x, s.steps[i]? = some x → i + 1 < s.steps.length → x.canProduceEvents = false
  last : ∀ i x, s.steps[i]? = some x → i + 1 = s.steps.length → LastStep s.steps x

/-- A saturated step is not unsaturated. -/
theorem isUnsaturated_of_saturated {x : Step T} {w : WrappedTransposer T}
    (h : x.status = .saturated w) : x.isUnsaturated = false := by
  simp [Step.isUnsaturated, h]

/-- A step with a future is not unsaturated. -/
theorem isUnsaturated_of_saturating {x : Step T} {f a ch} (h : x.status = .saturating f a ch) :
    x.isUnsaturated = false := by
  simp [Step.isUnsaturated, h]

/-- What is not unsaturated is saturating or saturated. -/
theorem isUnsaturated_eq_false_iff {x : Step T} :
    x.isUnsaturated = false ↔ x.isSaturating = true ∨ x.isSaturated = true := by
  cases hx : x.status <;>
    simp [Step.isUnsaturated, Step.isSaturating, Step.isSaturated, hx]

/-- A saturating step is not unsaturated. -/
theorem isSaturating_not_unsaturated {x : Step T} (h : x.isSaturating = true) :
    x.isUnsaturated = false :=
  isUnsaturated_eq_false_iff.mpr (Or.inl h)

/-- A step that is neither saturated nor saturating is unsaturated. -/
theorem isUnsaturated_of_neither {x : Step T} (hsat : x.isSaturated = false)
    (hsat' : x.isSaturating = false) : x.isUnsaturated = true := by
  by_contra hu
  rw [Bool.not_eq_true, isUnsaturated_eq_false_iff, hsat, hsat'] at hu
  simp at hu

/-- A step that is saturating is not saturated yet. -/
theorem isSaturating_not_saturated {x : Step T} (h : x.isSaturating = true) :
    x.isSaturated = false := by
  obtain ⟨f, a, ch, hst⟩ := Step.isSaturating_iff.mp h
  rw [Step.isSaturated, hst]

/-- Nor is one that is unsaturated. -/
theorem isUnsaturated_not_saturated {x : Step T} (h : x.isUnsaturated = true) :
    x.isSaturated = false := by
  rw [Step.isSaturated, Step.isUnsaturated_iff.mp h]

/-- A saturating step does not have the status of an unsaturated one. -/
theorem isSaturating_ne_unsaturated {x : Step T} (h : x.isSaturating = true) :
    x.status ≠ .unsaturated := by
  intro hu
  simp [Step.isSaturating, hu] at h

/-- A saturating step does not have the status of a saturated one. -/
theorem isSaturating_ne_saturated {x : Step T} (h : x.isSaturating = true)
    (w : WrappedTransposer T) : x.status ≠ .saturated w := by
  intro hw
  simp [Step.isSaturating, hw] at h

/-- A step that is unsaturated is not the one at the index of a step that is not. -/
theorem index_ne {steps : List (Step T)} {i j : ℕ} {x y : Step T} (hx : steps[i]? = some x)
    (hy : steps[j]? = some y) (hxu : x.isUnsaturated = true) (hyu : y.isUnsaturated = false) :
    i ≠ j := by
  rintro rfl
  rw [hx, Option.some.injEq] at hy
  rw [hy, hyu] at hxu
  cases hxu

/-- New steps keep the invariant: there is one, which is saturating. -/
theorem Sound.new (transposer : T) (startTime : Time T) (rngSeed : Seed T) :
    (Steps.new transposer startTime rngSeed).Sound where
  sorted := List.pairwise_singleton _ _
  checkpoints := by
    intro n
    constructor
    · intro hn
      exact ⟨0, _, rfl, rfl, by simpa [Steps.new] using hn⟩
    · rintro ⟨i, x, hx, -, rfl⟩
      have hi : i < 1 := (List.getElem?_eq_some_iff.mp hx).1
      simp only [Steps.new, Finset.mem_singleton]
      omega
  front := ⟨_, rfl, rfl⟩
  past := by
    intro i x _ hlt
    simp only [Steps.new, List.length_singleton] at hlt
    omega
  last := by
    intro i x hx hi
    obtain rfl : i = 0 := by
      simp only [Steps.new, List.length_singleton] at hi
      omega
    cases hx
    exact ⟨rfl, .init transposer rngSeed startTime 0⟩

namespace Sound

variable {s : Steps T}

/-- There is always a step. -/
theorem length_pos (h : s.Sound) : 0 < s.steps.length := by
  obtain ⟨x, hx, -⟩ := h.front
  exact (List.getElem?_eq_some_iff.mp hx).1

/-- There is a first step, and it is not unsaturated. -/
theorem exists_first (h : s.Sound) : ∃ x, s.steps.head? = some x ∧ s.steps[0]? = some x ∧
    x.isUnsaturated = false := by
  obtain ⟨x, hx, hu⟩ := h.front
  exact ⟨x, by rw [List.head?_eq_getElem?, hx], hx, hu⟩

/-- There is a last step, and it is in order. -/
theorem exists_last (h : s.Sound) : ∃ x, s.steps.getLast? = some x ∧
    s.steps[s.steps.length - 1]? = some x ∧ LastStep s.steps x := by
  have hpos := h.length_pos
  have hx : s.steps[s.steps.length - 1]? = some (s.steps[s.steps.length - 1]) :=
    List.getElem?_eq_getElem (by omega)
  exact ⟨_, by rw [List.getLast?_eq_getElem?, hx], hx, h.last _ _ hx (by omega)⟩

/-- A step that may still produce events is the last one. -/
theorem eq_last_of_canProduce (h : s.Sound) {i : ℕ} {x : Step T} (hx : s.steps[i]? = some x)
    (hc : x.canProduceEvents = true) : i + 1 = s.steps.length := by
  have hi := (List.getElem?_eq_some_iff.mp hx).1
  by_contra hne
  have hfalse := h.past i x hx (by omega)
  rw [hc] at hfalse
  cases hfalse

/-- The first stored sequence number is the first checkpoint. -/
theorem first_checkpoint (h : s.Sound) :
    OrdSet.first s.notUnsaturated = some s.numDeletedSteps := by
  obtain ⟨x, hx, hu⟩ := h.front
  refine OrdSet.first_eq_some.mpr ⟨(h.checkpoints _).mpr ⟨0, x, hx, hu, rfl⟩, ?_⟩
  intro n hn
  obtain ⟨i, -, -, -, rfl⟩ := (h.checkpoints n).mp hn
  omega

end Sound

/-! ### The moves keep the invariant -/

/-- The steps at each index are about the same thing. -/
def Alike (steps steps' : List (Step T)) : Prop :=
  steps'.length = steps.length ∧
    ∀ (i : ℕ) (x' : Step T), steps'[i]? = some x' → ∃ x, steps[i]? = some x ∧ x'.data = x.data

/-- Steps about the same things are in the same order. -/
theorem Alike.sorted {steps steps' : List (Step T)} (h : Alike steps steps')
    (hs : SortedBy Step.getTime steps) : SortedBy Step.getTime steps' := by
  rw [sortedBy_iff]
  intro i j x' y' hx' hy' hij
  obtain ⟨x, hx, hxd⟩ := h.2 i x' hx'
  obtain ⟨y, hy, hyd⟩ := h.2 j y' hy'
  have hlt := hs.lt hx hy hij
  simpa only [Step.getTime, hxd, hyd] using hlt

/-- The steps after a step has started and a checkpoint has been given up. -/
theorem getElem?_saturatedAt {s : Steps T} {d : Option ℕ} {i : ℕ} {step : Step T}
    {f : SaturationFuture T} (hstep : s.steps[i]? = some step) (m : ℕ) :
    (s.saturatedAt d i step f).steps[m]? =
      if m = i then some (step.started f)
      else if d = some m then s.steps[m]?.map Step.desaturate
      else s.steps[m]? := by
  have hi := (List.getElem?_eq_some_iff.mp hstep).1
  cases d with
  | none =>
    simp only [saturatedAt, desaturateAt, List.getElem?_set, reduceCtorEq, if_false]
    by_cases hm : m = i
    · subst hm; simp [hi]
    · simp [hm, Ne.symm hm]
  | some d =>
    simp only [saturatedAt, desaturateAt, List.getElem?_set, List.length_modify,
      List.getElem?_modify, Option.some.injEq]
    by_cases hm : m = i
    · subst hm; simp [hi]
    · by_cases hd : d = m
      · simp [hm, Ne.symm hm, hd]
      · simp [hm, Ne.symm hm, hd]

/-- Starting a step adds none. -/
theorem length_saturatedAt (s : Steps T) (d : Option ℕ) (i : ℕ) (step : Step T)
    (f : SaturationFuture T) : (s.saturatedAt d i step f).steps.length = s.steps.length := by
  cases d <;> simp [saturatedAt, desaturateAt]

/-- The step that starts. -/
theorem getElem?_saturatedAt_self {s : Steps T} {d : Option ℕ} {i : ℕ} {step : Step T}
    {f : SaturationFuture T} (hstep : s.steps[i]? = some step) :
    (s.saturatedAt d i step f).steps[i]? = some (step.started f) := by
  rw [getElem?_saturatedAt hstep, if_pos rfl]

/-- The steps that neither start nor are given up. -/
theorem getElem?_saturatedAt_of_ne {s : Steps T} {d : Option ℕ} {i : ℕ} {step : Step T}
    {f : SaturationFuture T} (hstep : s.steps[i]? = some step) {m : ℕ} (hm : m ≠ i)
    (hd : d ≠ some m) : (s.saturatedAt d i step f).steps[m]? = s.steps[m]? := by
  rw [getElem?_saturatedAt hstep, if_neg hm, if_neg hd]

/-- The checkpoints that are left are those at other indices. -/
theorem mem_checkpointsWithout {s : Steps T} {d : Option ℕ} {n : ℕ} :
    n ∈ s.checkpointsWithout d ↔
      n ∈ s.notUnsaturated ∧ ∀ d' ∈ d, n ≠ s.numDeletedSteps + d' := by
  cases d with
  | none => simp [checkpointsWithout]
  | some d => simp [checkpointsWithout, and_comm]

/-- Where a step stands after a step has started and a checkpoint has been given up: it is the
    one that has started, the one that has lost its state, or as it was. -/
theorem saturatedAt_cases {s : Steps T} {d : Option ℕ} {i : ℕ} {step : Step T}
    {f : SaturationFuture T} (hstep : s.steps[i]? = some step) {m : ℕ} {x' : Step T}
    (hx' : (s.saturatedAt d i step f).steps[m]? = some x') :
    (m = i ∧ x' = step.started f) ∨
    (m ≠ i ∧ d = some m ∧ ∃ x, s.steps[m]? = some x ∧ x' = x.desaturate) ∨
    (m ≠ i ∧ d ≠ some m ∧ s.steps[m]? = some x') := by
  rw [getElem?_saturatedAt hstep] at hx'
  by_cases hm : m = i
  · rw [if_pos hm, Option.some.injEq] at hx'
    exact Or.inl ⟨hm, hx'.symm⟩
  · rw [if_neg hm] at hx'
    by_cases hd : d = some m
    · rw [if_pos hd, Option.map_eq_some_iff] at hx'
      obtain ⟨x, hx, hxe⟩ := hx'
      exact Or.inr (Or.inl ⟨hm, hd, x, hx, hxe.symm⟩)
    · rw [if_neg hd] at hx'
      exact Or.inr (Or.inr ⟨hm, hd, hx'⟩)

/-- After a push a step is one there was, or the one that has been pushed. -/
theorem push_cases {steps : List (Step T)} {y x : Step T} {i : ℕ}
    (hx : (steps ++ [y])[i]? = some x) : steps[i]? = some x ∨ i = steps.length ∧ x = y := by
  rcases Nat.lt_or_ge i steps.length with hi | hi
  · rw [List.getElem?_append_left hi] at hx
    exact Or.inl hx
  · have hi' := (List.getElem?_eq_some_iff.mp hx).1
    rw [List.length_append, List.length_singleton] at hi'
    obtain rfl : i = steps.length := by omega
    rw [List.getElem?_concat_length, Option.some.injEq] at hx
    exact Or.inr ⟨rfl, hx.symm⟩

/-- A pushed step leaves the others at their indices. -/
theorem getElem?_push {steps : List (Step T)} {x : Step T} {i : ℕ} (hx : steps[i]? = some x)
    (y : Step T) : (steps ++ [y])[i]? = some x := by
  rw [List.getElem?_append_left (List.getElem?_eq_some_iff.mp hx).1, hx]

/-- After the second step has taken the place of the first one, the steps are that one and the
    ones that follow it. -/
theorem consumeFront_cases {s : Steps T} {front step : Step T} {rest : List (Step T)}
    {f : SaturationFuture T} (hs : s.steps = front :: step :: rest) {i : ℕ} {x' : Step T}
    (hx' : (s.consumeFront step rest f).steps[i]? = some x') :
    (i = 0 ∧ x' = step.started f) ∨ (i ≠ 0 ∧ s.steps[i + 1]? = some x') := by
  cases i with
  | zero => exact Or.inl ⟨rfl, by simpa [consumeFront] using hx'.symm⟩
  | succ i =>
    refine Or.inr ⟨by omega, ?_⟩
    rw [hs]
    exact hx'

/-- Writing a step adds none. -/
theorem length_setStep (s : Steps T) (i : ℕ) (y : Step T) :
    (s.setStep i y).steps.length = s.steps.length :=
  List.length_set

/-- The step that has been replaced. -/
theorem getElem?_setStep_self {s : Steps T} {i : ℕ} {step : Step T}
    (hstep : s.steps[i]? = some step) (y : Step T) : (s.setStep i y).steps[i]? = some y :=
  List.getElem?_set_self (List.getElem?_eq_some_iff.mp hstep).1

/-- The steps that have not. -/
theorem getElem?_setStep_of_ne {s : Steps T} {i m : ℕ} (hm : m ≠ i) (y : Step T) :
    (s.setStep i y).steps[m]? = s.steps[m]? :=
  List.getElem?_set_ne hm.symm

/-- A step that is written replaces the one at its index only. -/
theorem setStep_cases {s : Steps T} {i m : ℕ} {step y x' : Step T}
    (hstep : s.steps[i]? = some step) (hx' : (s.setStep i y).steps[m]? = some x') :
    (m = i ∧ x' = y) ∨ (m ≠ i ∧ s.steps[m]? = some x') := by
  by_cases hm : m = i
  · subst hm
    rw [getElem?_setStep_self hstep, Option.some.injEq] at hx'
    exact Or.inl ⟨rfl, hx'.symm⟩
  · rw [getElem?_setStep_of_ne hm] at hx'
    exact Or.inr ⟨hm, hx'⟩

/-- The last step starts in time from the saturated step before it. -/
theorem LastStep.start {steps : List (Step T)} {step prev : Step T} {w : WrappedTransposer T}
    {f : SaturationFuture T} {j : ℕ} (h : LastStep steps step)
    (hunsat : step.status = .unsaturated) (hj : j + 2 = steps.length)
    (hprev : steps[j]? = some prev) (hw : prev.status = .saturated w)
    (hf : Step.saturationFuture step.data w step.eventCount = some f) :
    step.canProduceEvents = true ∧ InTime step.getTime f := by
  simp only [LastStep, hunsat] at h
  obtain ⟨hcan, i, prev', w', k, hi, hprev', hw', hk, hdata⟩ := h
  obtain rfl : i = j := by omega
  rw [hprev, Option.some.injEq] at hprev'
  subst hprev'
  rw [hw, StepStatus.saturated.injEq] at hw'
  subst hw'
  simp only [hdata, Step.saturationFuture, Option.some.injEq] at hf
  subst hf
  refine ⟨hcan, ?_⟩
  simp only [Step.getTime, hdata]
  exact .handleScheduled hk _

/-- The last step may produce events exactly until it is saturated. -/
theorem LastStep.canProduceEvents {steps : List (Step T)} (h : LastStep steps x) :
    x.canProduceEvents = !x.isSaturated := by
  cases hx : x.status with
  | unsaturated | saturating f a ch =>
    simp only [LastStep, hx] at h
    simp only [Step.isSaturated, hx, h.1, Bool.not_false]
  | saturated w =>
    simp only [LastStep, hx] at h
    simp only [Step.isSaturated, hx, h.1, Bool.not_true]

/-- The last step stays in order while the step before it keeps its state. -/
theorem LastStep.of_prev {steps steps' : List (Step T)} {x : Step T} (h : LastStep steps x)
    (hprev : ∀ i prev w, i + 2 = steps.length → steps[i]? = some prev →
      prev.status = .saturated w → x.status = .unsaturated →
      ∃ i', i' + 2 = steps'.length ∧ steps'[i']? = some prev) : LastStep steps' x := by
  cases hx : x.status with
  | unsaturated =>
    simp only [LastStep, hx] at h ⊢
    obtain ⟨hcan, i, prev, w, k, hi, hp, hw, hk, hdata⟩ := h
    obtain ⟨i', hi', hp'⟩ := hprev i prev w hi hp hw hx
    exact ⟨hcan, i', prev, w, k, hi', hp', hw, hk, hdata⟩
  | saturating f a ch => simpa only [LastStep, hx] using h
  | saturated w => simpa only [LastStep, hx] using h

namespace Sound

variable {s : Steps T}

/-- Pushing the next step. -/
theorem push (h : s.Sound) {last : Step T} {w : WrappedTransposer T}
    {k : ScheduledTime (Time T)} (hlast : s.steps.getLast? = some last)
    (hw : last.status = .saturated w) (hk : w.metadata.getNextScheduledTime = some k) :
    Sound { s with steps := s.steps ++ [s.nextStep last k] } := by
  have hpos := h.length_pos
  rw [List.getLast?_eq_getElem?] at hlast
  have hend := h.last _ last hlast (by omega)
  simp only [LastStep, hw] at hend
  obtain ⟨hcan, hdrained⟩ := hend
  constructor
  case sorted =>
    refine List.pairwise_append.mpr ⟨h.sorted, List.pairwise_singleton _ _, ?_⟩
    intro x hx y hy
    rw [List.mem_singleton.mp hy]
    -- the new step is later than the last one, which was the latest
    obtain ⟨i, hi⟩ := List.getElem?_of_mem hx
    have hlt : last.getTime < k.time := hdrained.next_lt hk
    rcases Nat.lt_or_ge i (s.steps.length - 1) with hlt' | hge
    · exact (h.sorted.lt hi hlast hlt').trans hlt
    · have hi' := (List.getElem?_eq_some_iff.mp hi).1
      obtain rfl : i = s.steps.length - 1 := by omega
      rw [hlast, Option.some.injEq] at hi
      exact hi ▸ hlt
  case checkpoints =>
    intro n
    rw [h.checkpoints n]
    constructor
    · rintro ⟨i, x, hx, hu, hn⟩
      exact ⟨i, x, getElem?_push hx _, hu, hn⟩
    · rintro ⟨i, x, hx, hu, hn⟩
      rcases push_cases hx with hx | ⟨-, rfl⟩
      · exact ⟨i, x, hx, hu, hn⟩
      · cases hu
  case front =>
    obtain ⟨x, hx, hu⟩ := h.front
    exact ⟨x, getElem?_push hx _, hu⟩
  case past =>
    intro i x hx hlt
    simp only [List.length_append, List.length_singleton] at hlt
    rcases push_cases hx with hx | ⟨rfl, -⟩
    · rcases Nat.lt_or_ge (i + 1) s.steps.length with hlt' | hge
      · exact h.past i x hx hlt'
      · obtain rfl : i = s.steps.length - 1 := by omega
        rw [hlast, Option.some.injEq] at hx
        exact hx ▸ hcan
    · omega
  case last =>
    intro i x hx hi
    simp only [List.length_append, List.length_singleton] at hi
    rcases push_cases hx with hx | ⟨-, rfl⟩
    · have hi' := (List.getElem?_eq_some_iff.mp hx).1
      omega
    · refine ⟨rfl, s.steps.length - 1, last, w, k, ?_, getElem?_push hlast _, hw, hk, rfl⟩
      simp only [List.length_append, List.length_singleton]
      omega

/-- Saturating a step at the cost of a checkpoint. -/
theorem saturate (h : s.Sound) {j : ℕ} {prev step : Step T} {w : WrappedTransposer T}
    {f : SaturationFuture T} {d : Option ℕ} {pinnedTimes : List (Time T)}
    (hprev : s.steps[j]? = some prev) (hw : prev.status = .saturated w)
    (hstep : s.steps[j + 1]? = some step) (hunsat : step.status = .unsaturated)
    (hf : Step.saturationFuture step.data w step.eventCount = some f)
    (hd : ∀ d' ∈ d, s.Dispensable pinnedTimes j d') : (s.saturatedAt d (j + 1) step f).Sound := by
  have hstepu : step.isUnsaturated = true := Step.isUnsaturated_iff.mpr hunsat
  have hlen := s.length_saturatedAt d (j + 1) step f
  constructor
  case sorted =>
    refine Alike.sorted ⟨hlen, ?_⟩ h.sorted
    intro i x' hx'
    rcases saturatedAt_cases hstep hx' with ⟨rfl, rfl⟩ | ⟨-, -, x, hx, rfl⟩ | ⟨-, -, hx⟩
    · exact ⟨step, hstep, rfl⟩
    · exact ⟨x, hx, rfl⟩
    · exact ⟨x', hx, rfl⟩
  case checkpoints =>
    intro n
    simp only [saturatedAt, Finset.mem_insert, mem_checkpointsWithout, h.checkpoints n]
    constructor
    · rintro (rfl | ⟨⟨i, x, hx, hu, rfl⟩, hne⟩)
      · exact ⟨j + 1, step.started f, getElem?_saturatedAt_self hstep, rfl, rfl⟩
      · -- a checkpoint that is kept is not the step that starts
        have hij : i ≠ j + 1 := (index_ne hstep hx hstepu hu).symm
        have hdi : d ≠ some i := fun hdi => hne i hdi rfl
        exact ⟨i, x, (getElem?_saturatedAt_of_ne hstep hij hdi).trans hx, hu, rfl⟩
    · rintro ⟨i, x', hx', hu, rfl⟩
      rcases saturatedAt_cases hstep hx' with ⟨rfl, rfl⟩ | ⟨-, -, x, hx, rfl⟩ | ⟨-, hdi, hx⟩
      · exact Or.inl rfl
      · cases hu
      · refine Or.inr ⟨⟨i, x', hx, hu, rfl⟩, ?_⟩
        intro d' hd' heq
        obtain rfl : i = d' := by omega
        exact hdi hd'
  case front =>
    obtain ⟨x, hx, hu⟩ := h.front
    have hd0 : d ≠ some 0 := fun hd0 => (hd 0 hd0).ne_zero rfl
    exact ⟨x, (getElem?_saturatedAt_of_ne hstep (by omega) hd0).trans hx, hu⟩
  case past =>
    intro i x' hx' hlt
    rw [hlen] at hlt
    rcases saturatedAt_cases hstep hx' with ⟨rfl, rfl⟩ | ⟨-, -, x, hx, rfl⟩ | ⟨-, -, hx⟩
    · exact h.past _ step hstep hlt
    · exact h.past i x hx hlt
    · exact h.past i x' hx hlt
  case last =>
    intro i x' hx' hi
    rw [hlen] at hi
    rcases saturatedAt_cases hstep hx' with ⟨rfl, rfl⟩ | ⟨-, hdi, x, hx, rfl⟩ | ⟨hne, hdi, hx⟩
    · exact (h.last _ step hstep hi).start hunsat (by omega) hprev hw hf
    · -- the last step is not given up when it is a checkpoint
      have hdisp := hd i hdi
      obtain ⟨y, hy, hyu⟩ := hdisp.checkpoint
      rw [hx, Option.some.injEq] at hy
      subst hy
      have hlast : s.steps.getLast? = some x := by
        rw [List.getLast?_eq_getElem?, show s.steps.length - 1 = i by omega]
        exact hx
      exact absurd hi ((hdisp.not_last x hlast).1 hyu)
    · refine (h.last i x' hx hi).of_prev ?_
      intro i' prev' w' hi' hp' hw' hxu
      have hne' : i' ≠ j + 1 :=
        (index_ne hstep hp' hstepu (isUnsaturated_of_saturated hw')).symm
      -- nor is the step before it, unless the last step is the one that starts
      have hdi' : d ≠ some i' := by
        intro hdi'
        have hlast : s.steps.getLast? = some x' := by
          rw [List.getLast?_eq_getElem?, show s.steps.length - 1 = i by omega]
          exact hx
        have hij := ((hd i' hdi').not_last x' hlast).2 (Step.isUnsaturated_iff.mpr hxu) hi'
        omega
      exact ⟨i', by rw [hlen]; exact hi',
        (getElem?_saturatedAt_of_ne hstep hne' hdi').trans hp'⟩

/-- Saturating the second step at the cost of the first one. -/
theorem consume (h : s.Sound) {front step : Step T} {rest : List (Step T)}
    {w : WrappedTransposer T} {f : SaturationFuture T} (hs : s.steps = front :: step :: rest)
    (hw : front.status = .saturated w) (hunsat : step.status = .unsaturated)
    (hf : Step.saturationFuture step.data w step.eventCount = some f) :
    (s.consumeFront step rest f).Sound := by
  have hlen : s.steps.length = rest.length + 2 := by rw [hs]; rfl
  have hstep : s.steps[1]? = some step := by rw [hs]; rfl
  have hstepu : step.isUnsaturated = true := Step.isUnsaturated_iff.mpr hunsat
  constructor
  case sorted =>
    rw [sortedBy_iff]
    intro i i' x x' hx hx' hlt
    have htime : ∀ {i : ℕ} {x : Step T}, (s.consumeFront step rest f).steps[i]? = some x →
        ∃ y, s.steps[i + 1]? = some y ∧ y.getTime = x.getTime := by
      intro i x hx
      rcases consumeFront_cases hs hx with ⟨rfl, rfl⟩ | ⟨-, hx⟩
      · exact ⟨step, hstep, rfl⟩
      · exact ⟨x, hx, rfl⟩
    obtain ⟨y, hy, hyt⟩ := htime hx
    obtain ⟨y', hy', hyt'⟩ := htime hx'
    rw [← hyt, ← hyt']
    exact h.sorted.lt hy hy' (by omega)
  case checkpoints =>
    intro n
    simp only [consumeFront, Finset.mem_insert, Finset.mem_erase]
    rw [h.checkpoints n]
    constructor
    · rintro (rfl | ⟨hne, i, x, hx, hu, rfl⟩)
      · exact ⟨0, _, rfl, rfl, rfl⟩
      · have hi : i ≠ 0 := by rintro rfl; exact hne rfl
        have hi' : i ≠ 1 := (index_ne hstep hx hstepu hu).symm
        obtain ⟨m, rfl⟩ : ∃ m, i = m + 2 := ⟨i - 2, by omega⟩
        refine ⟨m + 1, x, ?_, hu, by omega⟩
        rw [hs] at hx
        exact hx
    · rintro ⟨i, x', hx', hu, rfl⟩
      rcases consumeFront_cases hs hx' with ⟨rfl, rfl⟩ | ⟨hi, hx⟩
      · exact Or.inl rfl
      · exact Or.inr ⟨by omega, i + 1, x', hx, hu, by omega⟩
  case front =>
    exact ⟨_, rfl, rfl⟩
  case past =>
    intro i x' hx' hlt
    simp only [consumeFront, List.length_cons] at hlt
    rcases consumeFront_cases hs hx' with ⟨rfl, rfl⟩ | ⟨-, hx⟩
    · exact h.past 1 step hstep (by omega)
    · exact h.past (i + 1) x' hx (by omega)
  case last =>
    intro i x' hx' hi
    simp only [consumeFront, List.length_cons] at hi
    rcases consumeFront_cases hs hx' with ⟨rfl, rfl⟩ | ⟨hne, hx⟩
    · have hfront : s.steps[0]? = some front := by rw [hs]; rfl
      exact (h.last 1 step hstep (by omega)).start hunsat (by omega) hfront hw hf
    · refine (h.last (i + 1) x' hx (by omega)).of_prev ?_
      intro i' prev' w' hi' hp' hw' _
      -- the step before the last one is not the one that starts, which is unsaturated
      have hi'' : i' ≠ 1 :=
        (index_ne hstep hp' hstepu (isUnsaturated_of_saturated hw')).symm
      obtain ⟨m, rfl⟩ : ∃ m, i' = m + 2 := ⟨i' - 2, by omega⟩
      refine ⟨m + 1, ?_, ?_⟩
      · simp only [consumeFront, List.length_cons]; omega
      · rw [hs] at hp'
        exact hp'

/-- Forgetting the steps before a checkpoint. -/
theorem forget (h : s.Sound) {i : ℕ} {x : Step T} (time : Time T) (hx : s.steps[i]? = some x)
    (hu : x.isUnsaturated = false) : (s.forget i time).Sound := by
  have hi := (List.getElem?_eq_some_iff.mp hx).1
  have hget : ∀ m, (s.forget i time).steps[m]? = s.steps[i + m]? := by
    intro m
    simp only [Steps.forget, List.getElem?_drop]
  have hlen : (s.forget i time).steps.length = s.steps.length - i := by
    simp [Steps.forget]
  constructor
  case sorted => exact h.sorted.drop
  case checkpoints =>
    intro n
    simp only [Steps.forget, Finset.mem_filter]
    rw [h.checkpoints n]
    constructor
    · rintro ⟨⟨m, y, hy, hyu, rfl⟩, hle⟩
      refine ⟨m - i, y, ?_, hyu, by omega⟩
      rw [List.getElem?_drop, show i + (m - i) = m by omega]
      exact hy
    · rintro ⟨m, y, hy, hyu, rfl⟩
      rw [List.getElem?_drop] at hy
      exact ⟨⟨i + m, y, hy, hyu, by omega⟩, by omega⟩
  case front =>
    exact ⟨x, by rw [hget]; exact hx, hu⟩
  case past =>
    intro m y hy hlt
    rw [hget] at hy
    exact h.past _ y hy (by omega)
  case last =>
    intro m y hy hm
    rw [hget] at hy
    refine (h.last _ y hy (by omega)).of_prev ?_
    intro m' prev w hm' hp hw hyu
    -- the last step is unsaturated, so it is not the one that is kept as the first
    have hne : i + m ≠ i := index_ne hy hx (Step.isUnsaturated_iff.mpr hyu) hu
    refine ⟨m' - i, by omega, ?_⟩
    rw [hget, show i + (m' - i) = m' by omega]
    exact hp

/-- Polling a step. -/
theorem poll (h : s.Sound) {i fuel : ℕ} {step : Step T} {answers : List (Response T)}
    {p : StepPolled T} (hstep : s.steps[i]? = some step) (hsat : step.isSaturating = true)
    (hp : step.poll fuel answers = .ok p) : (s.setStep i p.step).Sound := by
  obtain ⟨f, a, ch, hst⟩ := Step.isSaturating_iff.mp hsat
  obtain ⟨hdata, -, -, hcases⟩ := Step.poll_run hst hp
  have hlen := s.length_setStep i p.step
  have hsu : step.isUnsaturated = false := isUnsaturated_of_saturating hst
  have hpu : p.step.isUnsaturated = false := by
    rcases hcases with ⟨w, g, -, hw, -⟩ | ⟨g, a', ch', hg, -⟩
    · exact isUnsaturated_of_saturated hw
    · exact isUnsaturated_of_saturating hg
  constructor
  case sorted =>
    refine Alike.sorted ⟨hlen, ?_⟩ h.sorted
    intro m x' hx'
    rcases setStep_cases hstep hx' with ⟨rfl, rfl⟩ | ⟨-, hx⟩
    · exact ⟨step, hstep, hdata⟩
    · exact ⟨x', hx, rfl⟩
  case checkpoints =>
    intro n
    show n ∈ s.notUnsaturated ↔ _
    rw [h.checkpoints n]
    constructor
    · rintro ⟨m, x, hx, hu, rfl⟩
      by_cases hm : m = i
      · subst hm
        exact ⟨m, p.step, getElem?_setStep_self hstep _, hpu, rfl⟩
      · exact ⟨m, x, (getElem?_setStep_of_ne hm _).trans hx, hu, rfl⟩
    · rintro ⟨m, x', hx', hu, rfl⟩
      rcases setStep_cases hstep hx' with ⟨rfl, -⟩ | ⟨-, hx⟩
      · exact ⟨m, step, hstep, hsu, rfl⟩
      · exact ⟨m, x', hx, hu, rfl⟩
  case front =>
    obtain ⟨x, hx, hu⟩ := h.front
    by_cases h0 : 0 = i
    · subst h0
      exact ⟨p.step, getElem?_setStep_self hstep _, hpu⟩
    · exact ⟨x, (getElem?_setStep_of_ne h0 _).trans hx, hu⟩
  case past =>
    intro m x' hx' hlt
    rw [hlen] at hlt
    rcases setStep_cases hstep hx' with ⟨rfl, rfl⟩ | ⟨-, hx⟩
    · -- a poll does not make a step produce events again
      have hfalse := h.past m step hstep hlt
      rcases hcases with ⟨w, g, -, -, hc, -⟩ | ⟨g, a', ch', -, hc, -⟩
      · exact hc
      · exact hc.trans hfalse
    · exact h.past m x' hx hlt
  case last =>
    intro m x' hx' hm'
    rw [hlen] at hm'
    rcases setStep_cases hstep hx' with ⟨rfl, rfl⟩ | ⟨-, hx⟩
    · have hend := h.last m step hstep hm'
      simp only [LastStep, hst] at hend
      obtain ⟨hcan, htime⟩ := hend
      have ht := Step.getTime_eq hdata
      rcases hcases with ⟨w, g, -, hw, hc, -, hr, hg⟩ | ⟨g, a', ch', hg, hc, hr, -⟩
      · simp only [LastStep, hw]
        exact ⟨hc, by rw [ht]; exact (htime.run hr).drained hg⟩
      · simp only [LastStep, hg]
        exact ⟨hc.trans hcan, by rw [ht]; exact htime.run hr⟩
    · refine (h.last m x' hx hm').of_prev ?_
      intro m' prev w hm'' hp' hw _
      -- a saturating step is not the saturated one before the last step
      have hne : m' ≠ i := by
        rintro rfl
        rw [hstep, Option.some.injEq] at hp'
        rw [← hp', hst] at hw
        cases hw
      exact ⟨m', by rw [hlen]; exact hm'', (getElem?_setStep_of_ne hne _).trans hp'⟩

end Sound

/-- **The moves keep the representation invariant.** -/
theorem Move.sound {pinnedTimes : List (Time T)} {s s' : Steps T} (h : Move pinnedTimes s s')
    (hs : s.Sound) : s'.Sound := by
  cases h with
  | push hlast hw hk => exact hs.push hlast hw hk
  | saturate d hprev hw hstep hunsat hf hd => exact hs.saturate hprev hw hstep hunsat hf hd
  | consume heq hw hunsat hf _ _ => exact hs.consume heq hw hunsat hf
  | forget time hx hu _ => exact hs.forget time hx hu
  | poll fuel answers hstep hsat hp => exact hs.poll hstep hsat hp

/-! ### The last step -/

section Last

variable {s s' : Steps T} {x : Step T}

/-- No step is added or dropped behind the ones there are. -/
theorem total_saturatedAt (s : Steps T) (d : Option ℕ) (i : ℕ) (step : Step T)
    (f : SaturationFuture T) : (s.saturatedAt d i step f).numDeletedSteps
      + (s.saturatedAt d i step f).steps.length = s.numDeletedSteps + s.steps.length := by
  rw [length_saturatedAt]
  rfl

/-- A step that is consumed is counted as deleted. -/
theorem total_consumeFront {s : Steps T} {front step : Step T} {rest : List (Step T)}
    (hs : s.steps = front :: step :: rest) (f : SaturationFuture T) :
    (s.consumeFront step rest f).numDeletedSteps + (s.consumeFront step rest f).steps.length
      = s.numDeletedSteps + s.steps.length := by
  rw [hs]
  simp only [consumeFront, List.length_cons]
  omega

/-- Steps that are forgotten are counted as deleted. -/
theorem total_forget {s : Steps T} {i : ℕ} {x : Step T} (hx : s.steps[i]? = some x)
    (time : Time T) : (s.forget i time).numDeletedSteps + (s.forget i time).steps.length
      = s.numDeletedSteps + s.steps.length := by
  have hi := (List.getElem?_eq_some_iff.mp hx).1
  show s.numDeletedSteps + i + (s.steps.drop i).length = _
  rw [List.length_drop]
  omega

/-- The last step starts, or it stays as it is, when some step starts. -/
theorem last_saturatedAt {pinnedTimes : List (Time T)} {j : ℕ} {step : Step T}
    {f : SaturationFuture T} {d : Option ℕ} (hstep : s.steps[j + 1]? = some step)
    (hunsat : step.status = .unsaturated)
    (hd : ∀ d' ∈ d, s.Dispensable pinnedTimes j d') (hx : s.steps.getLast? = some x) :
    (s.saturatedAt d (j + 1) step f).steps.getLast? = some x ∨
      x.status = .unsaturated ∧
        (s.saturatedAt d (j + 1) step f).steps.getLast? = some (x.started f) := by
  have hlen := s.length_saturatedAt d (j + 1) step f
  have hj := (List.getElem?_eq_some_iff.mp hstep).1
  rw [List.getLast?_eq_getElem?] at hx ⊢
  rw [hlen]
  by_cases hlast : s.steps.length - 1 = j + 1
  · rw [hlast, hstep, Option.some.injEq] at hx
    subst hx
    rw [hlast]
    exact Or.inr ⟨hunsat, getElem?_saturatedAt_self hstep⟩
  · -- a last step that is a checkpoint is not given up
    have hkept : d ≠ some (s.steps.length - 1) := by
      intro hdlast
      have hdisp := hd _ hdlast
      obtain ⟨y, hy, hyu⟩ := hdisp.checkpoint
      rw [← List.getLast?_eq_getElem?] at hy
      exact (hdisp.not_last y hy).1 hyu (by omega)
    exact Or.inl ((getElem?_saturatedAt_of_ne hstep hlast hkept).trans hx)

/-- Consuming the first step leaves the last one, unless that is the one that starts. -/
theorem last_consumeFront {front step : Step T} {rest : List (Step T)} {f : SaturationFuture T}
    (heq : s.steps = front :: step :: rest) (hunsat : step.status = .unsaturated)
    (hx : s.steps.getLast? = some x) :
    (s.consumeFront step rest f).steps.getLast? = some x ∨
      x.status = .unsaturated ∧
        (s.consumeFront step rest f).steps.getLast? = some (x.started f) := by
  show (step.started f :: rest).getLast? = some x ∨
    x.status = .unsaturated ∧ (step.started f :: rest).getLast? = some (x.started f)
  rw [heq] at hx
  cases rest with
  | nil =>
    cases hx
    exact Or.inr ⟨hunsat, rfl⟩
  | cons y rest => exact Or.inl (by simpa using hx)

/-- Forgetting a checkpoint's predecessors leaves the last step. -/
theorem last_forget {i : ℕ} {y : Step T} (time : Time T) (hy : s.steps[i]? = some y)
    (hx : s.steps.getLast? = some x) : (s.forget i time).steps.getLast? = some x := by
  have hi := (List.getElem?_eq_some_iff.mp hy).1
  show (s.steps.drop i).getLast? = some x
  rw [List.getLast?_drop, if_neg (by omega), hx]

/-- What a move does to the last step, and how many steps it adds behind it. -/
inductive LastMoved (s : Steps T) (x : Step T) : ℕ → Step T → Prop where
  | same : LastMoved s x 0 x
  | push {w k} : x.status = .saturated w → w.metadata.getNextScheduledTime = some k →
      LastMoved s x 1 (s.nextStep x k)
  | start (f : SaturationFuture T) : x.status = .unsaturated → LastMoved s x 0 (x.started f)
  | poll {fuel answers p} : x.isSaturating = true → x.poll fuel answers = .ok p →
      LastMoved s x 0 p.step

/-- **Every move leaves the last step alone**, pushes the next one, starts it or polls it. -/
theorem Move.last {pinnedTimes : List (Time T)} (h : Move pinnedTimes s s')
    (hx : s.steps.getLast? = some x) :
    ∃ a x', s'.steps.getLast? = some x' ∧ LastMoved s x a x' ∧
      s'.numDeletedSteps + s'.steps.length = s.numDeletedSteps + s.steps.length + a := by
  cases h with
  | @push last w k hlast hw hk =>
    rw [hx, Option.some.injEq] at hlast
    subst hlast
    exact ⟨1, s.nextStep x k, List.getLast?_concat, .push hw hk, by simp [Nat.add_assoc]⟩
  | @saturate j _ _ step f d hprev hw hstep hunsat hf hd =>
    have htotal := s.total_saturatedAt d (j + 1) step f
    -- the step that starts is the last one, or stays clear of it
    rcases last_saturatedAt hstep hunsat hd hx with hsame | ⟨hxu, hstarted⟩
    · exact ⟨0, x, hsame, .same, htotal⟩
    · exact ⟨0, _, hstarted, .start _ hxu, htotal⟩
  | @consume _ _ step rest f _ heq _ hunsat _ _ _ =>
    have htotal := total_consumeFront heq f
    rcases last_consumeFront heq hunsat hx with hsame | ⟨hxu, hstarted⟩
    · exact ⟨0, x, hsame, .same, htotal⟩
    · exact ⟨0, _, hstarted, .start _ hxu, htotal⟩
  | forget time hy _ _ =>
    exact ⟨0, x, last_forget time hy hx, .same, total_forget hy time⟩
  | @poll i step p fuel answers hstep hsat hp =>
    rw [List.getLast?_eq_getElem?] at hx
    rw [List.getLast?_eq_getElem?, length_setStep]
    -- a poll changes no step but its own
    by_cases hlast : s.steps.length - 1 = i
    · rw [hlast, hstep, Option.some.injEq] at hx
      subst hx
      rw [hlast]
      exact ⟨0, p.step, getElem?_setStep_self hstep _, .poll hsat hp, rfl⟩
    · exact ⟨0, x, (getElem?_setStep_of_ne hlast _).trans hx, .same, rfl⟩

end Last

end Steps

end Cozal
