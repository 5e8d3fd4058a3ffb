import Cozal.Lib.OrdSet
import Cozal.Lib.SortedSearch
import Cozal.Transposer.Step

namespace Cozal

open Transposer

/-!
# The steps of a source

`Steps` keeps the time line of a transposer without inputs as a deque of steps.  Only some of
them are saturated: these are the checkpoints from which the others are computed again.

* `Steps.getBeforeOrAt`, `Steps.getBeforeOrAtEvents` — the step a poll needs, brought to a
  state in which it can be polled or interpolated.
* `Steps.saturate` — start a step from the one before it, at the cost of another checkpoint.
* `Steps.deleteBefore` — forget what no later poll needs.

A method that hands out a reference to a step gives its index in the deque here; whoever polls
the step puts it back with `Steps.setStep`.
-/

variable {T : Type} [Transposer T]

/-- The time line, as far as it is known and kept. -/
structure Steps (T : Type) [Transposer T] where
  steps : List (Step T)
  notUnsaturated : Finset ℕ
  numDeletedSteps : ℕ
  deletedBefore : Option (Time T)
  numberOfCheckpoints : ℕ

/-- The step a poll of the state needs: it can be interpolated, or it must be polled.  A step
    is given by its index in the deque. -/
inductive BeforeStatus (T : Type) [Transposer T] where
  | saturated (step : ℕ) (nextTime : Option (Time T))
  | saturating (step : ℕ) (stepIndex : ℕ)

/-- The step a poll of the events needs: none, or one that must be polled. -/
inductive BeforeStatusEvents (T : Type) [Transposer T] where
  | ready (nextTime : Option (Time T))
  | saturating (step : ℕ) (stepIndex : ℕ)

/-- What the search finds: the index of a saturated step or of a saturating one, or, for events
    only, that every step up to the time has been polled to its end. -/
inductive BeforeStatusInternal where
  | saturatedReady (i : ℕ)
  | saturating (i : ℕ)
  | allRepeat

/-- `usize::trailing_zeros` of a value of the given number of bits. -/
def trailingZerosOf : ℕ → ℕ → ℕ
  | 0, _ => 0
  | bits + 1, n => if n % 2 = 1 then 0 else 1 + trailingZerosOf bits (n / 2)

/-- `usize::trailing_zeros`, which is 64 for 0. -/
def trailingZeros (n : ℕ) : ℕ := trailingZerosOf 64 n

namespace Steps

/-- The first step is saturating, and there may be up to thirty checkpoints. -/
def new (transposer : T) (startTime : Time T) (rngSeed : Seed T) : Steps T where
  steps := [Step.newInit 0 transposer startTime rngSeed]
  notUnsaturated := {0}
  numDeletedSteps := 0
  deletedBefore := none
  numberOfCheckpoints := 30

/-- The stored step of a sequence number. -/
def getBySequenceNumber (s : Steps T) (n : ℕ) : Option (Step T) :=
  if s.numDeletedSteps ≤ n then s.steps[n - s.numDeletedSteps]? else none

/-- Put a step back at its index in the deque. -/
def setStep (s : Steps T) (i : ℕ) (step : Step T) : Steps T :=
  { s with steps := s.steps.set i step }

/-- The last step; the deque is never empty. -/
def getLast (s : Steps T) : Outcome (Step T) := Outcome.unwrap .dequeIndex s.steps.getLast?

/-- The time of the last step, if it is not saturated. -/
def getScheduledTime (s : Steps T) : Outcome (Option (Time T)) := do
  let step ← s.getLast
  return if step.isSaturated then none else some step.getTime

/-- `VecDeque::binary_search_by_key` for a time. -/
def binarySearchByTime (s : Steps T) (time : Time T) : Except ℕ ℕ :=
  binarySearchByKey Step.getTime s.steps time

/-- Pop unsaturated steps off the front. -/
def ensureFirstStepIsNotUnsaturated (s : Steps T) : Outcome (Steps T) :=
  let rec popUnsaturated : List (Step T) → ℕ → Outcome (List (Step T) × ℕ)
    | [], _ => .panic .dequeIndex
    | step :: rest, n =>
        if step.isUnsaturated then popUnsaturated rest (n + 1) else .ok (step :: rest, n)
  do
    let (steps, numDeletedSteps) ← popUnsaturated s.steps s.numDeletedSteps
    return { s with steps, numDeletedSteps }

/-- Take the state of a step, so that it is no checkpoint any more. -/
def desaturate (s : Steps T) (i : ℕ) : Outcome (Steps T) := do
  let step ← Outcome.unwrap .dequeIndex s.steps[i]?
  return { s.setStep i step.desaturate with
    notUnsaturated := s.notUnsaturated.erase (i + s.numDeletedSteps) }

/-- The step at an index and the one before it. -/
def getStepAndPrev (s : Steps T) (i : ℕ) : Outcome (Step T × Step T) :=
  match i with
  | 0 => .panic .dequeIndex
  | j + 1 => do
      let previous ← Outcome.unwrap .dequeIndex s.steps[j]?
      let step ← Outcome.unwrap .dequeIndex s.steps[j + 1]?
      return (previous, step)

/-- Push the next step when the last one is saturated and there is one. -/
def tryNextScheduled (s : Steps T) : Outcome (Steps T) := do
  let lastStep ← s.getLast
  if lastStep.isSaturated then
    let newStep ← Outcome.expect .nextUnsaturated
      (lastStep.nextScheduledUnsaturated (s.numDeletedSteps + s.steps.length))
    match newStep with
    | some step => return { s with steps := s.steps ++ [step] }
    | none => return s
  else return s

/-- The time of the first unsaturated step. -/
def earliestPollTime (s : Steps T) : Option (Time T) :=
  (s.steps.find? Step.isUnsaturated).map Step.getTime

section Build

variable [BuildProfile]

/-- In a debug build the first checkpoint has to be the first step. -/
def debugAssertions (s : Steps T) : Outcome Unit :=
  if BuildProfile.debugAssertions then do
    let first ← Outcome.unwrap .checkpoint (OrdSet.first s.notUnsaturated)
    Outcome.assert .assertion (s.numDeletedSteps = first)
  else return ()

/-- The sequence number of the last step. -/
def maxSequenceNumber (s : Steps T) : Outcome ℕ :=
  usizeSub (s.numDeletedSteps + s.steps.length) 1

/-- The sequence number of the last step before or at a time.  When there is none, `0 - 1`
    overflows: it panics, or it wraps and the sum with the number of deleted steps wraps back. -/
def sequenceNumberBeforeOrAt (s : Steps T) (time : Time T) : Outcome ℕ :=
  match s.binarySearchByTime time with
  | .ok i => .ok (i + s.numDeletedSteps)
  | .error (i + 1) => .ok (i + s.numDeletedSteps)
  | .error 0 =>
      if BuildProfile.debugAssertions then .panic .overflow
      else .ok (if s.numDeletedSteps = 0 then usizeSize - 1 else s.numDeletedSteps - 1)

/-- The last step before or at a time that is not unsaturated. -/
def getNotUnsaturatedBeforeOrAtTime (s : Steps T) (time : Time T) : Outcome ℕ := do
  let stepBefore ← s.sequenceNumberBeforeOrAt time
  Outcome.unwrap .checkpoint (OrdSet.last (s.notUnsaturated.filter (· ≤ stepBefore)))

/-- The steps of the pinned times. -/
def pinnedSteps (s : Steps T) : List (Time T) → Outcome (List ℕ)
  | [] => return []
  | t :: ts => do
      let i ← s.getNotUnsaturatedBeforeOrAtTime t
      let is ← s.pinnedSteps ts
      return i :: is

/-- The checkpoint to give up for a step that is about to be saturated: the first one, when
    the new step follows it and it lies before `deletedBefore`; else, when there are too many,
    one that is neither the first, nor the last one unless the new step follows it, nor one a
    pinned time needs. -/
def sequenceNumberToDelete (s : Steps T) (pinnedTimes : List (Time T)) (newlySaturated : ℕ) :
    Outcome (Option ℕ) := do
  let first ← Outcome.unwrap .checkpoint (OrdSet.first s.notUnsaturated)
  let front ← Outcome.unwrap .dequeIndex s.steps.head?
  if (∃ b ∈ s.deletedBefore, front.getTime < b) ∧ first + 1 = newlySaturated then
    return some first
  else if s.numberOfCheckpoints > s.notUnsaturated.card then return none
  else do
    let last ← Outcome.unwrap .checkpoint (OrdSet.last s.notUnsaturated)
    let pinned ← s.pinnedSteps pinnedTimes
    let neededSteps := first :: ((if last + 1 ≠ newlySaturated then [last] else []) ++ pinned)
    return OrdSet.minByKey trailingZeros (s.notUnsaturated.filter (· ∉ neededSteps))

/-- Saturate the step at an index from the one before it, which loses its state when it is
    taken. -/
def saturateAdjacent (s : Steps T) (i : ℕ) (take : Bool) : Outcome (Steps T) := do
  let (previous, step) ← s.getStepAndPrev i
  if take then
    let (result, step, previous) ← step.saturateTake previous
    Outcome.expect .saturateTake result
    let taken ← usizeSub (i + s.numDeletedSteps) 1
    return { (s.setStep (i - 1) previous).setStep i step with
      notUnsaturated := insert (i + s.numDeletedSteps) (s.notUnsaturated.erase taken) }
  else
    let (result, step) ← step.saturateClone previous
    Outcome.expect .saturateClone result
    return { s.setStep i step with
      notUnsaturated := insert (i + s.numDeletedSteps) s.notUnsaturated }

/-- Give up a checkpoint that is not next to the step about to be saturated; whether the one
    next to it is to be taken. -/
def evict (s : Steps T) (toDesaturate : Option ℕ) (stepToSaturate : ℕ) :
    Outcome (Steps T × Bool) :=
  match toDesaturate with
  | none => return (s, false)
  | some d => do
      let previous ← usizeSub stepToSaturate 1
      if d = previous then return (s, true)
      else
        let s ← s.desaturate (← usizeSub d s.numDeletedSteps)
        return (s, false)

/-- Saturate the step of a sequence number from the one before it. -/
def saturate (s : Steps T) (stepToSaturate : ℕ) (pinnedTimes : List (Time T)) :
    Outcome (Steps T) := do
  let toDesaturate ← s.sequenceNumberToDelete pinnedTimes stepToSaturate
  let (s, take) ← s.evict toDesaturate stepToSaturate
  let i ← usizeSub stepToSaturate s.numDeletedSteps
  let s ← s.saturateAdjacent i take
  s.ensureFirstStepIsNotUnsaturated

/-- The step a poll of the events at `time` needs. -/
def getBeforeOrAtEvents (s : Steps T) (time : Time T) (pinnedTimes : List (Time T)) :
    Outcome (BeforeStatusEvents T × Steps T) := do
  s.debugAssertions
  let s ← s.tryNextScheduled
  let lastStepIndex ← s.maxSequenceNumber
  let lastStep ← s.getLast
  if time < lastStep.getTime ∨ lastStep.canProduceEvents = false then
    return (.ready (if lastStep.canProduceEvents then some lastStep.getTime else none), s)
  else
    let s ← if lastStep.isUnsaturated then s.saturate lastStepIndex pinnedTimes else pure s
    return (.saturating (s.steps.length - 1) lastStepIndex, s)

/-- The loop of `get_before_or_at_internal`.  Its body shadows the index it counts down from,
    so that every round looks at the step before `i`; the fuel bounds the rounds. -/
def walkBack (s : Steps T) (pinnedTimes : List (Time T)) (i : ℕ) :
    ℕ → Outcome (Except Unit BeforeStatusInternal × Steps T)
  | 0 => .running
  | fuel + 1 =>
      match i with
      | 0 => return (.error (), s)
      | j + 1 =>
          match s.steps[j]? with
          | none => return (.error (), s)
          | some step =>
              if step.isSaturated then do
                let s ← s.saturate (j + 1 + s.numDeletedSteps) pinnedTimes
                return (.ok (.saturating (j + 1)), s)
              else if step.isSaturating then return (.ok (.saturating j), s)
              else s.walkBack pinnedTimes (j + 1) fuel

/-- The index of the last step before or at a time. -/
def searchBeforeOrAt (s : Steps T) (time : Time T) : Except Unit ℕ :=
  match s.binarySearchByTime time with
  | .ok i => .ok i
  | .error 0 => .error ()
  | .error (i + 1) => .ok i

/-- `get_before_or_at_internal`: push the next step, and look for the last one before or at the
    time.  When that is unsaturated, `walkBack` looks at the steps before it.  A search for events
    only looks at the last step. -/
def getBeforeOrAtInternal (s : Steps T) (fuel : ℕ) (time : Time T)
    (pinnedTimes : List (Time T)) (eventsOnly : Bool) :
    Outcome (Except Unit BeforeStatusInternal × Steps T) := do
  let s ← s.tryNextScheduled
  if eventsOnly then
    let lastStep ← s.getLast
    if time < lastStep.getTime ∨ lastStep.canProduceEvents = false then
      return (.ok .allRepeat, s)
    else return (.ok (.saturating (← s.maxSequenceNumber)), s)
  else
    match s.searchBeforeOrAt time with
    | .error () => return (.error (), s)
    | .ok i =>
        match s.steps[i]? with
        | none => return (.error (), s)
        | some step =>
            if step.isSaturated then return (.ok (.saturatedReady i), s)
            else if step.isSaturating then return (.ok (.saturating i), s)
            else s.walkBack pinnedTimes i fuel

/-- The step a poll of the state at `time` needs. -/
def getBeforeOrAt (s : Steps T) (fuel : ℕ) (time : Time T) (pinnedTimes : List (Time T)) :
    Outcome (Except Unit (BeforeStatus T) × Steps T) := do
  s.debugAssertions
  let (r, s) ← s.getBeforeOrAtInternal fuel time pinnedTimes false
  match r with
  | .error () => return (.error (), s)
  | .ok (.saturatedReady i) =>
      let nextTime ← s.getScheduledTime
      let _ ← Outcome.unwrap .dequeIndex s.steps[i]?
      return (.ok (.saturated i nextTime), s)
  | .ok (.saturating i) =>
      let _ ← Outcome.unwrap .dequeIndex s.steps[i]?
      return (.ok (.saturating i (i + s.numDeletedSteps)), s)
  | .ok .allRepeat => .panic .dequeIndex

/-- Forget the steps that are not needed to poll at or after `time`. -/
def deleteBefore (s : Steps T) (time : Time T) : Outcome (Option (Time T) × Steps T) := do
  s.debugAssertions
  if ∃ t ∈ s.deletedBefore, time ≤ t then return (s.earliestPollTime, s)
  else
    let s := { s with deletedBefore := some time }
    let sequenceNumber ← s.getNotUnsaturatedBeforeOrAtTime time
    let i ← usizeSub sequenceNumber s.numDeletedSteps
    Outcome.assert .dequeIndex (i ≤ s.steps.length)
    let s := { s with
      steps := s.steps.drop i
      numDeletedSteps := s.numDeletedSteps + i
      notUnsaturated := s.notUnsaturated.filter (sequenceNumber ≤ ·) }
    return (s.earliestPollTime, s)

end Build

end Steps

end Cozal
