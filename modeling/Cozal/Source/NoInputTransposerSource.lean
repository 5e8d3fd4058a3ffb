import Cozal.Lib.Loop
import Cozal.Source.Channels
import Cozal.Source.SourcePoll
import Cozal.Source.Steps

namespace Cozal

open Transposer

/-!
# A source that runs a transposer without inputs

* `NoInputTransposerSource.poll`, `NoInputTransposerSource.pollEvents` — the two polls.  Each is
  a loop; the round of the loop of `poll` is a match on what the channel waits for.
* `NoInputTransposerSource.releaseChannel`, `NoInputTransposerSource.advance`.
* `NoInputTransposerSource.ReachableBy` — the states that calls lead to, with what they returned.

The source passes wakers on and never looks at them, so of the two wakers of a call nothing is
kept here.  What does matter is when the holder of a stack waker wakes or drops it; this comes
from outside, like the answers to the futures of the transposer, in every `Round` of a loop.
-/

variable {T : Type} [Transposer T]

/-- The steps and the channels of a source. -/
structure NoInputTransposerSource (T : Type) [Transposer T] where
  steps : Steps T
  channelStatuses : ChannelStatuses T

/-- What a poll of a source of `T` returns. -/
abbrev SourcePollOf (T : Type) [Transposer T] (State : Type) :=
  SourcePoll (Time T) (OutputEvent T) State

/-- What a round of a loop gets from outside: what has happened to the stack wakers of the
    steps, a bound on the work of the transposer, and the answers that are ready for it. -/
structure Round (T : Type) [Transposer T] where
  wakerEvents : List (ℕ × StackWakerEvent)
  fuel : ℕ
  answers : List (Response T)

namespace NoInputTransposerSource

/-- A source whose first step has not been polled, with every channel free. -/
def new (transposer : T) (startTime : Time T) (rngSeed : Seed T) : NoInputTransposerSource T where
  steps := .new transposer startTime rngSeed
  channelStatuses := .new

/-- The channel stops to wait. -/
def abandon (s : NoInputTransposerSource T) (channel : ℕ) (status : CallerChannelStatus T) :
    NoInputTransposerSource T :=
  { s with channelStatuses := s.channelStatuses.abandon channel status }

/-- The stack wakers are woken and dropped. -/
def afterWakerEvents (s : NoInputTransposerSource T) (events : List (ℕ × StackWakerEvent)) :
    NoInputTransposerSource T :=
  { s with channelStatuses := events.foldl ChannelStatuses.wakerEvent s.channelStatuses }

section Build

variable [BuildProfile]

/-! ### The arms of the match in `poll` -/

/-- The channel is free: find the step for the time, and wait for what it needs. -/
def pollFree (s : NoInputTransposerSource T) (time : Time T) (channel fuel : ℕ) :
    Outcome (NoInputTransposerSource T) := do
  let pinnedTimes := s.channelStatuses.getPinnedTimes
  let (r, steps) ← s.steps.getBeforeOrAt fuel time pinnedTimes
  match ← Outcome.expect .answer r with
  | .saturated i _ => do
      let step ← Outcome.unwrap .dequeIndex steps.steps[i]?
      let interpolation ← Outcome.expect .interpolate (step.interpolate time)
      return ⟨steps, s.channelStatuses.startInterpolation channel interpolation time⟩
  | .saturating i stepIndex => do
      let step ← Outcome.unwrap .dequeIndex steps.steps[i]?
      if step.canProduceEvents then
        return ⟨steps, s.channelStatuses.startOriginalStep channel time⟩
      else return ⟨steps, s.channelStatuses.startRepeatStep channel stepIndex time⟩

end Build

/-- The channel waits for an interpolation. -/
def pollInterpolationFuture (s : NoInputTransposerSource T) (time : Time T) (channel : ℕ)
    (interpolation : Interpolating T) (r : Round T) :
    Outcome (SourcePollOf T (OutputState T) × NoInputTransposerSource T) := do
  match ← pollInterpolation r.fuel r.answers interpolation with
  | .pending interpolation =>
      return (.pending,
        ⟨s.steps, s.channelStatuses.occupy channel ⟨time, .interpolationFuture interpolation⟩⟩)
  | .ready state => do
      let nextEventAt ← s.steps.getScheduledTime
      return (.ready state nextEventAt, ⟨s.steps, s.channelStatuses.vacate channel⟩)

/-- The channel waits for the last step, which may still produce events. -/
def pollOriginalStepFuture (s : NoInputTransposerSource T) (channel : ℕ) (r : Round T) :
    Outcome (Option (SourcePollOf T (OutputState T)) × NoInputTransposerSource T) := do
  let step ← s.steps.getLast
  let p ← step.poll r.fuel r.answers
  let poll ← Outcome.expect .stepPoll p.result
  let s := { s with steps := s.steps.setStep (s.steps.steps.length - 1) p.step }
  match poll with
  | .emitted event => return (some (.interrupt step.getTime (.finalizedEvent event)), s)
  | .pending => return (some .pending, s)
  | .ready => return (none, s.abandon channel (.originalStepFuture step.getTime))

/-- The channel waits for a step that is run again.  It polls the step unless another channel
    is registered for it. -/
def pollRepeatStepFuture (s : NoInputTransposerSource T) (time : Time T) (channel stepId : ℕ)
    (r : Round T) :
    Outcome (Option (SourcePollOf T (OutputState T)) × NoInputTransposerSource T) := do
  let step ← Outcome.unwrap .sequenceNumber (s.steps.getBySequenceNumber stepId)
  let (polls, channelStatuses) := s.channelStatuses.registerWaker channel stepId
  if polls then
    let p ← step.poll r.fuel r.answers
    let poll ← Outcome.expect .stepPoll p.result
    let s : NoInputTransposerSource T :=
      ⟨s.steps.setStep (stepId - s.steps.numDeletedSteps) p.step, channelStatuses⟩
    match poll with
    | .emitted _ => .panic .repeatStepEmitted
    | .pending => return (some .pending, s)
    | .ready => return (none, s.abandon channel (.repeatStepFuture time stepId))
  else return (some .pending, { s with channelStatuses })

section Build

variable [BuildProfile]

/-! ### The calls -/

/-- One round of the loop of `poll`: what the call returns, or nothing when the loop goes on.
    A handle on an entry follows the entry, so the next round finds the status in the maps. -/
def pollRound (time : Time T) (channel : ℕ) (r : Round T) (s : NoInputTransposerSource T) :
    Outcome (Option (SourcePollOf T (OutputState T)) × NoInputTransposerSource T) := do
  let s := s.afterWakerEvents r.wakerEvents
  let status ← s.channelStatuses.getChannelStatus channel
  match status with
  | .free => do
      let s ← s.pollFree time channel r.fuel
      return (none, s)
  | .interpolationFuture prevTime interpolation =>
      if prevTime ≠ time then return (none, s.abandon channel status)
      else do
        let (poll, s) ← s.pollInterpolationFuture time channel interpolation r
        return (some poll, s)
  | .originalStepFuture prevTime =>
      if prevTime ≠ time then return (none, s.abandon channel status)
      else s.pollOriginalStepFuture channel r
  | .repeatStepFuture prevTime stepId =>
      if prevTime ≠ time then return (none, s.abandon channel status)
      else s.pollRepeatStepFuture time channel stepId r

/-- `poll`: rounds of the loop until one returns. -/
def poll (s : NoInputTransposerSource T) (time : Time T) (channel : ℕ)
    (rounds : List (Round T)) :
    Outcome (SourcePollOf T (OutputState T) × NoInputTransposerSource T) :=
  Outcome.loop (pollRound time channel) rounds s

/-- One round of the loop of `poll_events`. -/
def pollEventsRound (time : Time T) (pinnedTimes : List (Time T)) (r : Round T)
    (s : NoInputTransposerSource T) :
    Outcome (Option (SourcePollOf T Unit) × NoInputTransposerSource T) := do
  let (status, steps) ← s.steps.getBeforeOrAtEvents time pinnedTimes
  match status with
  | .ready nextTime => return (some (.ready () nextTime), { s with steps })
  | .saturating i _ => do
      let step ← Outcome.unwrap .dequeIndex steps.steps[i]?
      let p ← step.poll r.fuel r.answers
      let poll ← Outcome.expect .stepPoll p.result
      let s := { s with steps := steps.setStep i p.step }
      match poll with
      | .emitted event => return (some (.interrupt step.getTime (.finalizedEvent event)), s)
      | .pending => return (some .pending, s)
      | .ready => return (none, s)

/-- `poll_events`: rounds of the loop until one returns; the times are pinned before the first. -/
def pollEvents (s : NoInputTransposerSource T) (time : Time T) (rounds : List (Round T)) :
    Outcome (SourcePollOf T Unit × NoInputTransposerSource T) :=
  Outcome.loop (pollEventsRound time s.channelStatuses.getPinnedTimes) rounds s

/-- `release_channel`: the channel waits no more. -/
def releaseChannel (s : NoInputTransposerSource T) (channel : ℕ) :
    Outcome (NoInputTransposerSource T) := do
  let status ← s.channelStatuses.getChannelStatus channel
  return s.abandon channel status

/-- `advance`: the steps before the time may be forgotten. -/
def advance (s : NoInputTransposerSource T) (time : Time T) :
    Outcome (NoInputTransposerSource T) := do
  let (_, steps) ← s.steps.deleteBefore time
  return { s with steps }

end Build

/-! ### Runs -/

/-- A call, with what it gets from outside. -/
inductive Call (T : Type) [Transposer T] where
  | poll (time : Time T) (channel : ℕ) (rounds : List (Round T))
  | pollEvents (time : Time T) (rounds : List (Round T))
  | releaseChannel (channel : ℕ)
  | advance (time : Time T)

/-- What a call returns. -/
inductive Reply (T : Type) [Transposer T] where
  | poll (p : SourcePollOf T (OutputState T))
  | pollEvents (p : SourcePollOf T Unit)
  | done

/-- The event a call returns, with its time. -/
def Reply.interrupts : Reply T → List (Time T × OutputEvent T)
  | .poll p => p.interrupts
  | .pollEvents p => p.interrupts
  | .done => []

/-- The events all calls of a run have returned together. -/
def interrupts (history : List (Call T × Reply T)) : List (Time T × OutputEvent T) :=
  history.flatMap fun h => h.2.interrupts

section Build

variable [BuildProfile]

/-- A call of a method, and what it returns. -/
def call (s : NoInputTransposerSource T) : Call T → Outcome (Reply T × NoInputTransposerSource T)
  | .poll time channel rounds => do
      let (p, s) ← s.poll time channel rounds
      return (.poll p, s)
  | .pollEvents time rounds => do
      let (p, s) ← s.pollEvents time rounds
      return (.pollEvents p, s)
  | .releaseChannel channel => do
      let s ← s.releaseChannel channel
      return (.done, s)
  | .advance time => do
      let s ← s.advance time
      return (.done, s)

/-- The source after calls that return, each of which meets a condition on the state before
    it, with what they returned. -/
inductive ReachableBy (meets : NoInputTransposerSource T → Call T → Prop) (transposer : T)
    (startTime : Time T) (rngSeed : Seed T) :
    List (Call T × Reply T) → NoInputTransposerSource T → Prop where
  | new : ReachableBy meets transposer startTime rngSeed [] (.new transposer startTime rngSeed)
  | call {history s reply s'} (c : Call T) :
      ReachableBy meets transposer startTime rngSeed history s → meets s c →
      s.call c = .ok (reply, s') →
      ReachableBy meets transposer startTime rngSeed (history ++ [(c, reply)]) s'

/-- The source after any calls that return. -/
abbrev Reachable (transposer : T) (startTime : Time T) (rngSeed : Seed T) :
    List (Call T × Reply T) → NoInputTransposerSource T → Prop :=
  ReachableBy (fun _ _ => True) transposer startTime rngSeed

end Build

end NoInputTransposerSource

end Cozal
