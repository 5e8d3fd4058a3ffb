import Cozal.Transposer.WrappedTransposer

namespace Cozal

open Transposer

/-!
# Steps

A `Step` is one point of a transposer's time line.  It is unsaturated (only its data is
known), saturating (its future runs, and events come out of it through a bounded channel) or
saturated (it holds the transposer as it is after the step).

* `OutputChannel` — `mpsc::channel(1)` with the one shot channel of every message.
* `FuturePoll`, `pollFuture` — one `poll` of a saturation future.
* `Step.newInit`, `Step.nextUnsaturated`, `Step.saturateTake`, `Step.saturateClone`,
  `Step.desaturate`, `Step.poll`, `Step.interpolate` — the methods of `Step`.

A call of user code gets two things from outside: the fuel, a bound on the work done before
the call counts as still running, and the answers that are ready for the futures it awaits.
-/

variable {T : Type} [Transposer T]

/-! ### The channel of the emitted events -/

/-- The state of a one shot acknowledgement. -/
inductive Ack where
  | waiting | sent | canceled
deriving DecidableEq, Repr

/-- `mpsc::channel(1)` with one sender: the messages sent and not received, each with the
    number of its one shot channel, and the states of these. -/
structure OutputChannel (T : Type) [Transposer T] where
  queue : List (OutputEvent T × ℕ)
  acks : List Ack

namespace OutputChannel

/-- Nothing has been sent. -/
def new : OutputChannel T := ⟨[], []⟩

/-- `try_send` of a payload with a new one shot channel.  A sender is parked once it has
    sent more messages than the buffer holds, so the second message still goes in. -/
def trySend (ch : OutputChannel T) (payload : OutputEvent T) : Option (OutputChannel T) :=
  if ch.queue.length ≤ 1 then
    some ⟨ch.queue ++ [(payload, ch.acks.length)], ch.acks ++ [.waiting]⟩
  else none

/-- Receive a message and acknowledge it. -/
def receive (ch : OutputChannel T) : Option (OutputEvent T × OutputChannel T) :=
  match ch.queue with
  | [] => none
  | (payload, i) :: queue => some (payload, ⟨queue, ch.acks.set i .sent⟩)

end OutputChannel

/-! ### Polling a future -/

/-- What a poll of a future ended with: the future is ready, or it is pending, possibly on
    the acknowledgement of a message. -/
inductive FuturePoll (T : Type) [Transposer T] where
  | ready (wrapped : WrappedTransposer T)
  | pending (future : SaturationFuture T) (acknowledgement : Option ℕ)

/-- The result of a poll of a future, the answers it did not use and the work it did. -/
structure FuturePolled (T : Type) [Transposer T] where
  poll : FuturePoll T
  channel : OutputChannel T
  answers : List (Response T)
  labels : List (Label T)

/-- Put a piece of work before the work already recorded. -/
def FuturePolled.after (label : Label T) (p : FuturePolled T) : FuturePolled T :=
  { p with labels := label :: p.labels }

/-- Poll a future that is suspended on the acknowledgement of message `i`, or on nothing. -/
def pollFuture : ℕ → List (Response T) → SaturationFuture T → Option ℕ → OutputChannel T →
    Outcome (FuturePolled T)
  | 0, _, _, _, _ => .running
  | fuel + 1, answers, future, some i, ch =>
      match ch.acks[i]? with
      | some .sent => pollFuture fuel answers future none ch
      | some .waiting => .ok ⟨.pending future (some i), ch, answers, []⟩
      | _ => .panic .acknowledgement
  | fuel + 1, answers, future, none, ch =>
      match future.advance with
      | .next label future => do
          let p ← pollFuture fuel answers future none ch
          return p.after label
      | .emit payload awaited future => do
          let sent ← Outcome.unwrap .trySend (ch.trySend payload)
          let p ← pollFuture fuel answers future
            (if awaited then some ch.acks.length else none) sent
          return p.after .internal
      | .await k =>
          match answers with
          | [] => .ok ⟨.pending future none, ch, [], []⟩
          | x :: answers => do
              let p ← pollFuture fuel answers (k x) none ch
              return p.after .internal
      | .ready wrapped => .ok ⟨.ready wrapped, ch, answers, []⟩
      | .panic site => .panic site

/-! ### Steps -/

/-- What a step is about. -/
inductive StepData (T : Type) [Transposer T] where
  | init (time : Time T)
  | input (inputs : StepInputs T)
  | scheduled (time : ScheduledTime (Time T))

/-- How far a step is. -/
inductive StepStatus (T : Type) [Transposer T] where
  | unsaturated
  | saturating (future : SaturationFuture T) (acknowledgement : Option ℕ)
      (outputReciever : OutputChannel T)
  | saturated (wrappedTransposer : WrappedTransposer T)

/-- One step. -/
structure Step (T : Type) [Transposer T] where
  data : StepData T
  status : StepStatus T
  eventCount : ℕ
  canProduceEvents : Bool
  uuidSelf : ℕ
  uuidPrev : Option ℕ

/-- The outcome of `Step::poll`. -/
inductive StepPoll (T : Type) [Transposer T] where
  | emitted (event : OutputEvent T)
  | pending
  | ready

/-- Why a step is not polled. -/
inductive PollErr where
  | unsaturated | saturated
deriving DecidableEq, Repr

/-- Why a step is not interpolated. -/
inductive InterpolateErr where
  | notSaturated | timePast
deriving DecidableEq, Repr

/-- Why a step has no next one. -/
inductive NextUnsaturatedErr where
  | notSaturated | inputPastOrPresent
deriving DecidableEq, Repr

/-- Why a step does not take the state of the one before it. -/
inductive SaturateTakeErr where
  | previousNotSaturated | selfNotUnsaturated | incorrectPrevious
  | previousHasActiveInterpolations
deriving DecidableEq, Repr

/-- Why a step does not clone the state of the one before it. -/
inductive SaturateCloneErr where
  | previousNotSaturated | selfNotUnsaturated | incorrectPrevious
deriving DecidableEq, Repr

/-- What a call of `Step::poll` leaves behind. -/
structure StepPolled (T : Type) [Transposer T] where
  result : Except PollErr (StepPoll T)
  step : Step T
  answers : List (Response T)
  labels : List (Label T)

namespace Step

/-- The first step, which runs `init` and is saturating from the start. -/
def newInit (uuid : ℕ) (transposer : T) (startTime : Time T) (rngSeed : Seed T) : Step T where
  data := .init startTime
  status := .saturating (WrappedTransposer.init transposer rngSeed startTime 0) none .new
  eventCount := 0
  canProduceEvents := true
  uuidSelf := uuid
  uuidPrev := none

/-- When the step is due. -/
def getTime (s : Step T) : Time T :=
  match s.data with
  | .init time => time
  | .input i => i.time
  | .scheduled t => t.time

/-- The step has no state. -/
def isUnsaturated (s : Step T) : Bool :=
  match s.status with
  | .unsaturated => true
  | _ => false

/-- The step is running its future. -/
def isSaturating (s : Step T) : Bool :=
  match s.status with
  | .saturating _ _ _ => true
  | _ => false

/-- The step has run its future to the end. -/
def isSaturated (s : Step T) : Bool :=
  match s.status with
  | .saturated _ => true
  | _ => false

/-- The step after this one, with what is left of the inputs it was given. -/
def nextUnsaturated (s : Step T) (uuid : ℕ) (nextInputs : Option (StepInputs T)) :
    Except NextUnsaturatedErr (Option (Step T) × Option (StepInputs T)) :=
  match s.status with
  | .saturated w =>
      let new (data : StepData T) : Step T :=
        { data
          status := .unsaturated
          eventCount := 0
          canProduceEvents := true
          uuidSelf := uuid
          uuidPrev := some s.uuidSelf }
      match nextInputs, w.metadata.getNextScheduledTime with
      | none, none => .ok (none, none)
      | none, some t => .ok (some (new (.scheduled t)), none)
      | some i, none => .ok (some (new (.input i)), none)
      | some i, some t =>
          if i.time > t.time then .ok (some (new (.scheduled t)), some i)
          else .ok (some (new (.input i)), none)
  | _ => .error .notSaturated

/-- The step of the next scheduled event, when there are no inputs. -/
def nextScheduledUnsaturated (s : Step T) (uuid : ℕ) :
    Except NextUnsaturatedErr (Option (Step T)) :=
  (s.nextUnsaturated uuid none).map Prod.fst

/-- The future that saturates a step from the transposer as it was before it. -/
def saturationFuture (data : StepData T) (w : WrappedTransposer T) (eventCount : ℕ) :
    Option (SaturationFuture T) :=
  match data with
  | .init _ => none
  | .input i => some (w.handleInput i eventCount)
  | .scheduled t => some (w.handleScheduled t.time eventCount)

/-- Start saturating a step.  The initial step is never saturated again. -/
def saturate (s : Step T) (w : WrappedTransposer T) : Outcome (Step T) := do
  let future ← Outcome.unwrap .initSaturated (saturationFuture s.data w s.eventCount)
  return { s with status := .saturating future none .new }

/-- Throw away what was done to saturate a step. -/
def desaturate (s : Step T) : Step T := { s with status := .unsaturated }

section Build

variable [BuildProfile]

/-- Saturate a step from the state of the step before it, which loses it. -/
def saturateTake (s prev : Step T) : Outcome (Except SaturateTakeErr Unit × Step T × Step T) :=
  if BuildProfile.debugAssertions ∧ s.uuidPrev ≠ some prev.uuidSelf then
    return (.error .incorrectPrevious, s, prev)
  else
    match prev.status with
    | .saturated w => do
        let s' ← s.saturate w
        return (.ok (), s', { prev with status := .unsaturated })
    | _ => return (.error .previousNotSaturated, s, prev)

/-- Saturate a step from a copy of the state of the step before it. -/
def saturateClone (s prev : Step T) : Outcome (Except SaturateCloneErr Unit × Step T) :=
  if BuildProfile.debugAssertions ∧ s.uuidPrev ≠ some prev.uuidSelf then
    return (.error .incorrectPrevious, s)
  else
    match prev.status with
    | .saturated w => do
        let s' ← s.saturate w
        return (.ok (), s')
    | _ => return (.error .previousNotSaturated, s)

/-- The interpolation of a saturated step to `time`. -/
def interpolate (s : Step T) (time : Time T) : Except InterpolateErr (Interpolating T) :=
  match s.status with
  | .saturated w =>
      if BuildProfile.debugAssertions ∧ time < w.metadata.lastUpdated.time then
        .error .timePast
      else
        .ok (Transposer.interpolate w.transposer time w.metadata.lastUpdated.time)
  | _ => .error .notSaturated

end Build

/-- Poll the future of a saturating step, then its output. -/
def poll (fuel : ℕ) (answers : List (Response T)) (s : Step T) : Outcome (StepPolled T) :=
  match s.status with
  | .unsaturated => return ⟨.error .unsaturated, s, answers, []⟩
  | .saturated _ => return ⟨.error .saturated, s, answers, []⟩
  | .saturating future acknowledgement ch => do
      let p ← pollFuture fuel answers future acknowledgement ch
      match p.poll with
      | .ready w =>
          return ⟨.ok .ready, { s with status := .saturated w, canProduceEvents := false },
            p.answers, p.labels⟩
      | .pending future acknowledgement =>
          match p.channel.receive with
          | some (e, ch) =>
              return ⟨.ok (.emitted e),
                { s with
                  status := .saturating future acknowledgement ch
                  eventCount := s.eventCount + 1 },
                p.answers, p.labels⟩
          | none =>
              return ⟨.ok .pending,
                { s with status := .saturating future acknowledgement p.channel },
                p.answers, p.labels⟩

end Step

end Cozal
