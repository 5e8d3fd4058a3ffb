import Cozal.Transposer.MetaData

namespace Cozal

open Transposer

/-!
# The context of a handler

`SubStepUpdateContext` is what `init`, `handle_input` and `handle_scheduled` are given: the
time of the sub step, the metadata, the number of outputs still to swallow and the number of
events scheduled so far.  The sender of the outputs belongs to the step that is polled, and
the input state to whoever answers `Transposer.Response`.
-/

variable {T : Type} [Transposer T]

/-- The context a handler acts on. -/
structure SubStepUpdateContext (T : Type) [Transposer T] where
  time : SubStepTime (Time T)
  metadata : TransposerMetaData T
  outputsToSwallow : ℕ
  currentEmissionIndex : ℕ

namespace SubStepUpdateContext

/-- The context at the start of a handler, which has scheduled and emitted nothing. -/
def new (time : SubStepTime (Time T)) (metadata : TransposerMetaData T)
    (outputsToSwallow : ℕ) : SubStepUpdateContext T where
  time
  metadata
  outputsToSwallow
  currentEmissionIndex := 0

/-- The key of the event this context schedules next for `time`. -/
def nextKey (cx : SubStepUpdateContext T) (time : Time T) : ScheduledTime (Time T) :=
  cx.time.spawnScheduled time cx.currentEmissionIndex

/-- The key stands at the time it is made for. -/
@[simp] theorem nextKey_time (cx : SubStepUpdateContext T) (time : Time T) :
    (cx.nextKey time).time = time := rfl

/-- Schedule an event, unless it would be before the current time. -/
def scheduleEvent (cx : SubStepUpdateContext T) (time : Time T) (payload : Scheduled T) :
    Except ScheduleEventError Unit × SubStepUpdateContext T :=
  if time < cx.time.time then (.error .newEventBeforeCurrent, cx)
  else
    (.ok (),
      { cx with
        metadata := cx.metadata.scheduleEvent (cx.nextKey time) payload
        currentEmissionIndex := cx.currentEmissionIndex + 1 })

/-- Schedule an event that can be expired, unless it would be before the current time. -/
def scheduleEventExpireable (cx : SubStepUpdateContext T) (time : Time T)
    (payload : Scheduled T) :
    Except ScheduleEventError ExpireHandle × SubStepUpdateContext T :=
  if time < cx.time.time then (.error .newEventBeforeCurrent, cx)
  else
    let (handle, metadata) := cx.metadata.scheduleEventExpireable (cx.nextKey time) payload
    (.ok handle,
      { cx with metadata, currentEmissionIndex := cx.currentEmissionIndex + 1 })

/-- Expire an event by its handle. -/
def expireEvent (cx : SubStepUpdateContext T) (handle : ExpireHandle) :
    Outcome (Except ExpireEventError (Time T × Scheduled T) × SubStepUpdateContext T) := do
  let (result, metadata) ← cx.metadata.expireEvent handle
  return (result, { cx with metadata })

/-- The generator is lent to the handler, which leaves it in some other state. -/
def setRng (cx : SubStepUpdateContext T) (rng : Rng T) : SubStepUpdateContext T :=
  { cx with metadata := { cx.metadata with rng } }

/-- The context with another number of outputs to swallow. -/
def withSwallow (cx : SubStepUpdateContext T) (n : ℕ) : SubStepUpdateContext T :=
  { cx with outputsToSwallow := n }

end SubStepUpdateContext

end Cozal
