import Mathlib.Init

namespace Cozal

/-!
# What a poll of a source returns

* `SourcePoll`, `Interrupt` — a state, or something that has to be handled before it, or nothing
  yet.
* `SourcePollErr`, `TrySourcePoll` — the errors of a poll, and its `Result`.
* `SourcePoll.interrupts` — the event that a poll returns, with its time.
-/

/-- The type of interrupt emitted from a source. -/
inductive Interrupt (E : Type) where
  | event (event : E)
  | finalizedEvent (event : E)
  | rollback
  | finalize
deriving DecidableEq, Repr

/-- The event that an interrupt carries. -/
def Interrupt.toEvent {E : Type} : Interrupt E → Option E
  | .event e => some e
  | .finalizedEvent e => some e
  | .rollback => none
  | .finalize => none

/-- What a poll of a source returns. -/
inductive SourcePoll (Time E State : Type) where
  | ready (state : State) (nextEventAt : Option Time)
  | interrupt (time : Time) (interrupt : Interrupt E)
  | pending
deriving DecidableEq, Repr

/-- The event a poll returns, with its time. -/
def SourcePoll.interrupts {Time E State : Type} : SourcePoll Time E State → List (Time × E)
  | .interrupt time i => i.toEvent.toList.map (time, ·)
  | .ready _ _ => []
  | .pending => []

/-- The errors of a poll. -/
inductive SourcePollErr (Time Err : Type) where
  | outOfBoundsChannel
  | pollAfterAdvance (advanced : Time)
  | pollBeforeDefault
  | specificError (error : Err)
deriving DecidableEq, Repr

/-- The `Result` of a poll. -/
abbrev TrySourcePoll (Time E State Err : Type) :=
  Except (SourcePollErr Time Err) (SourcePoll Time E State)

end Cozal
