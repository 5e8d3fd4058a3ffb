import Cozal.Lib.OrdMap
import Cozal.Transposer.Basic

namespace Cozal

open Transposer

/-!
# The inputs of a step

`StepInputs` holds the input events of one time, by the `SORT` of their input types.  Each
entry has the events of one type; the type stands in the entry as `TypeId` and handler
function do in the source.
-/

variable {T : Type} [Transposer T]

/-- The events of one input type, in the order in which they are handled. -/
structure StepInputsEntry (T : Type) [Transposer T] where
  inputType : Input T
  values : List (InputEvent inputType)

/-- An input event with its type. -/
abbrev AnyInputEvent (T : Type) [Transposer T] := (input : Input T) × InputEvent input

/-- The input events of one time. -/
structure StepInputs (T : Type) [Transposer T] where
  time : Time T
  inputs : OrdMap ℕ (StepInputsEntry T)

/-- The calls of `T::handle_input` that `StepInputs::handle` makes, in order: entry by entry
    in increasing `SORT`, and within an entry event by event. -/
def StepInputs.events (i : StepInputs T) : List (AnyInputEvent T) :=
  i.inputs.values.flatMap (fun e => e.values.map (fun v => ⟨e.inputType, v⟩))

end Cozal
