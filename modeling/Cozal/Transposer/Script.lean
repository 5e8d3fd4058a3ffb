import Cozal.Transposer.Step

namespace Cozal

open Transposer

/-!
# Scripted transposers

A transposer whose handlers make a fixed list of calls on their context: small enough to be
run, and with every call a handler can make.  Its state counts the handlers that have ended.
-/

/-- A call of a scripted handler. -/
inductive ScriptCall where
  | emit (event : ℕ)
  | schedule (delay : ℕ)
  | scheduleExpireable (delay : ℕ)
  | expire (handle : ExpireHandle)
  | wait
deriving DecidableEq, Repr

/-- The calls of the three handlers, and how many of them have ended. -/
structure Script where
  onInit : List ScriptCall
  onScheduled : List ScriptCall
  onInput : List ScriptCall
  count : ℕ
deriving DecidableEq, Repr

/-- A scripted handler: the calls to come, or a call that has learned the current time. -/
inductive ScriptHandler where
  | run (calls : List ScriptCall) (script : Script)
  | schedule (time : ℕ) (expireable : Bool) (calls : List ScriptCall) (script : Script)
deriving DecidableEq, Repr

/-- Make the next call of the script. -/
def ScriptHandler.resume :
    ScriptHandler → HandlerStep Script ℕ Unit ℕ Unit Unit ScriptHandler
  | .run [] s => .done { s with count := s.count + 1 }
  | .run (.emit e :: calls) s => .emitEvent e true (.run calls s)
  | .run (.schedule d :: calls) s => .currentTime (fun t => .schedule (t + d) false calls s)
  | .run (.scheduleExpireable d :: calls) s =>
      .currentTime (fun t => .schedule (t + d) true calls s)
  | .run (.expire h :: calls) s => .expireEvent h (fun _ => .run calls s)
  | .run (.wait :: calls) s => .await (fun _ => .run calls s)
  | .schedule t false calls s => .scheduleEvent t () (fun _ => .run calls s)
  | .schedule t true calls s => .scheduleEventExpireable t () (fun _ => .run calls s)

/-- A script is run instruction by instruction, and all its times are natural numbers. -/
instance : Transposer Script where
  Time := ℕ
  OutputEvent := ℕ
  OutputState := ℕ × ℕ
  Scheduled := Unit
  Rng := Unit
  Seed := Unit
  fromSeed := id
  Response := Unit
  Handler := ScriptHandler
  Interpolating := ℕ × ℕ
  resume := ScriptHandler.resume
  resumeInterpolation := .done
  init s := .run s.onInit s
  handleScheduled s _ := .run s.onScheduled s
  interpolate s t _ := (s.count, t)
  Input := Unit
  InputEvent _ := ℕ
  sort _ := 0
  handleInput s _ _ := .run s.onInput s
  sortInputEvents _ _ _ _ := .eq

/-- No answer changes what a script does. -/
theorem Script.deterministic : Deterministic Script where
  handler := fun _ _ _ => rfl
  interpolation := fun _ _ _ => rfl

/-- Every emission of a script is awaited. -/
theorem Script.awaitsEmissions : AwaitsEmissions Script := by
  intro h e awaited k hr
  change ScriptHandler.resume h = _ at hr
  unfold ScriptHandler.resume at hr
  split at hr <;> cases hr
  rfl

/-- A scripted transposer saturated at time `0`, with one event scheduled for time `1`. -/
def Script.saturatedAtZero (s : Script) : WrappedTransposer Script where
  transposer := s
  metadata := (TransposerMetaData.new () (0 : ℕ)).scheduleEvent ⟨(1 : ℕ), 0, 0⟩ ()

/-- The initial step of a scripted transposer, saturated. -/
def Script.initialStep (s : Script) : Step Script where
  data := .init (0 : ℕ)
  status := .saturated s.saturatedAtZero
  eventCount := 0
  canProduceEvents := false
  uuidSelf := 0
  uuidPrev := none

/-- The step at time `1` of a scripted transposer. -/
def Script.firstStep : Step Script where
  data := .scheduled ⟨(1 : ℕ), 0, 0⟩
  status := .unsaturated
  eventCount := 0
  canProduceEvents := true
  uuidSelf := 1
  uuidPrev := some 0

end Cozal
