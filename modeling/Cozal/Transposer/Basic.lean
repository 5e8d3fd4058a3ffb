import Mathlib.Order.Basic
import Mathlib.Tactic.Common

namespace Cozal

/-!
# Transposers

A transposer is the user's code: a value with asynchronous handlers that talk to the engine
through a context object.  Its handlers are modelled as what the compiler makes of an `async`
body, a machine that is resumed and says what it wants next: `Transposer.resume` looks at a
suspended handler and gives the next call it makes on its context, or the future it awaits,
with the continuation to resume with the answer.

* `HandlerStep` — the calls of `InitContext`, `HandleInputContext` and
  `HandleScheduleContext` that a handler can make.
* `Transposer` — the trait: its types, its handlers and the machine that runs them.
* `Transposer.Deterministic` — nothing from outside the context changes what a handler does.
* `Transposer.AwaitsEmissions` — every `emit_event` is awaited where it is made.

Nothing bounds a handler: it may run for ever, or wait for ever for an answer from outside.
-/

/-- The handle an expireable event is expired with. -/
abbrev ExpireHandle := ℕ

/-- Why an event was not scheduled. -/
inductive ScheduleEventError where
  | newEventBeforeCurrent
deriving DecidableEq, Repr

/-- Why an event was not expired. -/
inductive ExpireEventError where
  | invalidOrUsedHandle
deriving DecidableEq, Repr

/-- What a suspended handler does when it is resumed.  `emitEvent` says whether the future
    it gets is awaited on the spot or dropped; `await` waits for an answer that does not come
    from the context. -/
inductive HandlerStep (T Time Scheduled OutputEvent Rng Response Handler : Type) where
  | done (transposer : T)
  | currentTime (k : Time → Handler)
  | lastUpdatedTime (k : Time → Handler)
  | getRng (k : Rng → Rng × Handler)
  | scheduleEvent (time : Time) (payload : Scheduled)
      (k : Except ScheduleEventError Unit → Handler)
  | scheduleEventExpireable (time : Time) (payload : Scheduled)
      (k : Except ScheduleEventError ExpireHandle → Handler)
  | expireEvent (handle : ExpireHandle)
      (k : Except ExpireEventError (Time × Scheduled) → Handler)
  | emitEvent (payload : OutputEvent) (awaited : Bool) (k : Handler)
  | await (k : Response → Handler)

/-- What a suspended interpolation does when it is resumed. -/
inductive InterpolationStep (OutputState Response Interpolating : Type) where
  | done (state : OutputState)
  | next (k : Interpolating)
  | await (k : Response → Interpolating)

/-- The trait `Transposer`, and with it `TransposerInputEventHandler` for every input type.
    `Input` stands for the types that implement `TransposerInput`, `Response` for the answers
    a handler can await from outside its context, `Rng` for the seeded generator. -/
class Transposer (T : Type) where
  Time : Type
  [timeOrder : LinearOrder Time]
  OutputEvent : Type
  OutputState : Type
  Scheduled : Type
  Rng : Type
  Seed : Type
  fromSeed : Seed → Rng
  Response : Type
  Handler : Type
  Interpolating : Type
  resume : Handler → HandlerStep T Time Scheduled OutputEvent Rng Response Handler
  resumeInterpolation : Interpolating → InterpolationStep OutputState Response Interpolating
  init : T → Handler
  handleScheduled : T → Scheduled → Handler
  interpolate : T → (currentTime lastUpdatedTime : Time) → Interpolating
  Input : Type
  [inputEq : DecidableEq Input]
  InputEvent : Input → Type
  sort : Input → ℕ
  handleInput : T → (input : Input) → InputEvent input → Handler
  sortInputEvents : Time → (input : Input) → InputEvent input → InputEvent input → Ordering

namespace Transposer

/-- The order on the times of a transposer. -/
instance (T : Type) [Transposer T] : LinearOrder (Time T) := timeOrder

/-- Input types can be told apart, as by their `TypeId`. -/
instance (T : Type) [Transposer T] : DecidableEq (Input T) := inputEq

/-- The answers from outside the context do not change what a handler or an interpolation
    does next. -/
structure Deterministic (T : Type) [Transposer T] : Prop where
  handler : ∀ {h : Handler T} {k}, resume h = .await k → ∀ x y, k x = k y
  interpolation : ∀ {i : Interpolating T} {k},
    resumeInterpolation i = .await k → ∀ x y, k x = k y

/-- Every handler awaits each `emit_event` it makes. -/
def AwaitsEmissions (T : Type) [Transposer T] : Prop :=
  ∀ {h : Handler T} {e awaited k}, resume h = .emitEvent e awaited k → awaited = true

/-- The interpolation runs to its end and returns `state`. -/
inductive Returns {T : Type} [Transposer T] : Interpolating T → OutputState T → Prop where
  | done {i s} : resumeInterpolation i = .done s → Returns i s
  | next {i k s} : resumeInterpolation i = .next k → Returns k s → Returns i s
  | await {i k s} (x : Response T) : resumeInterpolation i = .await k → Returns (k x) s →
      Returns i s

/-- A deterministic interpolation returns at most one state. -/
theorem Returns.unique {T : Type} [Transposer T] (hd : Deterministic T)
    {i : Interpolating T} {s s' : OutputState T} (h : Returns i s) (h' : Returns i s') :
    s = s' := by
  induction h with
  | done hi =>
    cases h' with
    | done hi' => rw [hi] at hi'; cases hi'; rfl
    | next hi' => rw [hi] at hi'; cases hi'
    | await _ hi' => rw [hi] at hi'; cases hi'
  | next hi _ ih =>
    cases h' with
    | done hi' => rw [hi] at hi'; cases hi'
    | next hi' h' => rw [hi] at hi'; cases hi'; exact ih h'
    | await _ hi' => rw [hi] at hi'; cases hi'
  | await x hi _ ih =>
    cases h' with
    | done hi' => rw [hi] at hi'; cases hi'
    | next hi' => rw [hi] at hi'; cases hi'
    | await y hi' h' =>
      rw [hi] at hi'; cases hi'
      rw [hd.interpolation hi y x] at h'
      exact ih h'

end Transposer

end Cozal
