import Cozal.Transposer.Context
import Cozal.Transposer.StepInputs

namespace Cozal

open Transposer

/-!
# The asynchronous bodies of a step

`WrappedTransposer::init`, `handle_input` and `handle_scheduled` are `async` functions that
call the handlers of the transposer one after the other.  A call of one of them is a
`SaturationFuture`: the point it is suspended at, with its local variables.
`SaturationFuture.advance` runs it to the next such point.

* `Caller` — the handler call a future is in, and so what follows when the handler is done.
* `Label` — what a piece of work did to the schedule and which handler it called; a label
  changes nothing, it lets statements speak about a whole run.
* `SaturationFuture.advance` — the bodies themselves.
* `SaturationFuture.advance_cases` — all that one turn of them can come to.
-/

variable {T : Type} [Transposer T]

/-- A transposer with its metadata. -/
structure WrappedTransposer (T : Type) [Transposer T] where
  transposer : T
  metadata : TransposerMetaData T

/-- The handler call that is awaited.  `input` and `scheduled` carry the local variable
    `time` of `handle_input` and `handle_scheduled`, and `input` the events still to come. -/
inductive Caller (T : Type) [Transposer T] where
  | init (startTime : Time T)
  | input (time : SubStepTime (Time T)) (rest : List (AnyInputEvent T))
  | scheduled (time : SubStepTime (Time T))

/-- A suspended call of `init`, `handle_input` or `handle_scheduled`: in a handler, before
    the next input event, or at the head of the loop over the events that are due. -/
inductive SaturationFuture (T : Type) [Transposer T] where
  | running (caller : Caller T) (handler : Handler T) (cx : SubStepUpdateContext T)
  | inputs (time : SubStepTime (Time T)) (rest : List (AnyInputEvent T)) (transposer : T)
      (cx : SubStepUpdateContext T)
  | draining (time : SubStepTime (Time T)) (transposer : T) (cx : SubStepUpdateContext T)

/-- What a piece of work did. -/
inductive Label (T : Type) [Transposer T] where
  | internal
  | accepted (key : ScheduledTime (Time T)) (payload : Scheduled T)
      (handle : Option ExpireHandle)
  | expired (handle : ExpireHandle) (key : ScheduledTime (Time T)) (payload : Scheduled T)
  | handleInput (event : AnyInputEvent T) (currentTime : Time T)
  | handleScheduled (key : ScheduledTime (Time T)) (payload : Scheduled T)
      (currentTime : Time T)

/-- Where a future got to. -/
inductive Progress (T : Type) [Transposer T] where
  | next (label : Label T) (future : SaturationFuture T)
  | emit (payload : OutputEvent T) (awaited : Bool) (future : SaturationFuture T)
  | await (k : Response T → SaturationFuture T)
  | ready (wrapped : WrappedTransposer T)
  | panic (site : Panic)

namespace WrappedTransposer

/-- Start `WrappedTransposer::init`. -/
def init (transposer : T) (rngSeed : Seed T) (startTime : Time T) (outputsToSwallow : ℕ) :
    SaturationFuture T :=
  .running (.init startTime) (Transposer.init transposer)
    (.new (.newInit startTime) (.new rngSeed startTime) outputsToSwallow)

/-- Start `WrappedTransposer::handle_scheduled`. -/
def handleScheduled (w : WrappedTransposer T) (time : Time T) (outputsToSwallow : ℕ) :
    SaturationFuture T :=
  let time : SubStepTime (Time T) := ⟨w.metadata.lastUpdated.index + 1, time⟩
  .draining time w.transposer (.new time w.metadata outputsToSwallow)

/-- Start `WrappedTransposer::handle_input`. -/
def handleInput (w : WrappedTransposer T) (input : StepInputs T) (outputsToSwallow : ℕ) :
    SaturationFuture T :=
  let time : SubStepTime (Time T) := ⟨w.metadata.lastUpdated.index + 1, input.time⟩
  .inputs time input.events w.transposer (.new time w.metadata outputsToSwallow)

end WrappedTransposer

namespace SaturationFuture

/-- The context a future works on. -/
def cx : SaturationFuture T → SubStepUpdateContext T
  | .running _ _ cx => cx
  | .inputs _ _ _ cx => cx
  | .draining _ _ cx => cx

/-- What follows a handler that has left the transposer as `t`. -/
def resumeCaller (caller : Caller T) (t : T) (cx : SubStepUpdateContext T) : SaturationFuture T :=
  match caller with
  | .init startTime =>
      WrappedTransposer.handleScheduled ⟨t, cx.metadata⟩ startTime cx.outputsToSwallow
  | .input time rest =>
      .inputs time rest t
        { cx with metadata :=
          { cx.metadata with lastUpdated := ⟨cx.metadata.lastUpdated.index + 1, time.time⟩ } }
  | .scheduled time =>
      .draining { time with index := time.index + 1 } t
        { cx with metadata := { cx.metadata with lastUpdated := time } }

/-- Resume the handler: the calls on the context that a handler makes. -/
def resumeHandler (caller : Caller T) (handler : Handler T) (cx : SubStepUpdateContext T) :
    Progress T :=
  match resume handler with
  | .done t => .next .internal (resumeCaller caller t cx)
  | .currentTime k => .next .internal (.running caller (k cx.time.time) cx)
  | .lastUpdatedTime k =>
      .next .internal (.running caller (k cx.metadata.lastUpdated.time) cx)
  | .getRng k =>
      let (rng, handler) := k cx.metadata.rng
      .next .internal (.running caller handler (cx.setRng rng))
  | .scheduleEvent time payload k =>
      match cx.scheduleEvent time payload with
      | (.ok u, cx') =>
          .next (.accepted (cx.nextKey time) payload none) (.running caller (k (.ok u)) cx')
      | (.error e, cx') => .next .internal (.running caller (k (.error e)) cx')
  | .scheduleEventExpireable time payload k =>
      match cx.scheduleEventExpireable time payload with
      | (.ok h, cx') =>
          .next (.accepted (cx.nextKey time) payload (some h))
            (.running caller (k (.ok h)) cx')
      | (.error e, cx') => .next .internal (.running caller (k (.error e)) cx')
  | .expireEvent handle k =>
      match cx.expireEvent handle, cx.metadata.expireHandlesForward.get handle with
      | .ok (.ok (t, payload), cx'), some key =>
          .next (.expired handle key payload) (.running caller (k (.ok (t, payload))) cx')
      | .ok (r, cx'), _ => .next .internal (.running caller (k r) cx')
      | .panic p, _ => .panic p
      | .running, _ => .panic .expireEvent
  | .emitEvent payload awaited k =>
      if cx.outputsToSwallow > 0 then
        .next .internal (.running caller k (cx.withSwallow (cx.outputsToSwallow - 1)))
      else .emit payload awaited (.running caller k cx)
  | .await k => .await (fun x => .running caller (k x) cx)

/-- Run the future to the next point at which it can be suspended. -/
def advance : SaturationFuture T → Progress T
  | .running caller handler cx => resumeHandler caller handler cx
  | .inputs time [] t cx =>
      .next .internal
        (WrappedTransposer.handleScheduled ⟨t, { cx.metadata with lastUpdated := time }⟩
          time.time cx.outputsToSwallow)
  | .inputs time (event :: rest) t cx =>
      .next (.handleInput event cx.time.time)
        (.running (.input time rest) (Transposer.handleInput t event.1 event.2) cx)
  | .draining time t cx =>
      if cx.metadata.getNextScheduledTime.map (·.time) = some time.time then
        match cx.metadata.popFirstEvent with
        | some ((key, payload), metadata) =>
            .next (.handleScheduled key payload cx.time.time)
              (.running (.scheduled time) (Transposer.handleScheduled t payload)
                { cx with metadata })
        | none => .panic .popFirstEvent
      else .ready ⟨t, cx.metadata⟩

/-! ### What a future stops at -/

/-- What a future does next, where that is not just more work: it emits or awaits when its
    handler does, it is ready when nothing is due any more, and it panics on the schedule. -/
inductive AdvanceCases : SaturationFuture T → Progress T → Prop where
  | next {f l f'} : AdvanceCases f (.next l f')
  | emit {caller handler cx payload awaited k} : resume handler = .emitEvent payload awaited k →
      AdvanceCases (.running caller handler cx) (.emit payload awaited (.running caller k cx))
  | await {caller handler cx k} : resume handler = .await k →
      AdvanceCases (.running caller handler cx) (.await fun x => .running caller (k x) cx)
  | ready {time t cx} : cx.metadata.getNextScheduledTime.map (·.time) ≠ some time.time →
      AdvanceCases (.draining time t cx) (.ready ⟨t, cx.metadata⟩)
  | panic {f site} : site = .expireEvent ∨ site = .popFirstEvent → AdvanceCases f (.panic site)

/-- To resume a handler is one of the cases. -/
theorem resumeHandler_cases (caller : Caller T) (handler : Handler T)
    (cx : SubStepUpdateContext T) :
    AdvanceCases (.running caller handler cx) (resumeHandler caller handler cx) := by
  unfold resumeHandler
  cases hr : resume handler with
  | done _ | currentTime _ | lastUpdatedTime _ | getRng _ => exact .next
  | scheduleEvent time payload k =>
    simp only
    split <;> exact .next
  | scheduleEventExpireable time payload k =>
    simp only
    split <;> exact .next
  | expireEvent e k =>
    simp only [SubStepUpdateContext.expireEvent]
    unfold TransposerMetaData.expireEvent
    cases hf : cx.metadata.expireHandlesForward.get e with
    | none => exact .next
    | some key =>
      cases hs : cx.metadata.schedule.get key with
      | none => simpa [hs] using AdvanceCases.panic (Or.inl rfl)
      | some payload => simpa [hs] using AdvanceCases.next
  | emitEvent e b k =>
    simp only
    split
    · exact .next
    · exact .emit hr
  | await k => exact .await hr

/-- What a future does next is one of the cases. -/
theorem advance_cases (f : SaturationFuture T) : AdvanceCases f f.advance := by
  cases f with
  | running caller handler cx => exact resumeHandler_cases caller handler cx
  | inputs time rest t cx => cases rest <;> exact .next
  | draining time t cx =>
    simp only [advance]
    split
    · split
      · exact .next
      · exact .panic (Or.inr rfl)
    · rename_i hdue
      exact .ready hdue

/-! ### The calls of a handler, one by one -/

section Calls

variable {caller : Caller T} {handler : Handler T} {cx : SubStepUpdateContext T}

/-- A handler that is done gives way to what follows it. -/
theorem advance_done {t : T} (h : resume handler = .done t) :
    advance (.running caller handler cx) = .next .internal (resumeCaller caller t cx) := by
  simp only [advance, resumeHandler, h]

/-- A handler that asks for the time is told it. -/
theorem advance_currentTime {k : Time T → Handler T} (h : resume handler = .currentTime k) :
    advance (.running caller handler cx)
      = .next .internal (.running caller (k cx.time.time) cx) := by
  simp only [advance, resumeHandler, h]

/-- An event that is not before the current time is scheduled. -/
theorem advance_scheduleEvent {time : Time T} {payload : Scheduled T}
    {k : Except ScheduleEventError Unit → Handler T}
    (h : resume handler = .scheduleEvent time payload k) (hle : cx.time.time ≤ time) :
    advance (.running caller handler cx)
      = .next (.accepted (cx.nextKey time) payload none) (.running caller (k (.ok ())) { cx with
          metadata := cx.metadata.scheduleEvent (cx.nextKey time) payload
          currentEmissionIndex := cx.currentEmissionIndex + 1 }) := by
  simp only [advance, resumeHandler, h, SubStepUpdateContext.scheduleEvent, not_lt.mpr hle,
    if_false]

/-- An event is emitted when none is left to swallow. -/
theorem advance_emitEvent {payload : OutputEvent T} {awaited : Bool} {k : Handler T}
    (h : resume handler = .emitEvent payload awaited k) (hswallow : cx.outputsToSwallow = 0) :
    advance (.running caller handler cx) = .emit payload awaited (.running caller k cx) := by
  simp only [advance, resumeHandler, h, hswallow, gt_iff_lt, lt_irrefl, if_false]

end Calls

end SaturationFuture

/-- Only the loop over the events that are due gets ready, with the metadata it works on. -/
theorem advance_ready {f : SaturationFuture T} {w : WrappedTransposer T}
    (h : f.advance = .ready w) : ∃ time t cx, f = .draining time t cx ∧ w = ⟨t, cx.metadata⟩ := by
  have hcases := f.advance_cases
  rw [h] at hcases
  cases hcases with
  | ready _ => exact ⟨_, _, _, rfl, rfl⟩

/-- The bodies themselves only panic on the schedule. -/
theorem advance_panic {f : SaturationFuture T} {site : Panic} (h : f.advance = .panic site) :
    site = .expireEvent ∨ site = .popFirstEvent := by
  have hcases := f.advance_cases
  rw [h] at hcases
  cases hcases with
  | panic hsite => exact hsite

end Cozal
