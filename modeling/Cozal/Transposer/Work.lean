import Cozal.Lib.Run
import Cozal.Transposer.Step

namespace Cozal

open Transposer

/-!
# What a piece of work can do

The invariants of a transposer's metadata do not depend on what its handlers are.  This file
says once what one piece of work of a future can do, whatever the handler is, so that each
invariant is a case analysis over a few cases.

* `LabelStep` — one piece of work, with its label.
* `ContextWork` — what a call on the context does to it.
* `FutureWork`, `LabelStep.work` — the cases of a piece of work.
* `pollFuture_run` — a poll is a run of pieces of work.
-/

variable {T : Type} [Transposer T]

/-- One piece of work of a future, with its label. -/
inductive LabelStep : SaturationFuture T → List (Label T) → SaturationFuture T → Prop where
  | next {f l f'} : f.advance = .next l f' → LabelStep f [l] f'
  | emit {f e b f'} : f.advance = .emit e b f' → LabelStep f [.internal] f'
  | await {f k} (x : Response T) : f.advance = .await k → LabelStep f [.internal] (k x)

/-- What a call of a handler does to its context. -/
inductive ContextWork : SubStepUpdateContext T → Label T → SubStepUpdateContext T → Prop where
  | silent (cx : SubStepUpdateContext T) (n : ℕ) (rng : Rng T) :
      ContextWork cx .internal ((cx.withSwallow n).setRng rng)
  | schedule (cx : SubStepUpdateContext T) (time : Time T) (payload : Scheduled T) :
      cx.time.time ≤ time →
      ContextWork cx (.accepted (cx.nextKey time) payload none)
        { cx with
          metadata := cx.metadata.scheduleEvent (cx.nextKey time) payload
          currentEmissionIndex := cx.currentEmissionIndex + 1 }
  | scheduleExpireable (cx : SubStepUpdateContext T) (time : Time T) (payload : Scheduled T) :
      cx.time.time ≤ time →
      ContextWork cx
        (.accepted (cx.nextKey time) payload (some cx.metadata.expireHandleFactory))
        { cx with
          metadata := (cx.metadata.scheduleEventExpireable (cx.nextKey time) payload).2
          currentEmissionIndex := cx.currentEmissionIndex + 1 }
  | expire (cx : SubStepUpdateContext T) (handle : ExpireHandle)
      (key : ScheduledTime (Time T)) (payload : Scheduled T) :
      cx.metadata.expireHandlesForward.get handle = some key →
      cx.metadata.schedule.get key = some payload →
      ContextWork cx (.expired handle key payload)
        { cx with metadata := { cx.metadata with
          schedule := cx.metadata.schedule.remove key
          expireHandlesBackward := cx.metadata.expireHandlesBackward.remove key
          expireHandlesForward := cx.metadata.expireHandlesForward.remove handle } }

/-- A context may stay as it is. -/
theorem ContextWork.refl (cx : SubStepUpdateContext T) : ContextWork cx .internal cx :=
  .silent cx cx.outputsToSwallow cx.metadata.rng

/-- What a piece of work of a future can be. -/
inductive FutureWork : SaturationFuture T → Label T → SaturationFuture T → Prop where
  | call {caller h h' cx l cx'} : ContextWork cx l cx' →
      FutureWork (.running caller h cx) l (.running caller h' cx')
  | done {caller h t cx} :
      FutureWork (.running caller h cx) .internal (SaturationFuture.resumeCaller caller t cx)
  | inputsDone {time t cx} :
      FutureWork (.inputs time [] t cx) .internal
        (WrappedTransposer.handleScheduled ⟨t, { cx.metadata with lastUpdated := time }⟩
          time.time cx.outputsToSwallow)
  | input {time event rest t h cx} :
      FutureWork (.inputs time (event :: rest) t cx) (.handleInput event cx.time.time)
        (.running (.input time rest) h cx)
  | pop {time t h cx key payload metadata} :
      key.time = time.time → cx.metadata.popFirstEvent = some ((key, payload), metadata) →
      FutureWork (.draining time t cx) (.handleScheduled key payload cx.time.time)
        (.running (.scheduled time) h { cx with metadata })

/-- The first scheduled time is that of the event that is popped. -/
theorem popFirstEvent_time {m m' : TransposerMetaData T} {k : ScheduledTime (Time T)}
    {p : Scheduled T} (h : m.popFirstEvent = some ((k, p), m')) :
    m.getNextScheduledTime = some k := by
  simp [TransposerMetaData.getNextScheduledTime,
    (TransposerMetaData.popFirstEvent_cases h).1]

/-- What a handler does is a call on its context, or its end. -/
theorem futureWork_of_resumeHandler {caller : Caller T} {handler : Handler T}
    {cx : SubStepUpdateContext T} {f' : SaturationFuture T} {l : Label T}
    (h : SaturationFuture.resumeHandler caller handler cx = .next l f') :
    FutureWork (.running caller handler cx) l f' := by
  unfold SaturationFuture.resumeHandler at h
  cases hr : resume handler with
  | done t => simp only [hr, Progress.next.injEq] at h; obtain ⟨rfl, rfl⟩ := h; exact .done
  | currentTime k | lastUpdatedTime k =>
    simp only [hr, Progress.next.injEq] at h
    obtain ⟨rfl, rfl⟩ := h
    exact .call (.refl cx)
  | getRng k =>
    simp only [hr, Progress.next.injEq] at h
    obtain ⟨rfl, rfl⟩ := h
    exact .call (.silent cx cx.outputsToSwallow _)
  | scheduleEvent time payload k =>
    -- a time in the past is refused
    simp only [hr, SubStepUpdateContext.scheduleEvent] at h
    by_cases ht : time < cx.time.time
    · simp only [ht, if_true, Progress.next.injEq] at h
      obtain ⟨rfl, rfl⟩ := h
      exact .call (.refl cx)
    · simp only [ht, if_false, Progress.next.injEq] at h
      obtain ⟨rfl, rfl⟩ := h
      exact .call (.schedule cx time payload (not_lt.mp ht))
  | scheduleEventExpireable time payload k =>
    simp only [hr, SubStepUpdateContext.scheduleEventExpireable] at h
    by_cases ht : time < cx.time.time
    · simp only [ht, if_true, Progress.next.injEq] at h
      obtain ⟨rfl, rfl⟩ := h
      exact .call (.refl cx)
    · simp only [ht, if_false, Progress.next.injEq] at h
      obtain ⟨rfl, rfl⟩ := h
      exact .call (.scheduleExpireable cx time payload (not_lt.mp ht))
  | expireEvent handle k =>
    simp only [hr, SubStepUpdateContext.expireEvent] at h
    cases he : cx.metadata.expireEvent handle with
    | panic site | running => simp [he] at h
    | ok r =>
      -- so is a handle that was used
      obtain ⟨r, m⟩ := r
      rcases TransposerMetaData.expireEvent_cases he with
        ⟨hf, rfl, rfl⟩ | ⟨key, payload, hf, hs, rfl, rfl⟩
      · simp only [he, Outcome.ok_bind, Outcome.pure_eq, Progress.next.injEq] at h
        obtain ⟨rfl, rfl⟩ := h
        exact .call (.refl cx)
      · simp only [he, hf, Outcome.ok_bind, Outcome.pure_eq, Progress.next.injEq] at h
        obtain ⟨rfl, rfl⟩ := h
        exact .call (.expire cx handle key payload hf hs)
  | emitEvent e b k =>
    simp only [hr] at h
    split at h
    · simp only [Progress.next.injEq] at h
      obtain ⟨rfl, rfl⟩ := h
      exact .call (.silent cx (cx.outputsToSwallow - 1) cx.metadata.rng)
    · cases h
  | await k => simp [hr] at h

/-- Every piece of work is one of the cases. -/
theorem futureWork_of_next {f f' : SaturationFuture T} {l : Label T}
    (h : f.advance = .next l f') : FutureWork f l f' := by
  cases f with
  | running caller handler cx => exact futureWork_of_resumeHandler h
  | inputs time rest t cx =>
    cases rest with
    | nil =>
      simp only [SaturationFuture.advance, Progress.next.injEq] at h
      obtain ⟨rfl, rfl⟩ := h
      exact .inputsDone
    | cons event rest =>
      simp only [SaturationFuture.advance, Progress.next.injEq] at h
      obtain ⟨rfl, rfl⟩ := h
      exact .input
  | draining time t cx =>
    simp only [SaturationFuture.advance] at h
    split at h
    · rename_i hdue
      split at h
      · rename_i key payload metadata hpop
        simp only [Progress.next.injEq] at h
        obtain ⟨rfl, rfl⟩ := h
        rw [popFirstEvent_time hpop, Option.map_some, Option.some.injEq] at hdue
        exact .pop hdue hpop
      · cases h
    · cases h

/-- To emit an event is a piece of work. -/
theorem futureWork_of_emit {f f' : SaturationFuture T} {e : OutputEvent T} {b : Bool}
    (h : f.advance = .emit e b f') : FutureWork f .internal f' := by
  have hcases := f.advance_cases
  rw [h] at hcases
  cases hcases with
  | emit _ => exact .call (.refl _)

/-- To wait for an answer is a piece of work. -/
theorem futureWork_of_await {f : SaturationFuture T} {k}
    (h : f.advance = .await k) (x : Response T) : FutureWork f .internal (k x) := by
  have hcases := f.advance_cases
  rw [h] at hcases
  cases hcases with
  | await _ => exact .call (.refl _)

/-- A piece of work has one label, and is one of the cases. -/
theorem LabelStep.work {f f' : SaturationFuture T} {ls : List (Label T)}
    (h : LabelStep f ls f') : ∃ l, ls = [l] ∧ FutureWork f l f' := by
  cases h with
  | next h => exact ⟨_, rfl, futureWork_of_next h⟩
  | emit h => exact ⟨_, rfl, futureWork_of_emit h⟩
  | await x h => exact ⟨_, rfl, futureWork_of_await h x⟩

/-! ### Runs of work -/

/-- What a poll of a future leaves is where a run of work gets to, with the labels of it. -/
def PollRuns (f : SaturationFuture T) (p : FuturePolled T) : Prop :=
  match p.poll with
  | .ready w => ∃ g, Run LabelStep f p.labels g ∧ g.advance = .ready w
  | .pending g _ => Run LabelStep f p.labels g

/-- Work before a poll is work of the poll. -/
theorem PollRuns.head {f f' : SaturationFuture T} {l : Label T} {p : FuturePolled T}
    (hstep : LabelStep f [l] f') (h : PollRuns f' p) : PollRuns f (p.after l) := by
  obtain ⟨poll, ch, answers, labels⟩ := p
  cases poll with
  | ready w =>
    obtain ⟨g, hg, hw⟩ := h
    exact ⟨g, Run.head hstep hg, hw⟩
  | pending g a => exact Run.head hstep h

/-- A poll of a future is a run of work. -/
theorem pollFuture_run {fuel : ℕ} {answers : List (Response T)} {f : SaturationFuture T}
    {a : Option ℕ} {ch : OutputChannel T} {p : FuturePolled T}
    (h : pollFuture fuel answers f a ch = .ok p) : PollRuns f p := by
  induction fuel generalizing answers f a ch p with
  | zero => cases a <;> cases h
  | succ fuel ih =>
    cases a with
    | some i =>
      simp only [pollFuture] at h
      split at h
      · exact ih h
      · cases h; exact .refl f
      · cases h
    | none =>
      rw [pollFuture] at h
      cases hadv : f.advance with
      | next l f' =>
        simp only [hadv, Outcome.bind_eq_ok, Outcome.pure_eq, Outcome.ok.injEq] at h
        obtain ⟨q, hq, rfl⟩ := h
        exact .head (.next hadv) (ih hq)
      | emit e b f' =>
        simp only [hadv, Outcome.bind_eq_ok, Outcome.pure_eq, Outcome.ok.injEq] at h
        obtain ⟨ch', -, q, hq, rfl⟩ := h
        exact .head (.emit hadv) (ih hq)
      | await k =>
        simp only [hadv] at h
        cases answers with
        | nil => cases h; exact .refl f
        | cons x answers =>
          simp only [Outcome.bind_eq_ok, Outcome.pure_eq, Outcome.ok.injEq] at h
          obtain ⟨q, hq, rfl⟩ := h
          exact .head (.await x hadv) (ih hq)
      | ready w => simp only [hadv] at h; cases h; exact ⟨f, .refl f, hadv⟩
      | panic site => simp [hadv] at h

/-- A poll of a step that finds it saturating is a run of work of its future. -/
theorem Step.poll_run {s : Step T} {fuel : ℕ} {answers : List (Response T)} {f a ch}
    {p : StepPolled T} (hst : s.status = .saturating f a ch) (h : s.poll fuel answers = .ok p) :
    p.step.data = s.data ∧ p.step.uuidSelf = s.uuidSelf ∧ p.step.uuidPrev = s.uuidPrev ∧
      ((∃ w g, p.result = .ok .ready ∧ p.step.status = .saturated w ∧
          p.step.canProduceEvents = false ∧ p.step.eventCount = s.eventCount ∧
          Run LabelStep f p.labels g ∧ g.advance = .ready w) ∨
        (∃ g a' ch', p.step.status = .saturating g a' ch' ∧
          p.step.canProduceEvents = s.canProduceEvents ∧ Run LabelStep f p.labels g ∧
          (p.result = .ok .pending ∧ p.step.eventCount = s.eventCount ∨
            ∃ e, p.result = .ok (.emitted e) ∧ p.step.eventCount = s.eventCount + 1))) := by
  simp only [Step.poll, hst, Outcome.bind_eq_ok] at h
  obtain ⟨q, hq, h⟩ := h
  have hrun := pollFuture_run hq
  obtain ⟨poll, ch', answers', labels⟩ := q
  cases poll with
  | ready w =>
    simp only [Outcome.pure_eq, Outcome.ok.injEq] at h
    subst h
    obtain ⟨g, hg, hw⟩ := hrun
    exact ⟨rfl, rfl, rfl, Or.inl ⟨w, g, rfl, rfl, rfl, rfl, hg, hw⟩⟩
  | pending g a' =>
    simp only at h
    split at h
    · simp only [Outcome.pure_eq, Outcome.ok.injEq] at h
      subst h
      exact ⟨rfl, rfl, rfl, Or.inr ⟨g, a', _, rfl, rfl, hrun, Or.inr ⟨_, rfl, rfl⟩⟩⟩
    · simp only [Outcome.pure_eq, Outcome.ok.injEq] at h
      subst h
      exact ⟨rfl, rfl, rfl, Or.inr ⟨g, a', _, rfl, rfl, hrun, Or.inl ⟨rfl, rfl⟩⟩⟩

/-- A poll of a step that is not saturating is refused and changes nothing. -/
theorem Step.poll_refused {s : Step T} {fuel : ℕ} {answers : List (Response T)}
    {p : StepPolled T} (hst : s.isSaturating = false) (h : s.poll fuel answers = .ok p) :
    p.step = s ∧ p.labels = [] ∧ p.answers = answers ∧ ∃ e, p.result = .error e := by
  cases hs : s.status with
  | saturating f a ch => simp [Step.isSaturating, hs] at hst
  | unsaturated =>
    simp only [Step.poll, hs, Outcome.pure_eq, Outcome.ok.injEq] at h
    subst h
    exact ⟨rfl, rfl, rfl, _, rfl⟩
  | saturated w =>
    simp only [Step.poll, hs, Outcome.pure_eq, Outcome.ok.injEq] at h
    subst h
    exact ⟨rfl, rfl, rfl, _, rfl⟩

end Cozal
