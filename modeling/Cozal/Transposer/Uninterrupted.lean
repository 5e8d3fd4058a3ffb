import Cozal.Lib.Run
import Cozal.Transposer.Step

namespace Cozal

open Transposer

/-!
# What a step emits when nothing interrupts it

The code drives a saturation future through a channel, poll by poll, and may have told it to
swallow its first outputs.  This file states what the same future does when it is simply run:
`FutureStep` is one piece of work of it, with what it emits.

* `FutureStep.functional` — for a deterministic transposer there is only one such run.
* `Emits`, `Completes` — what a future has emitted at some point, and at its end.
* `advance_withSwallow` — a future that swallows outputs does what the future that swallows
  none does, with the emissions in question turned into internal work.
-/

variable {T : Type} [Transposer T]

/-- One piece of work of a future, with what it emits. -/
inductive FutureStep : SaturationFuture T → List (OutputEvent T) → SaturationFuture T → Prop where
  | next {f l f'} : f.advance = .next l f' → FutureStep f [] f'
  | emit {f e b f'} : f.advance = .emit e b f' → FutureStep f [e] f'
  | await {f k} (x : Response T) : f.advance = .await k → FutureStep f [] (k x)

/-- At some point of its run the future has emitted exactly `o`. -/
def Emits (f : SaturationFuture T) (o : List (OutputEvent T)) : Prop :=
  ∃ g, Run FutureStep f o g

/-- The future runs to its end, emits `o` and leaves the transposer as `w`. -/
def Completes (f : SaturationFuture T) (o : List (OutputEvent T)) (w : WrappedTransposer T) :
    Prop :=
  ∃ g, Run FutureStep f o g ∧ g.advance = .ready w

/-- A future that has run to its end has emitted what it did. -/
theorem Completes.emits {f : SaturationFuture T} {o : List (OutputEvent T)}
    {w : WrappedTransposer T} (h : Completes f o w) : Emits f o :=
  h.imp fun _ hg => hg.1

/-- A future that is ready does no more work. -/
theorem halted_of_ready {f : SaturationFuture T} {w : WrappedTransposer T}
    (h : f.advance = .ready w) : Halted FutureStep f := by
  intro o f' hstep
  cases hstep with
  | next h' => rw [h] at h'; cases h'
  | emit h' => rw [h] at h'; cases h'
  | await x h' => rw [h] at h'; cases h'

/-- The continuation of an awaiting future is that of its handler. -/
theorem advance_await_const (hd : Deterministic T) {f : SaturationFuture T} {k}
    (h : f.advance = .await k) (x y : Response T) : k x = k y := by
  have hcases := f.advance_cases
  rw [h] at hcases
  cases hcases with
  | await hr => simp only [hd.handler hr x y]

/-- A deterministic transposer leaves a future one thing to do. -/
theorem FutureStep.functional (hd : Deterministic T) :
    Functional (FutureStep : SaturationFuture T → _ → _ → Prop) := by
  intro f o o' f' f'' h h'
  cases h with
  | next h =>
    cases h' with
    | next h' => rw [h] at h'; cases h'; exact ⟨rfl, rfl⟩
    | emit h' => rw [h] at h'; cases h'
    | await _ h' => rw [h] at h'; cases h'
  | emit h =>
    cases h' with
    | next h' => rw [h] at h'; cases h'
    | emit h' => rw [h] at h'; cases h'; exact ⟨rfl, rfl⟩
    | await _ h' => rw [h] at h'; cases h'
  | await x h =>
    cases h' with
    | next h' => rw [h] at h'; cases h'
    | emit h' => rw [h] at h'; cases h'
    | await y h' =>
      rw [h] at h'; cases h'
      exact ⟨rfl, advance_await_const hd h x y⟩

/-- What a deterministic future has emitted at some point is a prefix of what it has emitted
    at its end. -/
theorem Completes.covers (hd : Deterministic T) {f : SaturationFuture T}
    {o o' : List (OutputEvent T)} {w : WrappedTransposer T} (h : Completes f o w)
    (h' : Emits f o') : o' <+: o := by
  obtain ⟨g, hg, hw⟩ := h
  obtain ⟨g', hg'⟩ := h'
  obtain ⟨o'', rfl, _⟩ := (FutureStep.functional hd).continues hg' hg (halted_of_ready hw)
  exact List.prefix_append _ _

/-- A deterministic future has one end. -/
theorem Completes.unique (hd : Deterministic T) {f : SaturationFuture T}
    {o o' : List (OutputEvent T)} {w w' : WrappedTransposer T} (h : Completes f o w)
    (h' : Completes f o' w') : o = o' ∧ w = w' := by
  obtain ⟨g, hg, hw⟩ := h
  obtain ⟨g', hg', hw'⟩ := h'
  obtain ⟨rfl, rfl⟩ := (FutureStep.functional hd).halted_unique hg hg' (halted_of_ready hw)
    (halted_of_ready hw')
  rw [hw] at hw'
  exact ⟨rfl, Progress.ready.inj hw'⟩

/-- Of two lists a deterministic future has emitted, the shorter is a prefix of the longer. -/
theorem Emits.prefix_of_length_le (hd : Deterministic T) {f : SaturationFuture T}
    {o o' : List (OutputEvent T)} (h : Emits f o) (h' : Emits f o')
    (hlen : o.length ≤ o'.length) : o <+: o' := by
  obtain ⟨g, hg⟩ := h
  obtain ⟨g', hg'⟩ := h'
  rcases (FutureStep.functional hd).total hg hg' with ⟨o'', rfl, _⟩ | ⟨o'', rfl, _⟩
  · exact List.prefix_append _ _
  · have : o'' = [] := by
      rw [List.length_append] at hlen
      exact List.length_eq_zero_iff.mp (by omega)
    simp [this]

/-! ### Swallowed outputs -/

namespace SaturationFuture

/-- The future with another number of outputs to swallow. -/
def withSwallow (n : ℕ) : SaturationFuture T → SaturationFuture T
  | .running caller handler cx => .running caller handler (cx.withSwallow n)
  | .inputs time rest t cx => .inputs time rest t (cx.withSwallow n)
  | .draining time t cx => .draining time t (cx.withSwallow n)

end SaturationFuture

/-- What a future that swallows no output gets to, seen from the future that swallows `n`:
    an emission is swallowed when there is one to swallow. -/
def Progress.withSwallow (n : ℕ) : Progress T → Progress T
  | .next l f => .next l (f.withSwallow n)
  | .emit e b f =>
      if n > 0 then .next .internal (f.withSwallow (n - 1)) else .emit e b (f.withSwallow n)
  | .await k => .await (fun x => (k x).withSwallow n)
  | .ready w => .ready w
  | .panic site => .panic site

/-- A future that starts swallows as many outputs as it is told to. -/
theorem handleScheduled_withSwallow (w : WrappedTransposer T) (t : Time T) (n m : ℕ) :
    (w.handleScheduled t m).withSwallow n = w.handleScheduled t n := rfl

/-- What follows a handler does not look at the outputs to swallow. -/
theorem resumeCaller_withSwallow (caller : Caller T) (t : T) (cx : SubStepUpdateContext T)
    (n : ℕ) :
    SaturationFuture.resumeCaller caller t (cx.withSwallow n)
      = (SaturationFuture.resumeCaller caller t cx).withSwallow n := by
  cases caller <;> rfl

/-- The handlers and the loops around them never look at the outputs to swallow. -/
theorem advance_withSwallow {f : SaturationFuture T} (hf : f.cx.outputsToSwallow = 0) (n : ℕ) :
    (f.withSwallow n).advance = f.advance.withSwallow n := by
  cases f with
  | running caller handler cx =>
    have hcx : cx.outputsToSwallow = 0 := hf
    simp only [SaturationFuture.withSwallow, SaturationFuture.advance,
      SaturationFuture.resumeHandler]
    cases resume handler with
    | done t => simp only [Progress.withSwallow, resumeCaller_withSwallow]
    | currentTime k | lastUpdatedTime k | getRng k | await k => rfl
    | scheduleEvent time payload k =>
      by_cases ht : time < cx.time.time <;>
        simp [SubStepUpdateContext.scheduleEvent, SubStepUpdateContext.withSwallow, ht,
          Progress.withSwallow, SaturationFuture.withSwallow, SubStepUpdateContext.nextKey]
    | scheduleEventExpireable time payload k =>
      by_cases ht : time < cx.time.time <;>
        simp [SubStepUpdateContext.scheduleEventExpireable, SubStepUpdateContext.withSwallow, ht,
          Progress.withSwallow, SaturationFuture.withSwallow, SubStepUpdateContext.nextKey]
    | expireEvent handle k =>
      simp only [SubStepUpdateContext.expireEvent, SubStepUpdateContext.withSwallow]
      cases cx.metadata.expireEvent handle with
      | panic p | running => rfl
      | ok r =>
        obtain ⟨r, m⟩ := r
        cases r with
        | error e => rfl
        | ok v => cases cx.metadata.expireHandlesForward.get handle <;> rfl
    | emitEvent e b k =>
      simp only [SubStepUpdateContext.withSwallow, hcx, Progress.withSwallow,
        SaturationFuture.withSwallow, gt_iff_lt, lt_irrefl, if_false]
  | inputs time rest t cx => cases rest <;> rfl
  | draining time t cx =>
    simp only [SaturationFuture.withSwallow, SaturationFuture.advance,
      SubStepUpdateContext.withSwallow]
    split
    · cases cx.metadata.popFirstEvent <;> rfl
    · rfl

/-- A future that swallows no output goes on to swallow none. -/
theorem FutureStep.outputsToSwallow {f f' : SaturationFuture T} {o : List (OutputEvent T)}
    (h : FutureStep f o f') (hf : f.cx.outputsToSwallow = 0) : f'.cx.outputsToSwallow = 0 := by
  -- the work is the same when the future is told to swallow no output, and then says so
  have hself : f.withSwallow 0 = f := by
    cases f <;> simp only [SaturationFuture.cx] at hf <;>
      simp [SaturationFuture.withSwallow, SubStepUpdateContext.withSwallow, ← hf]
  have hadv := advance_withSwallow hf 0
  rw [hself] at hadv
  have key : ∀ g : SaturationFuture T, (g.withSwallow 0).cx.outputsToSwallow = 0 := by
    intro g; cases g <;> rfl
  cases h with
  | next h =>
    rw [h, Progress.withSwallow, Progress.next.injEq] at hadv
    rw [hadv.2]; exact key _
  | emit h =>
    simp only [h, Progress.withSwallow, gt_iff_lt, lt_irrefl, if_false,
      Progress.emit.injEq] at hadv
    rw [hadv.2.2]; exact key _
  | @await k x h =>
    rw [h, Progress.withSwallow, Progress.await.injEq] at hadv
    rw [congrFun hadv x]; exact key _

end Cozal
