import Cozal.Transposer.Emission
import Cozal.Transposer.Chain

namespace Cozal

open Transposer

/-!
# A step makes progress

The invariants of a step say that what a poll returns is right.  Here: it does return, with enough
fuel and the answers its handlers wait for, whatever its future still has to swallow.

* `pollFuture_reaches` — work that only swallows outputs can be put before a poll.
* `pollFuture_emits`, `pollFuture_ready` — a poll of a future that is about to emit, or is ready.
* `Tracks.emits_next` — a step whose run emits one more event can be polled for it.
* `Tracks.completes_next` — a step whose run ends there can be polled to its end.
-/

variable {T : Type} [Transposer T]

/-! ### Polls of a future -/

/-- A run that swallows all it emits can be put before a poll. -/
theorem pollFuture_reaches {g g' : SaturationFuture T} {o : List (OutputEvent T)}
    (hrun : Run FutureStep g o g') (hg : g.cx.outputsToSwallow = 0) {n : ℕ} (hn : o.length ≤ n)
    {fuel : ℕ} {answers : List (Response T)} {ch : OutputChannel T} {p : FuturePolled T}
    (h : pollFuture fuel answers (g'.withSwallow (n - o.length)) none ch = .ok p) :
    ∃ fuel' answers' p', pollFuture fuel' answers' (g.withSwallow n) none ch = .ok p' ∧
      p'.poll = p.poll ∧ p'.channel = p.channel := by
  induction hrun generalizing n with
  | refl g => exact ⟨fuel, answers, p, by simpa using h, rfl, rfl⟩
  | @head g g₁ g' o os hstep _ ih =>
    rw [List.length_append] at hn h
    have hg₁ := hstep.outputsToSwallow hg
    cases hstep with
    | @next l _ hadv =>
      obtain ⟨fuel', answers', p', hp', hpoll, hch⟩ := ih hg₁ (by simpa using hn)
        (by simpa using h)
      refine ⟨fuel' + 1, answers', p'.after l, ?_, hpoll, hch⟩
      rw [pollFuture, advance_withSwallow hg, hadv]
      simp only [Progress.withSwallow, hp', Outcome.ok_bind, Outcome.pure_eq]
    | emit hadv =>
      -- there is an output to swallow
      rw [List.length_singleton] at hn h
      have hpos : n > 0 := by omega
      rw [Nat.sub_add_eq] at h
      obtain ⟨fuel', answers', p', hp', hpoll, hch⟩ := ih hg₁ (by omega) h
      refine ⟨fuel' + 1, answers', p'.after .internal, ?_, hpoll, hch⟩
      rw [pollFuture, advance_withSwallow hg, hadv, Progress.withSwallow, if_pos hpos]
      simp only [hp', Outcome.ok_bind, Outcome.pure_eq]
    | await x hadv =>
      obtain ⟨fuel', answers', p', hp', hpoll, hch⟩ := ih hg₁ (by simpa using hn)
        (by simpa using h)
      refine ⟨fuel' + 1, x :: answers', p'.after .internal, ?_, hpoll, hch⟩
      rw [pollFuture, advance_withSwallow hg, hadv]
      simp only [Progress.withSwallow, hp', Outcome.ok_bind, Outcome.pure_eq]

/-- A future that has been acknowledged, or waits for nothing, is polled from where it is. -/
theorem pollFuture_idle {fuel : ℕ} {answers : List (Response T)} {f : SaturationFuture T}
    {a : Option ℕ} {ch : OutputChannel T} {p : FuturePolled T} (hidle : Idle a ch)
    (h : pollFuture fuel answers f none ch = .ok p) :
    ∃ fuel', pollFuture fuel' answers f a ch = .ok p := by
  cases a with
  | none => exact ⟨fuel, h⟩
  | some i => exact ⟨fuel + 1, by simp only [pollFuture, hidle.2 i rfl, h]⟩

/-- A poll of a future that is about to emit sends the event and waits. -/
theorem pollFuture_emits {f f' : SaturationFuture T} {e : OutputEvent T} {ch : OutputChannel T}
    (hf : f.cx.outputsToSwallow = 0) (hadv : f.advance = .emit e true f') (hq : ch.queue = []) :
    ∃ p, pollFuture 2 [] (f.withSwallow 0) none ch = .ok p ∧
      p.poll = .pending (f'.withSwallow 0) (some ch.acks.length) ∧
      p.channel.queue = [(e, ch.acks.length)] := by
  refine ⟨⟨.pending (f'.withSwallow 0) (some ch.acks.length),
    ⟨[(e, ch.acks.length)], ch.acks ++ [.waiting]⟩, [], [.internal]⟩, ?_, rfl, rfl⟩
  simp [pollFuture, advance_withSwallow hf, hadv, Progress.withSwallow, OutputChannel.trySend,
    hq, FuturePolled.after]

/-- A poll of a future that is ready. -/
theorem pollFuture_ready {f : SaturationFuture T} {w : WrappedTransposer T} (n : ℕ)
    {ch : OutputChannel T} (hf : f.cx.outputsToSwallow = 0) (hadv : f.advance = .ready w) :
    pollFuture 1 [] (f.withSwallow n) none ch = .ok ⟨.ready w, ch, [], []⟩ := by
  simp [pollFuture, advance_withSwallow hf, hadv, Progress.withSwallow]

/-- A run that emits gets to a point before its last event. -/
theorem run_before_last {g g' : SaturationFuture T} {o rest : List (OutputEvent T)}
    {e : OutputEvent T} (hrun : Run FutureStep g o g') (ho : o = rest ++ [e]) :
    ∃ g₁ b g₂, Run FutureStep g rest g₁ ∧ g₁.advance = .emit e b g₂ := by
  induction hrun generalizing rest with
  | refl => simp at ho
  | @head g g₁ g' o os hstep _ ih =>
    cases hstep with
    | next h =>
      obtain ⟨u, b, v, hu, hv⟩ := ih (by simpa using ho)
      exact ⟨u, b, v, by simpa using hu.head (.next h), hv⟩
    | await x h =>
      obtain ⟨u, b, v, hu, hv⟩ := ih (by simpa using ho)
      exact ⟨u, b, v, by simpa using hu.head (.await x h), hv⟩
    | @emit e' b _ h =>
      cases rest with
      | nil =>
        obtain ⟨rfl, -⟩ := List.cons.inj ho
        exact ⟨g, b, g₁, .refl g, h⟩
      | cons e'' rest =>
        obtain ⟨rfl, hos⟩ := List.cons.inj ho
        obtain ⟨u, b', v, hu, hv⟩ := ih hos
        exact ⟨u, b', v, hu.head (.emit h), hv⟩

/-! ### Polls of a step -/

/-- A poll of the future of a step is a poll of the step. -/
theorem Step.poll_of_pollFuture {x : Step T} {f : SaturationFuture T} {a : Option ℕ}
    {ch : OutputChannel T} (hst : x.status = .saturating f a ch) {fuel : ℕ}
    {answers : List (Response T)} {q : FuturePolled T}
    (hq : pollFuture fuel answers f a ch = .ok q) :
    (∀ w, q.poll = .ready w → ∃ p, x.poll fuel answers = .ok p ∧ p.result = .ok .ready) ∧
    ∀ g b e i, q.poll = .pending g b → q.channel.queue = [(e, i)] →
      ∃ p, x.poll fuel answers = .ok p ∧ p.result = .ok (.emitted e) := by
  refine ⟨?_, ?_⟩
  · intro w hw
    simp only [Step.poll, hst, hq, Outcome.ok_bind, hw, Outcome.pure_eq]
    exact ⟨_, rfl, rfl⟩
  · intro g b e i hpending hqueue
    simp only [Step.poll, hst, hq, Outcome.ok_bind, hpending, OutputChannel.receive, hqueue,
      Outcome.pure_eq]
    exact ⟨_, rfl, rfl⟩

namespace Tracks

variable {start : SaturationFuture T} {x : Step T} {emitted : List (OutputEvent T)}

/-- **The next event can be polled for.** -/
theorem emits_next (hd : Deterministic T) (ha : AwaitsEmissions T) (h : Tracks start x emitted)
    (hsat : x.isSaturating = true) {e : OutputEvent T} (he : Emits start (emitted ++ [e])) :
    ∃ fuel answers p, x.poll fuel answers = .ok p ∧ p.result = .ok (.emitted e) := by
  obtain ⟨f, a, ch, hst⟩ := Step.isSaturating_iff.mp hsat
  obtain ⟨hidle, o, g, hrun, hg, hpre, rfl⟩ := h.saturating f a ch hst
  obtain ⟨g', hrun'⟩ := he
  -- the run goes on from where the step stands, as that has not come past what has gone out
  obtain ⟨rest, hrest, hon⟩ : ∃ rest, emitted = o ++ rest ∧
      Run FutureStep g (rest ++ [e]) g' := by
    obtain ⟨rest, rfl⟩ := hpre
    refine ⟨rest, rfl, ?_⟩
    rcases (FutureStep.functional hd).total hrun hrun' with ⟨os, heq, hon⟩ | ⟨os, heq, -⟩
    · rw [List.append_assoc, List.append_cancel_left_eq] at heq
      exact heq ▸ hon
    · have hlen := congrArg List.length heq
      simp only [List.length_append, List.length_singleton] at hlen
      omega
  obtain ⟨u, b, v, hu, hadv⟩ := run_before_last hon rfl
  obtain rfl := advance_emit_awaited ha hadv
  have hn : emitted.length - o.length - rest.length = 0 := by
    rw [hrest, List.length_append]
    omega
  have hu₀ := hu.preserves (P := fun f => f.cx.outputsToSwallow = 0)
    (fun hstep hf => hstep.outputsToSwallow hf) hg
  obtain ⟨q, hq, hpoll, hqueue⟩ := pollFuture_emits hu₀ hadv hidle.1
  rw [← hn] at hq
  obtain ⟨fuel, answers, q', hq', hpoll', hch'⟩ := pollFuture_reaches hu hg
    (by rw [hrest, List.length_append]; omega) hq
  obtain ⟨fuel', hq''⟩ := pollFuture_idle hidle hq'
  exact ⟨fuel', answers, (Step.poll_of_pollFuture hst hq'').2 _ _ e _ (hpoll'.trans hpoll)
    (hch' ▸ hqueue)⟩

/-- **The end of the run can be polled for.** -/
theorem completes_next (hd : Deterministic T) (h : Tracks start x emitted)
    (hsat : x.isSaturating = true) {w : WrappedTransposer T}
    (hc : Completes start emitted w) :
    ∃ fuel answers p, x.poll fuel answers = .ok p ∧ p.result = .ok .ready := by
  obtain ⟨f, a, ch, hst⟩ := Step.isSaturating_iff.mp hsat
  obtain ⟨hidle, o, g, hrun, hg, -, rfl⟩ := h.saturating f a ch hst
  obtain ⟨u, hu, hw⟩ := hc
  obtain ⟨rest, hrest, hon⟩ := (FutureStep.functional hd).continues hrun hu (halted_of_ready hw)
  have hu₀ := hon.preserves (P := fun f => f.cx.outputsToSwallow = 0)
    (fun hstep hf => hstep.outputsToSwallow hf) hg
  have hn : rest.length ≤ emitted.length - o.length := by
    rw [hrest, List.length_append]
    omega
  obtain ⟨fuel, answers, q, hq, hpoll, -⟩ := pollFuture_reaches hon hg hn
    (pollFuture_ready _ hu₀ hw)
  obtain ⟨fuel', hq'⟩ := pollFuture_idle hidle hq
  exact ⟨fuel', answers, (Step.poll_of_pollFuture hst hq').1 w hpoll⟩

end Tracks

end Cozal
