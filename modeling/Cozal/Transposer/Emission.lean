import Cozal.Transposer.Script
import Cozal.Transposer.Uninterrupted

namespace Cozal

open Transposer

/-!
# Every event of a step goes out once

`event_count` survives the loss of a step's state and becomes the number of outputs the next
saturation swallows.  For a deterministic transposer that awaits its emissions this makes the
events of one step go out exactly once, however often the step is saturated again.

* `pollFuture_spec` — one poll of a future, told against its uninterrupted run.
* `Tracks` — the invariant of a step: what has gone out so far is what the uninterrupted run
  has emitted at some point, and the state the step is in belongs to that run.
* `Tracks.poll`, `Tracks.saturate`, `Tracks.desaturate` — every operation keeps it.
* `runOps_spec` — so does any sequence of operations on one step, and after the first poll
  that is ready no event comes out.
* `step_emits_exactly_once` — what this says about the events of a step.
-/

variable {T : Type} [Transposer T]

/-! ### One poll of a future -/

/-- The channel is empty, and if the future waits for an acknowledgement then it is there. -/
def Idle (acknowledgement : Option ℕ) (ch : OutputChannel T) : Prop :=
  ch.queue = [] ∧ ∀ i, acknowledgement = some i → ch.acks[i]? = some .sent

/-- What a poll can come to for a future that runs as `f` but still swallows `n` outputs. -/
def PollSpec (n : ℕ) (f : SaturationFuture T) : Outcome (FuturePolled T) → Prop
  | .ok p =>
      match p.poll with
      | .ready w => ∃ o, Completes f o w ∧ o.length ≤ n
      | .pending f' none =>
          ∃ o g, Run FutureStep f o g ∧ o.length ≤ n ∧ g.cx.outputsToSwallow = 0 ∧
            f' = g.withSwallow (n - o.length) ∧ p.channel.queue = []
      | .pending f' (some i) =>
          ∃ o e g, Run FutureStep f (o ++ [e]) g ∧ o.length = n ∧
            g.cx.outputsToSwallow = 0 ∧ f' = g.withSwallow 0 ∧ p.channel.queue = [(e, i)] ∧
            i < p.channel.acks.length
  | .panic site => site ≠ .trySend ∧ site ≠ .acknowledgement
  | .running => True

/-- Work done before a poll, swallowing what it emits, belongs to the poll. -/
theorem PollSpec.head {n m : ℕ} {f f' : SaturationFuture T} {o : List (OutputEvent T)}
    (hstep : FutureStep f o f') (hn : o.length + m = n) {r : Outcome (FuturePolled T)}
    (h : PollSpec m f' r) : PollSpec n f r := by
  cases r with
  | running => exact h
  | panic site => exact h
  | ok p =>
    obtain ⟨poll, ch, answers, labels⟩ := p
    cases poll with
    | ready w =>
      obtain ⟨os, ⟨g, hg, hw⟩, hlen⟩ := h
      exact ⟨o ++ os, ⟨g, .head hstep hg, hw⟩, by simp only [List.length_append]; omega⟩
    | pending future acknowledgement =>
      cases acknowledgement with
      | none =>
        obtain ⟨os, g, hg, hlen, hsw, hf, hq⟩ := h
        refine ⟨o ++ os, g, .head hstep hg, ?_, hsw, ?_, hq⟩
        · simp only [List.length_append]; omega
        · rw [hf, List.length_append, show m - os.length = n - (o.length + os.length) by omega]
      | some i =>
        obtain ⟨os, e, g, hg, hlen, hsw, hf, hq, hi⟩ := h
        refine ⟨o ++ os, e, g, ?_, ?_, hsw, hf, hq, hi⟩
        · rw [List.append_assoc]; exact .head hstep hg
        · simp only [List.length_append]; omega

/-- A poll comes to the same when it is preceded by other work. -/
theorem PollSpec.after {n : ℕ} {f : SaturationFuture T} {r : Outcome (FuturePolled T)}
    (h : PollSpec n f r) (l : Label T) : PollSpec n f (r >>= fun p => pure (p.after l)) := by
  cases r <;> exact h

/-- A transposer that awaits its emissions awaits them at every point of its future. -/
theorem advance_emit_awaited (ha : AwaitsEmissions T) {f f' : SaturationFuture T}
    {e : OutputEvent T} {b : Bool} (h : f.advance = .emit e b f') : b = true := by
  have hcases := f.advance_cases
  rw [h] at hcases
  cases hcases with
  | emit hr => exact ha hr

/-- A future that has just sent a message is pending on its acknowledgement. -/
theorem pollFuture_sent (fuel : ℕ) (answers : List (Response T)) (f : SaturationFuture T)
    (ch : OutputChannel T) (i : ℕ) (h : ch.acks[i]? = some .waiting)
    {r : Outcome (FuturePolled T)} (hr : pollFuture fuel answers f (some i) ch = r) :
    r = .running ∨ r = .ok ⟨.pending f (some i), ch, answers, []⟩ := by
  subst hr
  cases fuel with
  | zero => exact Or.inl rfl
  | succ fuel => simp [pollFuture, h]

/-- **One poll.**  The future that swallows `n` outputs does what the uninterrupted future
    does; it comes back with an event exactly when it emits the one after those `n`. -/
theorem pollFuture_spec (ha : AwaitsEmissions T) (fuel : ℕ) (answers : List (Response T))
    (f : SaturationFuture T) (hf : f.cx.outputsToSwallow = 0) (n : ℕ)
    (acknowledgement : Option ℕ) (ch : OutputChannel T) (hidle : Idle acknowledgement ch) :
    PollSpec n f (pollFuture fuel answers (f.withSwallow n) acknowledgement ch) := by
  induction fuel generalizing answers f n acknowledgement ch with
  | zero => cases acknowledgement <;> trivial
  | succ fuel ih =>
    cases acknowledgement with
    | some i =>
      simp only [pollFuture, hidle.2 i rfl]
      exact ih answers f hf n none ch ⟨hidle.1, by simp⟩
    | none =>
      rw [pollFuture, advance_withSwallow hf]
      cases hadv : f.advance with
      | next l f' =>
        have hstep := FutureStep.next hadv
        exact .head hstep (by simp)
          (.after (ih answers f' (hstep.outputsToSwallow hf) n none ch hidle) l)
      | emit e b f' =>
        have hstep := FutureStep.emit hadv
        have hf' := hstep.outputsToSwallow hf
        simp only [Progress.withSwallow]
        by_cases hn : n > 0
        · rw [if_pos hn]
          exact .head hstep (by simp only [List.length_singleton]; omega)
            (.after (ih answers f' hf' (n - 1) none ch hidle) .internal)
        · -- nothing is left to swallow: the event is sent, and the handler awaits it
          obtain rfl : n = 0 := by omega
          obtain rfl := advance_emit_awaited ha hadv
          simp only [gt_iff_lt, lt_irrefl, if_false, OutputChannel.trySend, hidle.1,
            List.length_nil, Nat.zero_le, if_true, List.nil_append, Outcome.unwrap_some,
            Outcome.ok_bind]
          refine .after ?_ .internal
          rcases pollFuture_sent fuel answers (f'.withSwallow 0)
              ⟨[(e, ch.acks.length)], ch.acks ++ [.waiting]⟩ ch.acks.length (by simp) rfl with h | h
          · rw [h]; trivial
          · rw [h]
            exact ⟨[], e, f', by simpa using Run.single hstep, rfl, hf', rfl, rfl, by simp⟩
      | await k =>
        cases answers with
        | nil => exact ⟨[], f, .refl f, by simp, hf, rfl, hidle.1⟩
        | cons x answers =>
          have hstep := FutureStep.await x hadv
          exact .head hstep (by simp)
            (.after (ih answers (k x) (hstep.outputsToSwallow hf) n none ch hidle) .internal)
      | ready w => exact ⟨[], ⟨f, .refl f, hadv⟩, by simp⟩
      | panic site =>
        rcases advance_panic hadv with rfl | rfl
        · exact ⟨by decide, by decide⟩
        · exact ⟨by decide, by decide⟩

/-! ### One step -/

/-- What a deterministic future has emitted at its end is not emitted with more after it. -/
theorem Completes.emits_no_more (hd : Deterministic T) {f : SaturationFuture T}
    {o : List (OutputEvent T)} {w : WrappedTransposer T} (h : Completes f o w)
    (e : OutputEvent T) : ¬ Emits f (o ++ [e]) := by
  intro he
  have hlen := (h.covers hd he).length_le
  simp only [List.length_append, List.length_singleton] at hlen
  omega

/-- The state of a step belongs to the uninterrupted run of `start`, and what has gone out of
    the step so far is `emitted`. -/
structure Tracks (start : SaturationFuture T) (s : Step T) (emitted : List (OutputEvent T)) :
    Prop where
  fresh : start.cx.outputsToSwallow = 0
  count : s.eventCount = emitted.length
  emits : Emits start emitted
  saturating : ∀ f a ch, s.status = .saturating f a ch → Idle a ch ∧
    ∃ o g, Run FutureStep start o g ∧ g.cx.outputsToSwallow = 0 ∧ o <+: emitted ∧
      f = g.withSwallow (emitted.length - o.length)
  saturated : ∀ w, s.status = .saturated w → Completes start emitted w
  done : s.canProduceEvents = false → ∃ w, Completes start emitted w

/-- The event that came out of a poll. -/
def StepPoll.payload : StepPoll T → Option (OutputEvent T)
  | .emitted e => some e
  | _ => none

/-- The events that came out of a sequence of polls. -/
def payloads (polls : List (StepPoll T)) : List (OutputEvent T) :=
  polls.filterMap StepPoll.payload

/-- The events of two lists of polls are those of the first and then those of the second. -/
theorem payloads_append (polls polls' : List (StepPoll T)) :
    payloads (polls ++ polls') = payloads polls ++ payloads polls' :=
  List.filterMap_append

/-- When no event comes after a poll that is ready in each of two sequences, and none in the
    second one when a poll of the first one is ready, none does in the two together. -/
theorem payloads_after_ready {polls polls' : List (StepPoll T)}
    (h : ∀ before after, polls = before ++ .ready :: after → payloads after = [])
    (h' : ∀ before after, polls' = before ++ .ready :: after → payloads after = [])
    (hready : .ready ∈ polls → payloads polls' = []) (before after : List (StepPoll T))
    (heq : polls ++ polls' = before ++ .ready :: after) : payloads after = [] := by
  rcases List.append_eq_append_iff.mp heq with ⟨mid, rfl, hmid⟩ | ⟨mid, hpolls, hmid⟩
  · exact h' mid after hmid
  · cases mid with
    | nil => exact h' [] after (by simpa using hmid.symm)
    | cons x mid =>
      -- the poll that was ready is one of the first sequence
      simp only [List.cons_append, List.cons.injEq] at hmid
      obtain ⟨rfl, rfl⟩ := hmid
      have hmem : .ready ∈ polls := by rw [hpolls]; simp
      rw [payloads_append, h before mid hpolls, hready hmem, List.append_nil]

/-- The invariant after a poll that gave `result`. -/
structure PollTracks (start : SaturationFuture T) (s s' : Step T)
    (emitted : List (OutputEvent T)) (result : StepPoll T) : Prop where
  tracks : Tracks start s' (emitted ++ payloads [result])
  data : s'.data = s.data
  ready : result = .ready → s'.isSaturated = true ∧ s'.canProduceEvents = false
  flag : s.canProduceEvents = false → s'.canProduceEvents = false ∧ payloads [result] = []

namespace Tracks

variable {start : SaturationFuture T} {s : Step T} {emitted : List (OutputEvent T)}

/-- A step that has never been polled. -/
theorem fresh_unsaturated (hfresh : start.cx.outputsToSwallow = 0) (hc : s.eventCount = 0)
    (hu : s.status = .unsaturated) (hp : s.canProduceEvents = true) : Tracks start s [] where
  fresh := hfresh
  count := by simpa using hc
  emits := ⟨start, .refl start⟩
  saturating := by intro f a ch h; rw [hu] at h; cases h
  saturated := by intro w h; rw [hu] at h; cases h
  done := by simp [hp]

/-- A poll that returns no event. -/
theorem append_silent (h : Tracks start s emitted) {result : StepPoll T}
    (hr : result.payload = none) : Tracks start s (emitted ++ payloads [result]) := by
  simpa [payloads, hr] using h

/-- Losing its state leaves a step with the events it has sent out. -/
theorem unsaturated (h : Tracks start s emitted) :
    Tracks start { s with status := .unsaturated } emitted where
  fresh := h.fresh
  count := h.count
  emits := h.emits
  saturating := by intro f a ch hs; cases hs
  saturated := by intro w hs; cases hs
  done := h.done

/-- A step whose run stands at `g`, still to swallow what has gone out beyond `o`. -/
theorem suspended (h : Tracks start s emitted) {o : List (OutputEvent T)}
    {g : SaturationFuture T} {a : Option ℕ} {ch : OutputChannel T}
    (hrun : Run FutureStep start o g) (hsw : g.cx.outputsToSwallow = 0) (hpre : o <+: emitted)
    (hidle : Idle a ch) :
    Tracks start
      { s with status := .saturating (g.withSwallow (emitted.length - o.length)) a ch }
      emitted where
  fresh := h.fresh
  count := h.count
  emits := h.emits
  saturating := by
    intro f a' ch' hs
    cases hs
    exact ⟨hidle, o, g, hrun, hsw, hpre, rfl⟩
  saturated := by intro w hs; cases hs
  done := h.done

/-- A step that starts over swallows as many outputs as have gone out. -/
theorem restart (h : Tracks start s emitted) {f : SaturationFuture T}
    (hf : f = start.withSwallow s.eventCount) :
    Tracks start { s with status := .saturating f none .new } emitted := by
  have hstart := h.suspended (.refl start) h.fresh List.nil_prefix
    (⟨rfl, by simp⟩ : Idle none (.new : OutputChannel T))
  rw [h.count] at hf
  rw [hf]
  exact hstart

/-- A step whose run is complete. -/
theorem completed (h : Tracks start s emitted) {w : WrappedTransposer T}
    (hend : Completes start emitted w) :
    Tracks start { s with status := .saturated w, canProduceEvents := false } emitted where
  fresh := h.fresh
  count := h.count
  emits := h.emits
  saturating := by intro f a ch hs; cases hs
  saturated := by intro w' hs; cases hs; exact hend
  done := fun _ => ⟨w, hend⟩

/-- A step that is done emits no more. -/
theorem not_done (hd : Deterministic T) (h : Tracks start s emitted) {e : OutputEvent T}
    (he : Emits start (emitted ++ [e])) : s.canProduceEvents ≠ false := by
  intro hc
  obtain ⟨w, hw⟩ := h.done hc
  exact hw.emits_no_more hd e he

/-- A step that waits for the acknowledgement of its next event. -/
theorem emitted_next (hd : Deterministic T) (h : Tracks start s emitted) {e : OutputEvent T}
    {g : SaturationFuture T} {i : ℕ} {ch : OutputChannel T}
    (hrun : Run FutureStep start (emitted ++ [e]) g) (hsw : g.cx.outputsToSwallow = 0)
    (hidle : Idle (some i) ch) :
    Tracks start
      { s with
        status := .saturating (g.withSwallow 0) (some i) ch
        eventCount := s.eventCount + 1 }
      (emitted ++ [e]) where
  fresh := h.fresh
  count := by simp [h.count]
  emits := ⟨g, hrun⟩
  saturating := by
    intro f a ch' hs
    cases hs
    exact ⟨hidle, emitted ++ [e], g, hrun, hsw, List.prefix_rfl, by simp⟩
  saturated := by intro w hs; cases hs
  done := fun hc : s.canProduceEvents = false => absurd hc (h.not_done hd ⟨g, hrun⟩)

/-- A poll that completes the run has swallowed all that has gone out, so there is no more. -/
theorem poll_ready (hd : Deterministic T) (h : Tracks start s emitted)
    {o o' : List (OutputEvent T)} {g : SaturationFuture T} {w : WrappedTransposer T}
    (hrun : Run FutureStep start o g) (hend : Completes g o' w)
    (hlen : o.length + o'.length ≤ emitted.length) : Completes start emitted w := by
  obtain ⟨g', hrun', hw⟩ := hend
  have hend : Completes start (o ++ o') w := ⟨g', hrun.trans hrun', hw⟩
  have heq : emitted = o ++ o' := by
    refine (hend.covers hd h.emits).eq_of_length_le ?_
    rw [List.length_append]
    exact hlen
  rw [heq]
  exact hend

/-- The event a poll sends comes right after what has gone out. -/
theorem poll_emitted (hd : Deterministic T) (h : Tracks start s emitted)
    {o o' : List (OutputEvent T)} {e : OutputEvent T} {g g' : SaturationFuture T}
    (hrun : Run FutureStep start o g) (hrun' : Run FutureStep g (o' ++ [e]) g')
    (hlen : o.length + o'.length = emitted.length) :
    Run FutureStep start (emitted ++ [e]) g' := by
  have hall : Run FutureStep start (o ++ o' ++ [e]) g' := by
    rw [List.append_assoc]
    exact hrun.trans hrun'
  have hlen' : emitted.length = (o ++ o').length := by
    rw [List.length_append]
    exact hlen.symm
  have hpre : emitted <+: o ++ o' ++ [e] :=
    Emits.prefix_of_length_le hd h.emits ⟨g', hall⟩ (by simp [hlen'])
  have heq : emitted = o ++ o' := by
    rw [List.prefix_iff_eq_take.mp hpre, List.take_append_of_le_length hlen'.le]
    exact List.take_of_length_le hlen'.ge
  rw [heq]
  exact hall

/-- **A poll keeps the invariant.**  It does not panic on the channel, and its event is the
    next one of the uninterrupted run. -/
theorem poll (hd : Deterministic T) (ha : AwaitsEmissions T) (h : Tracks start s emitted)
    (fuel : ℕ) (answers : List (Response T)) {f a ch}
    (hst : s.status = .saturating f a ch) :
    match s.poll fuel answers with
    | .ok p => ∃ result, p.result = .ok result ∧ PollTracks start s p.step emitted result
    | .panic site => site ≠ .trySend ∧ site ≠ .acknowledgement
    | .running => True := by
  obtain ⟨hidle, o, g, hrun, hsw, hpre, rfl⟩ := h.saturating f a ch hst
  have hspec := pollFuture_spec ha fuel answers g hsw (emitted.length - o.length) a ch hidle
  have hlen : o.length ≤ emitted.length := hpre.length_le
  simp only [Step.poll, hst]
  cases hp : pollFuture fuel answers (g.withSwallow (emitted.length - o.length)) a ch with
  | running => trivial
  | panic site => rw [hp] at hspec; exact hspec
  | ok p =>
    rw [hp] at hspec
    obtain ⟨poll, ch', answers', labels⟩ := p
    cases poll with
    | ready w =>
      obtain ⟨o', hend, hlen'⟩ := hspec
      have hall := h.poll_ready hd hrun hend (by omega)
      exact ⟨.ready, rfl, (h.completed hall).append_silent rfl, rfl, fun _ => ⟨rfl, rfl⟩,
        fun _ => ⟨rfl, rfl⟩⟩
    | pending future acknowledgement =>
      simp only [Outcome.ok_bind, OutputChannel.receive]
      cases acknowledgement with
      | none =>
        -- the handler waits for its context, and has not come past what has gone out
        obtain ⟨o', g', hrun', hlen', hsw', rfl, hq⟩ := hspec
        have hpre' : o ++ o' <+: emitted :=
          Emits.prefix_of_length_le hd ⟨g', hrun.trans hrun'⟩ h.emits
            (by simp only [List.length_append]; omega)
        have hidle' : Idle none ch' := ⟨hq, by simp⟩
        have htracks := h.suspended (hrun.trans hrun') hsw' hpre' hidle'
        rw [List.length_append, Nat.sub_add_eq] at htracks
        rw [hq]
        exact ⟨.pending, rfl, htracks.append_silent rfl, rfl, by simp, fun hc => ⟨hc, rfl⟩⟩
      | some i =>
        -- the handler waits for the receiver of its event
        obtain ⟨o', e, g', hrun', hlen', hsw', rfl, hq, hi⟩ := hspec
        have hall := h.poll_emitted hd hrun hrun' (by omega)
        rw [hq]
        refine ⟨.emitted e, rfl, ?_, rfl, by simp, fun hc => ?_⟩
        · refine h.emitted_next hd hall hsw' ⟨rfl, ?_⟩
          rintro j ⟨⟩
          simp [hi]
        · exact absurd hc (h.not_done hd ⟨g', hall⟩)

end Tracks

/-! ### Any sequence of operations on one step -/

/-- An operation on a step, with what it needs from outside. -/
inductive StepOp (T : Type) [Transposer T] where
  | saturateTake (prev : Step T)
  | saturateClone (prev : Step T)
  | desaturate
  | poll (fuel : ℕ) (answers : List (Response T))

/-- The operation saturates from the state `w`, if it saturates. -/
def StepOp.SaturatesFrom (w : WrappedTransposer T) : StepOp T → Prop
  | .saturateTake prev => prev.status = .saturated w
  | .saturateClone prev => prev.status = .saturated w
  | .desaturate => True
  | .poll _ _ => True

/-- The future of a step that swallows outputs is the one that swallows none, but for that. -/
theorem saturationFuture_withSwallow (data : StepData T) (w : WrappedTransposer T) (n : ℕ) :
    Step.saturationFuture data w n
      = (Step.saturationFuture data w 0).map (SaturationFuture.withSwallow n) := by
  cases data <;> rfl

/-- Saturating again puts the step at the start of its run. -/
theorem Tracks.saturate {start : SaturationFuture T} {s s' : Step T}
    {emitted : List (OutputEvent T)} {w : WrappedTransposer T} (h : Tracks start s emitted)
    (hstart : Step.saturationFuture s.data w 0 = some start) (hs : s.saturate w = .ok s') :
    Tracks start s' emitted ∧ s'.data = s.data ∧ s'.canProduceEvents = s.canProduceEvents := by
  simp only [Step.saturate, Outcome.bind_eq_ok, Outcome.unwrap_eq_ok, Outcome.pure_eq,
    Outcome.ok.injEq] at hs
  obtain ⟨f, hf, rfl⟩ := hs
  rw [saturationFuture_withSwallow, hstart, Option.map_some, Option.some.injEq] at hf
  exact ⟨h.restart hf.symm, rfl, rfl⟩

/-- What a sequence of operations on a step leads to. -/
def OpsSpec (start : SaturationFuture T) (s : Step T) (emitted : List (OutputEvent T)) :
    Outcome (List (StepPoll T) × Step T) → Prop
  | .ok (polls, s') =>
      Tracks start s' (emitted ++ payloads polls) ∧ s'.data = s.data ∧
        (s.canProduceEvents = false → s'.canProduceEvents = false ∧ payloads polls = []) ∧
        (.ready ∈ polls → s'.canProduceEvents = false) ∧
        ∀ before after, polls = before ++ .ready :: after → payloads after = []
  | .panic site => site ≠ .trySend ∧ site ≠ .acknowledgement
  | .running => True

/-- One operation that does not come out of a poll. -/
theorem OpsSpec.silent {start : SaturationFuture T} {s s' : Step T}
    {emitted : List (OutputEvent T)} (h : Tracks start s' emitted) (hdata : s'.data = s.data)
    (hflag : s'.canProduceEvents = s.canProduceEvents) :
    OpsSpec start s emitted (.ok ([], s')) :=
  ⟨by simpa [payloads] using h, hdata, fun hc => ⟨hflag.trans hc, rfl⟩, by simp, by simp⟩

/-- The step after a saturated one is unsaturated, has emitted nothing, and is not the initial
    step. -/
theorem Step.tracks_of_nextUnsaturated {prev s : Step T} {w : WrappedTransposer T} {uuid : ℕ}
    {inputs rest : Option (StepInputs T)} (hprev : prev.status = .saturated w)
    (hnext : prev.nextUnsaturated uuid inputs = .ok (some s, rest)) :
    ∃ start, Step.saturationFuture s.data w 0 = some start ∧ Tracks start s [] := by
  simp only [Step.nextUnsaturated, hprev] at hnext
  split at hnext
  · cases hnext
  · cases hnext
    exact ⟨_, rfl, .fresh_unsaturated rfl rfl rfl rfl⟩
  · cases hnext
    exact ⟨_, rfl, .fresh_unsaturated rfl rfl rfl rfl⟩
  · split at hnext <;> cases hnext
    · exact ⟨_, rfl, .fresh_unsaturated rfl rfl rfl rfl⟩
    · exact ⟨_, rfl, .fresh_unsaturated rfl rfl rfl rfl⟩

section Ops

variable [BuildProfile]

/-- Do the operation: what came out of it if it is a poll that finds the step saturating, and
    the step after it. -/
def StepOp.run (s : Step T) : StepOp T → Outcome (List (StepPoll T) × Step T)
  | .saturateTake prev => do
      let (_, s, _) ← s.saturateTake prev
      return ([], s)
  | .saturateClone prev => do
      let (_, s) ← s.saturateClone prev
      return ([], s)
  | .desaturate => return ([], s.desaturate)
  | .poll fuel answers => do
      let p ← s.poll fuel answers
      match p.result with
      | .ok r => return ([r], p.step)
      | .error _ => return ([], p.step)

/-- Do the operations in order, and collect what came out of the polls. -/
def runOps : List (StepOp T) → Step T → Outcome (List (StepPoll T) × Step T)
  | [], s => return ([], s)
  | op :: ops, s => do
      let (polls, s) ← op.run s
      let (polls', s) ← runOps ops s
      return (polls ++ polls', s)

/-- Every operation leads from a step that belongs to the run to another one. -/
theorem StepOp.run_spec (hd : Deterministic T) (ha : AwaitsEmissions T)
    {start : SaturationFuture T} {s : Step T} {emitted : List (OutputEvent T)}
    {w : WrappedTransposer T} (h : Tracks start s emitted)
    (hstart : Step.saturationFuture s.data w 0 = some start) (op : StepOp T)
    (hop : op.SaturatesFrom w) : OpsSpec start s emitted (op.run s) := by
  have hsat : s.saturate w = .ok
      { s with status := .saturating (start.withSwallow s.eventCount) none .new } := by
    simp [Step.saturate, saturationFuture_withSwallow s.data w s.eventCount, hstart]
  obtain ⟨htracks, hdata, hflag⟩ := h.saturate hstart hsat
  cases op with
  | saturateTake prev =>
    have hprev : prev.status = .saturated w := hop
    simp only [StepOp.run, Step.saturateTake]
    split
    · exact .silent h rfl rfl
    · simp only [hprev, hsat, Outcome.ok_bind, Outcome.pure_eq]
      exact .silent htracks hdata hflag
  | saturateClone prev =>
    have hprev : prev.status = .saturated w := hop
    simp only [StepOp.run, Step.saturateClone]
    split
    · exact .silent h rfl rfl
    · simp only [hprev, hsat, Outcome.ok_bind, Outcome.pure_eq]
      exact .silent htracks hdata hflag
  | desaturate => exact .silent h.unsaturated rfl rfl
  | poll fuel answers =>
    cases hst : s.status with
    | unsaturated =>
      simp only [StepOp.run, Step.poll, hst, Outcome.pure_eq, Outcome.ok_bind]
      exact .silent h rfl rfl
    | saturated w' =>
      simp only [StepOp.run, Step.poll, hst, Outcome.pure_eq, Outcome.ok_bind]
      exact .silent h rfl rfl
    | saturating f a ch =>
      have hpoll := h.poll hd ha fuel answers hst
      simp only [StepOp.run]
      cases hp : s.poll fuel answers with
      | running => trivial
      | panic site => rw [hp] at hpoll; exact hpoll
      | ok p =>
        rw [hp] at hpoll
        obtain ⟨result, hres, hpt⟩ := hpoll
        simp only [Outcome.ok_bind, hres]
        refine ⟨hpt.tracks, hpt.data, hpt.flag, ?_, ?_⟩
        · intro hmem
          rw [List.mem_singleton] at hmem
          exact (hpt.ready hmem.symm).2
        · intro before after heq
          cases before with
          | nil =>
            obtain ⟨-, rfl⟩ := List.cons.inj heq
            rfl
          | cons _ _ => simp at heq

/-- A sequence of operations: what each keeps, they keep together. -/
theorem runOps_spec (hd : Deterministic T) (ha : AwaitsEmissions T)
    {start : SaturationFuture T} {w : WrappedTransposer T} (ops : List (StepOp T))
    (hops : ∀ op ∈ ops, op.SaturatesFrom w) {s : Step T} {emitted : List (OutputEvent T)}
    (h : Tracks start s emitted) (hstart : Step.saturationFuture s.data w 0 = some start) :
    OpsSpec start s emitted (runOps ops s) := by
  induction ops generalizing s emitted with
  | nil => exact .silent h rfl rfl
  | cons op ops ih =>
    have hop := StepOp.run_spec hd ha h hstart op (hops op List.mem_cons_self)
    simp only [runOps]
    cases hr : op.run s with
    | running => trivial
    | panic site => rw [hr] at hop; exact hop
    | ok r =>
      obtain ⟨polls, s₁⟩ := r
      rw [hr] at hop
      obtain ⟨htracks, hdata, hflag, hready, hafter⟩ := hop
      have hrest := ih (fun op' h' => hops op' (List.mem_cons_of_mem _ h')) htracks
        (by rw [hdata]; exact hstart)
      simp only [Outcome.ok_bind]
      cases hr' : runOps ops s₁ with
      | running => trivial
      | panic site => rw [hr'] at hrest; exact hrest
      | ok r' =>
        obtain ⟨polls', s₂⟩ := r'
        rw [hr'] at hrest
        obtain ⟨htracks', hdata', hflag', hready', hafter'⟩ := hrest
        have happ := payloads_append polls polls'
        simp only [Outcome.ok_bind, Outcome.pure_eq]
        refine ⟨?_, hdata'.trans hdata, ?_, ?_, ?_⟩
        · rw [happ, ← List.append_assoc]; exact htracks'
        · intro hc
          obtain ⟨hc₁, he₁⟩ := hflag hc
          obtain ⟨hc₂, he₂⟩ := hflag' hc₁
          exact ⟨hc₂, by rw [happ, he₁, he₂]; rfl⟩
        · intro hmem
          rcases List.mem_append.mp hmem with hmem | hmem
          · exact (hflag' (hready hmem)).1
          · exact hready' hmem
        · exact payloads_after_ready hafter hafter' fun hmem => (hflag' (hready hmem)).2

/-- What has come out of a step, and the state it is left in, are those of the uninterrupted
    run of `start`: every event of it in its place, all of them once a poll was ready, none
    after that, and no panic on the way to the receiver. -/
def EmitsOnce (start : SaturationFuture T) : Outcome (List (StepPoll T) × Step T) → Prop
  | .ok (polls, s) =>
      Emits start (payloads polls) ∧
        (∀ o w, Completes start o w → payloads polls <+: o) ∧
        (.ready ∈ polls → ∃ w, Completes start (payloads polls) w) ∧
        (∀ before after, polls = before ++ .ready :: after → payloads after = []) ∧
        ∀ w, s.status = .saturated w → Completes start (payloads polls) w
  | .panic site => site ≠ .trySend ∧ site ≠ .acknowledgement
  | .running => True

/-- **Every event of a step goes out once.**  Take the step that follows a saturated one and
    saturate it from that state, lose its state and poll it in any order: what comes out is
    what the uninterrupted run emits, and a saturation that completes leaves the one state
    that run leaves. -/
theorem step_emits_exactly_once (hd : Deterministic T) (ha : AwaitsEmissions T)
    {prev s : Step T} {w : WrappedTransposer T} {uuid : ℕ} {inputs rest : Option (StepInputs T)}
    (hprev : prev.status = .saturated w)
    (hnext : prev.nextUnsaturated uuid inputs = .ok (some s, rest)) (ops : List (StepOp T))
    (hops : ∀ op ∈ ops, op.SaturatesFrom w) :
    ∃ start, Step.saturationFuture s.data w 0 = some start ∧
      (∀ o o' w w', Completes start o w → Completes start o' w' → o = o' ∧ w = w') ∧
      EmitsOnce start (runOps ops s) := by
  obtain ⟨start, hstart, htracks⟩ := Step.tracks_of_nextUnsaturated hprev hnext
  refine ⟨start, hstart, fun _ _ _ _ h h' => h.unique hd h', ?_⟩
  have hspec := runOps_spec hd ha ops hops htracks hstart
  cases hr : runOps ops s with
  | running => trivial
  | panic site => rw [hr] at hspec; exact hspec
  | ok r =>
    obtain ⟨polls, s'⟩ := r
    rw [hr] at hspec
    obtain ⟨htracks', -, -, hready, hafter⟩ := hspec
    rw [List.nil_append] at htracks'
    exact ⟨htracks'.emits, fun o w hw => hw.covers hd htracks'.emits,
      fun hmem => htracks'.done (hready hmem), hafter, htracks'.saturated⟩

end Ops

/-- A handler that emits, schedules and emits again, interrupted between its emissions. -/
def interruptedOps (prev : Step Script) : List (StepOp Script) :=
  [.saturateClone prev, .poll 20 [], .desaturate, .saturateClone prev, .poll 20 [],
    .poll 20 [], .desaturate, .saturateTake prev, .poll 20 []]

/-- A handler is interrupted between its emissions, and each event comes out once. -/
theorem step_emits_exactly_once_script :
    let s : Script := ⟨[], [.emit 7, .schedule 2, .emit 8], [], 1⟩
    (∃ start, Step.saturationFuture Script.firstStep.data s.saturatedAtZero 0 = some start ∧
      (∀ o o' w w', Completes start o w → Completes start o' w' → o = o' ∧ w = w') ∧
      EmitsOnce start
        (@runOps _ _ debugBuild (interruptedOps s.initialStep) Script.firstStep)) ∧
      (@runOps _ _ debugBuild (interruptedOps s.initialStep) Script.firstStep
        >>= fun r => pure (payloads r.1)) = .ok ([7, 8] : List ℕ) := by
  intro s
  refine ⟨@step_emits_exactly_once _ _ debugBuild Script.deterministic Script.awaitsEmissions
    s.initialStep Script.firstStep s.saturatedAtZero 1 none none rfl rfl _ ?_, rfl⟩
  simp [interruptedOps, StepOp.SaturatesFrom, Script.initialStep]

end Cozal
