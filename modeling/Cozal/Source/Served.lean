import Cozal.Source.InTurn

namespace Cozal

open Transposer

/-!
# Channels that take turns are served

The invariant of a source whose channels take turns says that nothing panics.  Here: every channel
gets its state.  Polled over and over at one time, it gets the events that are left up to there one
by one, and then the state of the reference.  And the events alone can be had at any time, after
calls in any order, when no channel waits for a step.

* `pollInterpolation_of_returns` — an interpolation that returns can be polled to its end.
* `Reference.LastDue.completes` — where the reference has a state, every due time up to it ends.
* `Steps.Emitted.goes_on` — so the last step can be polled to its next event, or to its end.
* `exists_last_interrupt` — calls that return events up to a time come to an end.
* `InTurn.free_round`, `InTurn.original_round`, `InTurn.interpolation_round` — what a round does in
  each status of the channel, with the right answers.
* `InTurn.serves`, `Quiet.serves` — some rounds of a poll return the next event, or the state.
* `channels_in_turn_served`, `events_served` — so some polls return all events and then the state.
-/

variable {T : Type} [Transposer T]

/-! ### The reference -/

/-- **An interpolation that returns** can be polled to its end. -/
theorem pollInterpolation_of_returns {i : Interpolating T} {state : OutputState T}
    (h : Returns i state) : ∃ fuel answers, pollInterpolation fuel answers i
      = .ok (.ready state) := by
  induction h with
  | done hi => exact ⟨1, [], by simp [pollInterpolation, hi]⟩
  | next hi _ ih =>
    obtain ⟨fuel, answers, hpoll⟩ := ih
    exact ⟨fuel + 1, answers, by simp [pollInterpolation, hi, hpoll]⟩
  | await x hi _ ih =>
    obtain ⟨fuel, answers, hpoll⟩ := ih
    exact ⟨fuel + 1, x :: answers, by simp [pollInterpolation, hi, hpoll]⟩

/-- A part of what a future emits is emitted. -/
theorem Emits.of_append {f : SaturationFuture T} {o more : List (OutputEvent T)}
    (h : Emits f (o ++ more)) : Emits f o := by
  obtain ⟨g, hrun⟩ := h
  obtain ⟨u, hu, -⟩ := hrun.split fun hstep => by cases hstep <;> simp
  exact ⟨u, hu⟩

namespace Reference

variable {R : Reference T} {t : Time T} {w : WrappedTransposer T}

/-- The number of the last due time before or at `t`, which ends with `w`. -/
def LastDue (R : Reference T) (t : Time T) (w : WrappedTransposer T) (n : ℕ) : Prop :=
  ∃ o u f os, R.Point n o u f ∧ Completes f os w ∧
    ∀ k, w.metadata.getNextScheduledTime = some k → t < k.time

/-- The state at a time is that of the last due time. -/
theorem StateAt.lastDue (h : R.StateAt t w) : ∃ n, R.LastDue t w n := by
  obtain ⟨o, u, g, hrun, hready, -, hnext⟩ := h
  obtain ⟨n, o', os, f, hpoint, hf, -⟩ := point_of_run hrun
  exact ⟨n, o', u, f, os, hpoint, ⟨g, hf, hready⟩, hnext⟩

/-- **Every due time up to there ends.** -/
theorem LastDue.completes (hd : Deterministic T) {n m : ℕ} (h : R.LastDue t w n)
    {o : List (Time T × OutputEvent T)} {u : Time T} {f : SaturationFuture T}
    (hpoint : R.Point m o u f) (hle : u ≤ t) : m ≤ n ∧ ∃ os w', Completes f os w' := by
  obtain ⟨o', u', f', os, hlast, hc, hnext⟩ := h
  rcases lt_trichotomy m n with hlt | rfl | hlt
  · obtain ⟨os', w', hc', -⟩ := hpoint.completes_of_lt hd hlast hlt
    exact ⟨hlt.le, os', w', hc'⟩
  · obtain ⟨-, -, rfl⟩ := hpoint.unique hd hlast
    exact ⟨le_rfl, os, w, hc⟩
  · -- the due time after the last one is later than `t`
    obtain ⟨os', w', hc', hsome⟩ := hlast.completes_of_lt hd hpoint hlt
    obtain ⟨-, rfl⟩ := hc'.unique hd hc
    obtain ⟨k, hk⟩ := Option.ne_none_iff_exists'.mp hsome
    have hlater : k.time ≤ u := by
      rcases Nat.lt_or_eq_of_le hlt with hlt | heq
      · exact ((hlast.next hc hk).time_lt hd hpoint hlt).le
      · subst heq
        obtain ⟨-, rfl, -⟩ := (hlast.next hc hk).unique hd hpoint
        exact le_rfl
    exact absurd (hnext k hk) (not_lt.mpr (hlater.trans hle))

/-- What the reference emits up to its state at a time covers that. -/
theorem StateAt.covers (hd : Deterministic T) (h : R.StateAt t w) :
    ∃ all, R.Outputs all ∧ R.Covers all t := by
  obtain ⟨o, u, f, hrun, hready, -, hnext⟩ := h
  exact ⟨o, ⟨_, hrun⟩, covers_of_ready hd hrun hready hnext List.prefix_rfl⟩

/-- An event up to a time is one of those that cover it. -/
theorem Covers.length_lt (hd : Deterministic T) {all out : List (Time T × OutputEvent T)}
    {x : Time T × OutputEvent T} (h : R.Covers all t) (hall : R.Outputs all)
    (hout : R.Outputs (out ++ [x])) (hx : x.1 ≤ t) : out.length < all.length := by
  rcases hout.total hd hall with hpre | ⟨rest, hrest⟩
  · have hlen := hpre.length_le
    rw [List.length_append, List.length_singleton] at hlen
    omega
  · rcases List.eq_nil_or_concat rest with rfl | ⟨rest, y, rfl⟩
    · have hlen := congrArg List.length hrest
      simp only [List.append_nil, List.length_append, List.length_singleton] at hlen
      omega
    · -- else the event comes after all that cover the time
      rw [List.concat_eq_append, ← List.append_assoc] at hrest
      obtain ⟨-, hxy⟩ := List.append_inj' hrest rfl
      obtain rfl := List.singleton_inj.mp hxy
      have hlater := h (rest ++ [y]) (by rw [← List.append_assoc, hrest]; exact hout) y (by simp)
      exact absurd hx (not_le.mpr hlater)

end Reference

/-! ### The last step -/

namespace Steps

variable {s : Steps T} {y : Step T} {m : ℕ}

/-- A last step that is saturating has not run to completion. -/
theorem Sound.not_ranToCompletion (hs : s.Sound) (hy : s.steps[s.steps.length - 1]? = some y)
    (hsat : y.isSaturating = true) : ¬ s.RanToCompletion s.lastNumber := by
  have hpos := hs.length_pos
  rw [hs.ranToCompletion_iff (List.getLast?_eq_getElem? ▸ hy)]
  rintro (hlt | ⟨-, hend⟩)
  · unfold lastNumber at hlt
    omega
  · obtain ⟨w, hw⟩ := Step.isSaturated_iff.mp hend
    exact isSaturating_ne_saturated hsat w hw

/-- When the last step is polled to its end, all steps have run to completion. -/
theorem Sound.ranToCompletion_of_poll (hs : s.Sound) {fuel : ℕ} {answers : List (Response T)}
    {p : StepPolled T} (hy : s.steps[s.steps.length - 1]? = some y)
    (hp : y.poll fuel answers = .ok p) (hr : p.result = .ok .ready) (hm : m ≤ s.lastNumber) :
    (s.setStep (s.steps.length - 1) p.step).RanToCompletion m := by
  have hpos := hs.length_pos
  have hmove : Move [] s (s.setStep (s.steps.length - 1) p.step) :=
    .poll _ _ hy (Step.isSaturating_of_poll hp hr) hp
  have hlen := s.length_setStep (s.steps.length - 1) p.step
  have hlast : (s.setStep (s.steps.length - 1) p.step).steps.getLast? = some p.step := by
    rw [List.getLast?_eq_getElem?, hlen]
    exact getElem?_setStep_self hy _
  rw [(hmove.sound hs).ranToCompletion_iff hlast, hlen]
  unfold lastNumber at hm
  show m + 1 < s.numDeletedSteps + s.steps.length ∨
    m + 1 = s.numDeletedSteps + s.steps.length ∧ p.step.isSaturated = true
  rcases Nat.lt_or_eq_of_le (show m + 1 ≤ s.numDeletedSteps + s.steps.length by omega) with
    hlt | heq
  · exact Or.inl hlt
  · exact Or.inr ⟨heq, Step.isSaturated_iff.mpr (completed hp hr)⟩

/-- **The last step goes on**: up to a state of the reference, it can be polled to its next event
    or to its end. -/
theorem Emitted.goes_on (hd : Deterministic T) (ha : AwaitsEmissions T) {R : Reference T}
    {out : List (Time T × OutputEvent T)} {t : Time T} {w : WrappedTransposer T} {n : ℕ}
    (h : Emitted R s out) (hn : R.LastDue t w n) (hy : s.steps[s.steps.length - 1]? = some y)
    (hsat : y.isSaturating = true) (hle : y.getTime ≤ t) : s.lastNumber ≤ n ∧
      ∃ fuel answers p, y.poll fuel answers = .ok p ∧
        ((∃ e, p.result = .ok (.emitted e)) ∨ p.result = .ok .ready) := by
  obtain ⟨o, f, hpoint, -, e, htracks⟩ := h.line _ y hy
  obtain ⟨hnumber, os, w', hc⟩ := hn.completes hd hpoint hle
  refine ⟨hnumber, ?_⟩
  -- the step has emitted a part of what its future does, or all of it
  obtain ⟨rest, rfl⟩ := hc.covers hd htracks.emits
  cases rest with
  | cons x rest =>
    have hx : Emits f (e ++ [x]) := by
      have hall : Emits f ((e ++ [x]) ++ rest) := by
        rw [List.append_assoc]
        exact hc.emits
      exact hall.of_append
    obtain ⟨fuel, answers, p, hp, hr⟩ := htracks.emits_next hd ha hsat hx
    exact ⟨fuel, answers, p, hp, Or.inl ⟨x, hr⟩⟩
  | nil =>
    rw [List.append_nil] at hc
    obtain ⟨fuel, answers, p, hp, hr⟩ := htracks.completes_next hd hsat hc
    exact ⟨fuel, answers, p, hp, Or.inr hr⟩

end Steps

/-! ### Serving -/

namespace NoInputTransposerSource

variable {R : Reference T} {s s' : NoInputTransposerSource T} {clock time : Time T}
  {out : List (Time T × OutputEvent T)} {channel n k : ℕ} {r : Round T}
  {w : WrappedTransposer T} {state : OutputState T}

/-- Nothing happens to the stack wakers. -/
@[simp] theorem afterWakerEvents_nil (s : NoInputTransposerSource T) :
    s.afterWakerEvents [] = s := rfl

/-- Some rounds of a loop return an event up to a time, or the state. -/
def Serves {S : Type} (body : Round T → NoInputTransposerSource T →
    Outcome (Option (SourcePollOf T S) × NoInputTransposerSource T)) (time : Time T) (state : S)
    (s : NoInputTransposerSource T) : Prop :=
  ∃ rounds p s', Outcome.loop body rounds s = .ok (p, s') ∧
    ((∃ t e, p = .interrupt t (.finalizedEvent e) ∧ t ≤ time) ∨ ∃ next, p = .ready state next)

section Serves

variable {S : Type} {body : Round T → NoInputTransposerSource T →
  Outcome (Option (SourcePollOf T S) × NoInputTransposerSource T)} {answer : S}

/-- A round that goes on serves what the later rounds serve. -/
theorem Serves.of_next (hr : body r s = .ok (none, s')) (h : s'.Serves body time answer) :
    s.Serves body time answer := by
  obtain ⟨rounds, p, u, hp, hserves⟩ := h
  refine ⟨r :: rounds, p, u, ?_, hserves⟩
  rw [Outcome.loop, hr]
  exact hp

/-- A round that returns an event up to the time, or the state, serves. -/
theorem Serves.of_last {p : SourcePollOf T S} (hr : body r s = .ok (some p, s'))
    (hp : (∃ t e, p = .interrupt t (.finalizedEvent e) ∧ t ≤ time) ∨
      ∃ next, p = .ready answer next) : s.Serves body time answer := by
  refine ⟨[r], p, s', ?_, hp⟩
  rw [Outcome.loop, hr]
  rfl

end Serves

/-- **Calls that return events up to a time come to an end**: they go on until something else
    holds. -/
theorem exists_last_interrupt (hd : Deterministic T) {all : List (Time T × OutputEvent T)}
    (hall : R.Outputs all) (hcovers : R.Covers all time) {A : Call T × Reply T → Prop}
    {P Q : List (Call T × Reply T) → Prop}
    (hout : ∀ history, P history → R.Outputs (interrupts history))
    (hstep : ∀ history, P history → Q history ∨ ∃ c reply t e, A (c, reply) ∧
      P (history ++ [(c, reply)]) ∧ reply.interrupts = [(t, e)] ∧ t ≤ time)
    {history : List (Call T × Reply T)} (h : P history) :
    ∃ polls, (∀ x ∈ polls, A x) ∧ Q (history ++ polls) := by
  obtain ⟨k, hk⟩ : ∃ k, all.length ≤ (interrupts history).length + k := ⟨_, Nat.le_add_left _ _⟩
  -- by induction on how many of the events up to the time are left
  induction k using Nat.strong_induction_on generalizing history with
  | _ k ih =>
    rcases hstep history h with hq | ⟨c, reply, t, e, hc, hnext, hreply, ht⟩
    · exact ⟨[], by simp, by rwa [List.append_nil]⟩
    · have hinterrupts : interrupts (history ++ [(c, reply)]) = interrupts history ++ [(t, e)] := by
        simp [interrupts, hreply]
      have hlt := hcovers.length_lt hd hall (hinterrupts ▸ hout _ hnext) ht
      obtain ⟨polls, hpolls, hq⟩ := ih (k - 1) (by omega) hnext (by
        rw [hinterrupts, List.length_append, List.length_singleton]
        omega)
      refine ⟨(c, reply) :: polls, ?_, by simpa using hq⟩
      intro x hx
      rcases List.mem_cons.mp hx with rfl | hx
      · exact hc
      · exact hpolls x hx

/-! ### The rounds of a poll -/

section Build

variable [BuildProfile]

/-- After some polls of the channel at the time, each of which returns an event, one returns the
    state.  What has been returned by then are the first events of the reference, and no event up
    to the time is left. -/
def Served (R : Reference T) (history : List (Call T × Reply T)) (time : Time T) (channel : ℕ)
    (state : OutputState T) : Prop :=
  ∃ polls rounds next s',
    (∀ x ∈ polls, ∃ rounds t e,
      x = (.poll time channel rounds, .poll (.interrupt t (.finalizedEvent e)))) ∧
    TurnRun R (history ++ polls ++ [(.poll time channel rounds, .poll (.ready state next))])
      time s' ∧
    R.Outputs (interrupts (history ++ polls)) ∧ R.Covers (interrupts (history ++ polls)) time

namespace InTurn

/-- A channel that waits for another time is freed. -/
theorem abandon_round (h : InTurn R time out s) {reason : CallerChannelBlockedReason T}
    (hb : s.channelStatuses.blockedCallerChannels.get channel = some reason)
    (hne : reason.pollTime ≠ time) : ∃ r s', NoInputTransposerSource.pollRound time channel r s
      = .ok (none, s') ∧ s'.channelStatuses.blockedCallerChannels.get channel = none := by
  refine ⟨⟨[], 0, []⟩, s.abandon channel reason.status, ?_, ?_⟩
  · obtain ⟨pollTime, inner⟩ := reason
    replace hne : pollTime ≠ time := hne
    cases inner with
    | originalStep | interpolationFuture i =>
      simp [NoInputTransposerSource.pollRound, ChannelStatuses.getChannelStatus, hb, hne,
        CallerChannelBlockedReason.status]
    | repeatStep stepId => exact (h.waits channel _ hb).elim
  · show (s.channelStatuses.abandon channel reason.status).blockedCallerChannels.get channel = none
    rw [ChannelStatuses.abandon_blocked]
    simp

/-- A free channel starts to wait at the time of the poll. -/
theorem free_round (hd : Deterministic T) (ha : AwaitsEmissions T) (h : InTurn R time out s)
    (halone : s.Alone channel)
    (hfree : s.channelStatuses.blockedCallerChannels.get channel = none) :
    ∃ r s' inner, NoInputTransposerSource.pollRound time channel r s = .ok (none, s') ∧
      s'.channelStatuses.blockedCallerChannels.get channel = some ⟨time, inner⟩ := by
  rcases h.pollFree_returns hd ha halone hfree 1 with ⟨hfuel, -⟩ | ⟨s', hs'⟩
  · cases hfuel
  · have hr : NoInputTransposerSource.pollRound time channel ⟨[], 1, []⟩ s = .ok (none, s') := by
      simp [NoInputTransposerSource.pollRound, ChannelStatuses.getChannelStatus, hfree, hs']
    refine ⟨⟨[], 1, []⟩, s', ?_⟩
    cases pollFree_cases (r := ⟨[], 1, []⟩) h.sound hfree hs' with
    | @interpolate _ _ _ w _ _ _ _ =>
      refine ⟨.interpolationFuture
        (Transposer.interpolate w.transposer time w.metadata.lastUpdated.time), hr, ?_⟩
      simp [ChannelStatuses.startInterpolation, ChannelStatuses.occupy]
    | @wait _ _ stepIndex _ step _ _ _ _ =>
      cases hcan : step.canProduceEvents with
      | true =>
        rw [hcan] at hr
        refine ⟨.originalStep, hr, ?_⟩
        simp [ChannelStatuses.startOriginalStep, ChannelStatuses.occupy]
      | false =>
        rw [hcan] at hr
        refine ⟨.repeatStep stepIndex, hr, ?_⟩
        simp [ChannelStatuses.startRepeatStep, ChannelStatuses.occupy]
    | abandon hb _ | originalReady hb _ _ _ | repeatReady hb _ _ _ _ _ =>
      rw [hfree] at hb
      cases hb

/-- A channel that waits for the interpolation to the time of the poll gets the state. -/
theorem interpolation_round (h : InTurn R time out s) (hw : R.StateAt time w)
    (hstate : Returns (interpolate w.transposer time w.metadata.lastUpdated.time) state)
    {i : Interpolating T} (hb : s.channelStatuses.blockedCallerChannels.get channel
      = some ⟨time, .interpolationFuture i⟩) :
    ∃ r s' next, NoInputTransposerSource.pollRound time channel r s
      = .ok (some (.ready state next), s') := by
  obtain ⟨fuel, answers, hpoll⟩ :=
    pollInterpolation_of_returns (h.answers channel _ hb i rfl w state hw hstate)
  obtain ⟨last, hlast, -, -⟩ := h.sound.exists_last
  refine ⟨⟨[], fuel, answers⟩, ⟨s.steps, s.channelStatuses.vacate channel⟩,
    if last.isSaturated then none else some last.getTime, ?_⟩
  simp [NoInputTransposerSource.pollRound, ChannelStatuses.getChannelStatus, hb,
    pollInterpolationFuture, hpoll, Steps.getScheduledTime, Steps.getLast_ok.mpr hlast]

/-- A channel that waits for the last step gets its next event, or that step ends and the channel
    is freed. -/
theorem original_round (hd : Deterministic T) (ha : AwaitsEmissions T) (h : InTurn R time out s)
    (hn : R.LastDue time w n) (hb : s.channelStatuses.blockedCallerChannels.get channel
      = some ⟨time, .originalStep⟩) :
    s.steps.lastNumber ≤ n ∧ ¬ s.steps.RanToCompletion s.steps.lastNumber ∧
    ((∃ r s' t e, NoInputTransposerSource.pollRound time channel r s
        = .ok (some (.interrupt t (.finalizedEvent e)), s') ∧ t ≤ time) ∨
      ∃ r s', NoInputTransposerSource.pollRound time channel r s = .ok (none, s') ∧
        s'.channelStatuses.blockedCallerChannels.get channel = none ∧
        ∀ m ≤ s.steps.lastNumber, s'.steps.RanToCompletion m) := by
  obtain ⟨y, hy, hsat⟩ := h.waits channel _ hb
  have hlast := List.getLast?_eq_getElem? ▸ hy
  have hle := h.steps.started y (List.mem_of_getElem? hy) (Steps.isSaturating_not_unsaturated hsat)
  obtain ⟨hnumber, fuel, answers, p, hp, hresult⟩ := h.events.emitted.goes_on hd ha hn hy hsat hle
  refine ⟨hnumber, h.sound.not_ranToCompletion hy hsat, ?_⟩
  rcases hresult with ⟨e, hr⟩ | hr
  · refine Or.inl ⟨⟨[], fuel, answers⟩,
      { s with steps := s.steps.setStep (s.steps.steps.length - 1) p.step }, y.getTime, e, ?_, hle⟩
    simp [NoInputTransposerSource.pollRound, ChannelStatuses.getChannelStatus, hb,
      pollOriginalStepFuture, Steps.getLast_ok.mpr hlast, hp, hr]
  · refine Or.inr ⟨⟨[], fuel, answers⟩,
      ⟨s.steps.setStep (s.steps.steps.length - 1) p.step, s.channelStatuses.vacate channel⟩,
      ?_, by simp [ChannelStatuses.vacate], ?_⟩
    · simp [NoInputTransposerSource.pollRound, ChannelStatuses.getChannelStatus, hb,
        pollOriginalStepFuture, Steps.getLast_ok.mpr hlast, hp, hr, NoInputTransposerSource.abandon,
        ChannelStatuses.abandon]
    · intro m hm
      exact h.sound.ranToCompletion_of_poll hy hp hr hm

/-! ### A poll -/

/-- A round that returns nothing lets no step go back. -/
theorem ranToCompletion_round (h : InTurn R time out s)
    {o : Option (SourcePollOf T (OutputState T))}
    (hr : NoInputTransposerSource.pollRound time channel r s = .ok (o, s')) {m : ℕ}
    (hm : s.steps.RanToCompletion m) : s'.steps.RanToCompletion m :=
  hm.movesTo h.sound (Steps.movesTo_of_moves (pollRound_cases h.sound hr).moves)

/-- **A channel that waits is served**, by induction on how many due times are left to run. -/
theorem serves_waiting (hd : Deterministic T) (ha : AwaitsEmissions T) (hw : R.StateAt time w)
    (hstate : Returns (interpolate w.transposer time w.metadata.lastUpdated.time) state)
    (hn : R.LastDue time w n) (h : InTurn R time out s) (halone : s.Alone channel)
    {inner : CallerChannelBlockedReasonInner T}
    (hb : s.channelStatuses.blockedCallerChannels.get channel = some ⟨time, inner⟩)
    (hran : ∀ m, m + k ≤ n → s.steps.RanToCompletion m) :
    s.Serves (NoInputTransposerSource.pollRound time channel) time state := by
  induction k using Nat.strong_induction_on generalizing s inner with
  | _ k ih =>
    cases inner with
    | repeatStep stepId => exact (h.waits channel _ hb).elim
    | interpolationFuture i =>
      obtain ⟨r, s', next, hr⟩ := h.interpolation_round hw hstate hb
      exact .of_last hr (Or.inr ⟨next, rfl⟩)
    | originalStep =>
      obtain ⟨hle, hnot, ⟨r, s', t, e, hr, ht⟩ | ⟨r, s₁, hr, hfree, hran₁⟩⟩ :=
        h.original_round hd ha hn hb
      · exact .of_last hr (Or.inl ⟨t, e, rfl, ht⟩)
      · have hleft : ¬ s.steps.lastNumber + k ≤ n := fun hlast => hnot (hran _ hlast)
        -- the step has ended, so the channel waits for the next one, or for its interpolation
        obtain ⟨h₁, halone₁⟩ := h.pollRound hd ha halone hr
        rw [roundInterrupts, Option.elim_none, List.append_nil] at h₁
        obtain ⟨r', s₂, inner', hr', hb'⟩ := h₁.free_round hd ha halone₁ hfree
        obtain ⟨h₂, halone₂⟩ := h₁.pollRound hd ha halone₁ hr'
        rw [roundInterrupts, Option.elim_none, List.append_nil] at h₂
        refine .of_next hr (.of_next hr' (ih (k - 1) (by omega) h₂ halone₂ hb' ?_))
        intro m hm
        exact h₁.ranToCompletion_round hr' (hran₁ m (by omega))

/-- **A channel is served**: some rounds of a poll return an event up to its time, or the state. -/
theorem serves (hd : Deterministic T) (ha : AwaitsEmissions T) (hw : R.StateAt time w)
    (hstate : Returns (interpolate w.transposer time w.metadata.lastUpdated.time) state)
    (h : InTurn R time out s) (halone : s.Alone channel) :
    s.Serves (NoInputTransposerSource.pollRound time channel) time state := by
  obtain ⟨n, hn⟩ := hw.lastDue
  have hfree : ∀ {u : NoInputTransposerSource T}, InTurn R time out u → u.Alone channel →
      u.channelStatuses.blockedCallerChannels.get channel = none →
      u.Serves (NoInputTransposerSource.pollRound time channel) time state := by
    intro u hu hualone hfree
    obtain ⟨r, u', inner, hr, hb⟩ := hu.free_round hd ha hualone hfree
    obtain ⟨hu', hualone'⟩ := hu.pollRound hd ha hualone hr
    rw [roundInterrupts, Option.elim_none, List.append_nil] at hu'
    refine .of_next hr ?_
    exact hu'.serves_waiting (k := n + 1) hd ha hw hstate hn hualone' hb (by omega)
  cases hb : s.channelStatuses.blockedCallerChannels.get channel with
  | none => exact hfree h halone hb
  | some reason =>
    by_cases htime : reason.pollTime = time
    · obtain ⟨pollTime, inner⟩ := reason
      obtain rfl : pollTime = time := htime
      exact h.serves_waiting (k := n + 1) hd ha hw hstate hn halone hb (by omega)
    · -- what it has waited for is given up
      obtain ⟨r, s', hr, hnone⟩ := h.abandon_round hb htime
      obtain ⟨h', halone'⟩ := h.pollRound hd ha halone hr
      rw [roundInterrupts, Option.elim_none, List.append_nil] at h'
      exact .of_next hr (hfree h' halone' hnone)

/-- **A channel is served to the end.** -/
theorem served (hd : Deterministic T) (ha : AwaitsEmissions T) (hw : R.StateAt time w)
    (hstate : Returns (interpolate w.transposer time w.metadata.lastUpdated.time) state)
    {history : List (Call T × Reply T)} (h : TurnRun R history clock s) (hle : clock ≤ time)
    (halone : s.Alone channel) : Served R history time channel state := by
  obtain ⟨all, hall, hcovers⟩ := hw.covers hd
  let P (history : List (Call T × Reply T)) : Prop :=
    ∃ clock s, TurnRun R history clock s ∧ clock ≤ time ∧ s.Alone channel
  have hout : ∀ history, P history → R.Outputs (interrupts history) := by
    rintro history ⟨clock, s, h, -, -⟩
    exact (h.inTurn hd ha).events.emitted.outputs
  let Q (history : List (Call T × Reply T)) : Prop := ∃ rounds next s',
    TurnRun R (history ++ [(.poll time channel rounds, .poll (.ready state next))]) time s' ∧
      R.Outputs (interrupts history) ∧ R.Covers (interrupts history) time
  let A (x : Call T × Reply T) : Prop :=
    ∃ rounds t e, x = (.poll time channel rounds, .poll (.interrupt t (.finalizedEvent e)))
  obtain ⟨polls, hpolls, rounds, next, s', hrun, hlast⟩ :=
    exists_last_interrupt (A := A) (P := P) (Q := Q) hd hall hcovers hout (by
      rintro history ⟨clock, s, h, hle, halone⟩
      have hinv := h.inTurn hd ha
      obtain ⟨rounds, p, s', hp, hserves⟩ := (hinv.mono hle).serves hd ha hw hstate halone
      have hcall : s.call (.poll time channel rounds) = .ok (.poll p, s') := by
        rw [NoInputTransposerSource.call, NoInputTransposerSource.poll, hp]
        rfl
      have hnext := h.call (.poll time channel rounds) ⟨hle, halone⟩ hcall
      rcases hserves with ⟨t, e, rfl, ht⟩ | ⟨next, rfl⟩
      · refine Or.inr ⟨_, _, t, e, ⟨rounds, t, e, rfl⟩, ⟨time, s', hnext, le_rfl, ?_⟩, rfl, ht⟩
        exact (hinv.poll hd ha hle halone hp).2
      · have hlast := (hinv.events.call hd ha hcall).2 time rfl
        exact Or.inl ⟨rounds, next, s', hnext, hinv.events.emitted.outputs, hlast⟩)
    ⟨clock, s, h, hle, halone⟩
  exact ⟨polls, rounds, next, s', hpolls, hrun, hlast⟩

end InTurn

end Build

/-! ### The events -/

section Build

variable [BuildProfile]

/-- After some polls of the events at the time, each of which returns one, a poll is ready.  What
    has been returned by then are the first events of the reference, and no event up to the time is
    left. -/
def EventsServed (R : Reference T) (history : List (Call T × Reply T)) (time : Time T) : Prop :=
  ∃ polls rounds next s',
    (∀ x ∈ polls, ∃ rounds t e,
      x = (.pollEvents time rounds, .pollEvents (.interrupt t (.finalizedEvent e)))) ∧
    Reachable R.transposer R.startTime R.rngSeed
      (history ++ polls ++ [(.pollEvents time rounds, .pollEvents (.ready () next))]) s' ∧
    R.Outputs (interrupts (history ++ polls)) ∧ R.Covers (interrupts (history ++ polls)) time

namespace Quiet

/-- **A round of `poll_events`** returns an event up to its time or is ready, or else it completes
    the last step. -/
theorem serves_round (hd : Deterministic T) (ha : AwaitsEmissions T) (h : Quiet R out s)
    (hn : R.LastDue time w n) :
    (∃ r s' p, pollEventsRound time [] r s = .ok (some p, s') ∧
      ((∃ t e, p = .interrupt t (.finalizedEvent e) ∧ t ≤ time) ∨ ∃ next, p = .ready () next)) ∨
    ∃ r s' m, pollEventsRound time [] r s = .ok (none, s') ∧ m ≤ n ∧
      ¬ s.steps.RanToCompletion m ∧ ∀ l ≤ m, s'.steps.RanToCompletion l := by
  obtain ⟨q, steps', hq⟩ := h.sound.getBeforeOrAtEvents_returns h.linked time
  obtain ⟨steps₁, -, hpushed, hcases⟩ := Steps.getBeforeOrAtEvents_cases h.sound hq
  cases q with
  | ready next =>
    refine Or.inl ⟨⟨[], 0, []⟩, { s with steps := steps' }, _, ?_, Or.inr ⟨next, rfl⟩⟩
    rw [pollEventsRound, hq, Outcome.ok_bind]
    rfl
  | saturating i _ =>
    obtain ⟨rfl, y, hy, hsat, hle⟩ := hcases.last
    have h' := (h.events.emitted.pushed hd ha hpushed).events hd ha hcases
    obtain ⟨hnumber, fuel, answers, p, hp, hresult⟩ := h'.goes_on hd ha hn hy hsat hle
    rcases hresult with ⟨e, hr⟩ | hr
    · refine Or.inl ⟨⟨[], fuel, answers⟩,
        { s with steps := steps'.setStep (steps'.steps.length - 1) p.step },
        .interrupt y.getTime (.finalizedEvent e), ?_, Or.inl ⟨_, _, rfl, hle⟩⟩
      simp only [pollEventsRound, hq, Outcome.ok_bind, hy, Outcome.unwrap_some, hp, hr,
        Outcome.expect_ok, Outcome.pure_eq]
    · refine Or.inr ⟨⟨[], fuel, answers⟩,
        { s with steps := steps'.setStep (steps'.steps.length - 1) p.step }, steps'.lastNumber,
        ?_, hnumber, ?_, ?_⟩
      · simp only [pollEventsRound, hq, Outcome.ok_bind, hy, Outcome.unwrap_some, hp, hr,
          Outcome.expect_ok, Outcome.pure_eq]
      · -- no step goes back in the search
        intro hran
        have hmoves := Steps.movesTo_of_moves ((hpushed.moves []).trans hcases.moves)
        exact h'.sound.not_ranToCompletion hy hsat (hran.movesTo h.sound hmoves)
      · intro l hl
        exact h'.sound.ranToCompletion_of_poll hy hp hr hl

/-- **The events are served**: some rounds of `poll_events` return one that is due, or are ready. -/
theorem serves (hd : Deterministic T) (ha : AwaitsEmissions T) (h : Quiet R out s)
    (hn : R.LastDue time w n) : s.Serves (pollEventsRound time []) time () := by
  -- by induction on how many due times are left to run
  have hrounds : ∀ k (u : NoInputTransposerSource T), Quiet R out u →
      (∀ m, m + k ≤ n → u.steps.RanToCompletion m) →
      u.Serves (pollEventsRound time []) time () := by
    intro k
    induction k using Nat.strong_induction_on with
    | _ k ih =>
      intro u hu hran
      rcases hu.serves_round hd ha hn with ⟨r, u', p, hr, hp⟩ | ⟨r, u', m, hr, hm, hnot, hran'⟩
      · exact .of_last hr hp
      · have hleft : ¬ m + k ≤ n := fun hle => hnot (hran m hle)
        have hu' := hu.round hd ha hr
        rw [roundInterrupts, Option.elim_none, List.append_nil] at hu'
        exact .of_next hr (ih (k - 1) (by omega) u' hu' fun l hl => hran' l (by omega))
  exact hrounds (n + 1) s h (by omega)

/-- **The events are served to the end.** -/
theorem served (hd : Deterministic T) (ha : AwaitsEmissions T) (hw : R.StateAt time w)
    {history : List (Call T × Reply T)}
    (h : Reachable R.transposer R.startTime R.rngSeed history s)
    (hunpinned : s.channelStatuses.getPinnedTimes = []) : EventsServed R history time := by
  obtain ⟨n, hn⟩ := hw.lastDue
  obtain ⟨all, hall, hcovers⟩ := hw.covers hd
  let A (x : Call T × Reply T) : Prop :=
    ∃ rounds t e, x = (.pollEvents time rounds, .pollEvents (.interrupt t (.finalizedEvent e)))
  let P (history : List (Call T × Reply T)) : Prop :=
    ∃ s, Reachable R.transposer R.startTime R.rngSeed history s ∧
      s.channelStatuses.getPinnedTimes = []
  let Q (history : List (Call T × Reply T)) : Prop := ∃ rounds next s',
    Reachable R.transposer R.startTime R.rngSeed
      (history ++ [(.pollEvents time rounds, .pollEvents (.ready () next))]) s' ∧
    R.Outputs (interrupts history) ∧ R.Covers (interrupts history) time
  have hout : ∀ history, P history → R.Outputs (interrupts history) := by
    rintro history ⟨s, h, hunpinned⟩
    exact (of_reachable hd ha h hunpinned).events.emitted.outputs
  obtain ⟨polls, hpolls, rounds, next, s', hrun, hlast⟩ :=
    exists_last_interrupt (A := A) (P := P) (Q := Q) hd hall hcovers hout (by
      rintro history ⟨s, h, hunpinned⟩
      have hquiet := of_reachable hd ha h hunpinned
      obtain ⟨rounds, p, s', hp, hserves⟩ := hquiet.serves hd ha hn
      replace hp : s.pollEvents time rounds = .ok (p, s') := by
        rw [NoInputTransposerSource.pollEvents, hunpinned]
        exact hp
      have hcall : s.call (.pollEvents time rounds) = .ok (.pollEvents p, s') := by
        rw [NoInputTransposerSource.call, hp]
        rfl
      have hnext := h.call (.pollEvents time rounds) trivial hcall
      rcases hserves with ⟨t, e, rfl, ht⟩ | ⟨next, rfl⟩
      · have hunpinned' := (hquiet.pollEvents hd ha hp).unpinned
        exact Or.inr ⟨_, _, t, e, ⟨rounds, t, e, rfl⟩, ⟨s', hnext, hunpinned'⟩, rfl, ht⟩
      · have hlast := (hquiet.events.call hd ha hcall).2 time rfl
        exact Or.inl ⟨rounds, next, s', hnext, hquiet.events.emitted.outputs, hlast⟩)
    ⟨s, h, hunpinned⟩
  exact ⟨polls, rounds, next, s', hpolls, hrun, hlast⟩

end Quiet

end Build

end NoInputTransposerSource

open NoInputTransposerSource in
/-- **Channels that take turns are served.**  After every run of calls in turn, a channel whose turn
    it is can be polled for a time, however the polls before have been answered or given up: it
    gets the events of the reference that are left up to that time, one by each poll, and then the
    state of the reference at that time. -/
theorem channels_in_turn_served [BuildProfile] (hd : Deterministic T) (ha : AwaitsEmissions T)
    {R : Reference T} {history : List (Call T × Reply T)} {clock time : Time T}
    {s : NoInputTransposerSource T} (h : TurnRun R history clock s) (hle : clock ≤ time)
    {channel : ℕ} (halone : s.Alone channel) {w : WrappedTransposer T} (hw : R.StateAt time w)
    {state : OutputState T}
    (hstate : Returns (interpolate w.transposer time w.metadata.lastUpdated.time) state) :
    Served R history time channel state :=
  InTurn.served hd ha hw hstate h hle halone

open NoInputTransposerSource in
/-- A channel gets an event and is released; the other one gets the state. -/
theorem channels_in_turn_served_script :
    ∃ (_ : BuildProfile) (history : List (Call Script × Reply Script)),
      Served ⟨⟨[.emit 5], [], [], 0⟩, (0 : ℕ), ()⟩ history (4 : ℕ) 1 ((1, 4) : ℕ × ℕ) ∧
      history.length = 2 := by
  let _ : BuildProfile := debugBuild
  let R : Reference Script := ⟨⟨[.emit 5], [], [], 0⟩, (0 : ℕ), ()⟩
  let round : Round Script := ⟨[], 20, []⟩
  have hfirst : TakesTurn (0 : ℕ) (0 : ℕ) (.new R.transposer R.startTime R.rngSeed)
      (.poll (3 : ℕ) 0 [round, round]) := ⟨by decide, alone_of_unpinned rfl 0⟩
  have hpoll := (TurnRun.new (R := R)).call (.poll (3 : ℕ) 0 [round, round]) hfirst rfl
  have hrelease := hpoll.call (.releaseChannel 0) trivial rfl
  have hrun : Run RefStep R.start _ _ :=
    .head (.work (.emit rfl)) (.head (.work (.next rfl)) (.refl _))
  have hw : R.StateAt (4 : ℕ) _ := ⟨_, _, _, hrun, rfl, by decide, by intro k hk; cases hk⟩
  exact ⟨inferInstance, _, channels_in_turn_served Script.deterministic Script.awaitsEmissions
    hrelease (by decide) (alone_of_unpinned rfl 1) hw (.done rfl), rfl⟩

open NoInputTransposerSource in
/-- **The events are served at any time**, after every run of calls in any order, when no channel
    waits for a step.  A poll of the events does not panic; it can return the next event that is
    due; and where the reference has a state, polls return all events that are left up to there, one
    by one, and are ready then. -/
theorem events_served [BuildProfile] (hd : Deterministic T) (ha : AwaitsEmissions T)
    {R : Reference T} {history : List (Call T × Reply T)} {s : NoInputTransposerSource T}
    (h : Reachable R.transposer R.startTime R.rngSeed history s)
    (hunpinned : s.channelStatuses.getPinnedTimes = []) (time : Time T) :
    (∀ rounds site, s.pollEvents time rounds ≠ .panic site) ∧
      (∀ x : Time T × OutputEvent T, R.Outputs (interrupts history ++ [x]) → x.1 ≤ time →
        ∃ rounds s', s.pollEvents time rounds = .ok (.interrupt x.1 (.finalizedEvent x.2), s')) ∧
      ∀ w, R.StateAt time w → EventsServed R history time := by
  have hquiet := Quiet.of_reachable hd ha h hunpinned
  refine ⟨?_, ?_, ?_⟩
  · exact fun rounds site => hquiet.pollEvents_ne_panic hd ha rounds site
  · exact fun x hx hle => hquiet.delivers hd ha hx hle
  · exact fun w hw => Quiet.served hd ha hw h hunpinned

open NoInputTransposerSource in
/-- A channel gets the state at a time, and the events are polled for an earlier one. -/
theorem events_served_script :
    ∃ (_ : BuildProfile) (history : List (Call Script × Reply Script)),
      EventsServed ⟨⟨[.emit 5, .schedule 10], [.emit 7], [], 0⟩, (0 : ℕ), ()⟩ history (4 : ℕ) ∧
      interrupts history = [((0 : ℕ), (5 : ℕ)), ((10 : ℕ), (7 : ℕ))] := by
  let _ : BuildProfile := debugBuild
  let R : Reference Script := ⟨⟨[.emit 5, .schedule 10], [.emit 7], [], 0⟩, (0 : ℕ), ()⟩
  let round : Round Script := ⟨[], 20, []⟩
  have hnew := @ReachableBy.new Script _ _ (fun _ _ => True) R.transposer R.startTime R.rngSeed
  have hfirst := hnew.call (.poll (12 : ℕ) 0 [round, round]) trivial rfl
  have hsecond := hfirst.call (.poll (12 : ℕ) 0 [round, round, round]) trivial rfl
  have hstate := hsecond.call (.poll (12 : ℕ) 0 [round, round, round]) trivial rfl
  have hrun : Run RefStep R.start _ _ :=
    .head (.work (.emit rfl)) (.head (.work (.next rfl)) (.head (.work (.next rfl))
      (.head (.work (.next rfl)) (.refl _))))
  obtain ⟨w, hw⟩ : ∃ w, R.StateAt (4 : ℕ) w := by
    refine ⟨_, _, _, _, hrun, rfl, by decide, ?_⟩
    intro k hk
    obtain rfl := Option.some.inj hk
    decide
  exact ⟨inferInstance, _, (events_served Script.deterministic Script.awaitsEmissions hstate rfl
    (4 : ℕ)).2.2 w hw, rfl⟩

end Cozal
