import Cozal.Source.NoInputTransposerSource
import Cozal.Source.Reachable

namespace Cozal

open Transposer

/-!
# What a round of a poll does

* `NoInputTransposerSource.RoundCases`, `NoInputTransposerSource.pollRound_cases` — the cases of
  a round of the loop of `poll`.
* `NoInputTransposerSource.EventsRoundCases`, `NoInputTransposerSource.pollEventsRound_cases` —
  those of a round of the loop of `poll_events`.
* `NoInputTransposerSource.CallCases`, `NoInputTransposerSource.call_cases` — those of a call.
* `NoInputTransposerSource.call_moves`, `NoInputTransposerSource.ReachableBy.moves` — a call, and
  so a run, is a sequence of moves of the steps.
* `Steps.EventsCases.last` — `poll_events` polls the last step, which is not later than its time.

* `ChannelStatuses.All` — what holds of every channel that waits.

Later files use these and never unfold a round or a call.
-/

variable {T : Type} [Transposer T]

/-! ### Channel statuses -/

/-- The status of a channel that waits for a reason. -/
def CallerChannelBlockedReason.status (b : CallerChannelBlockedReason T) :
    CallerChannelStatus T :=
  match b.inner with
  | .originalStep => .originalStepFuture b.pollTime
  | .repeatStep stepId => .repeatStepFuture b.pollTime stepId
  | .interpolationFuture i => .interpolationFuture b.pollTime i

namespace ChannelStatuses

variable {c : ChannelStatuses T}

/-- A channel is free exactly when it has no entry, and else its status is that of the entry. -/
theorem getChannelStatus_cases {channel : ℕ} {status : CallerChannelStatus T}
    (h : c.getChannelStatus channel = .ok status) :
    (c.blockedCallerChannels.get channel = none ∧ status = .free) ∨
    ∃ b, c.blockedCallerChannels.get channel = some b ∧ status = b.status := by
  unfold getChannelStatus at h
  cases hb : c.blockedCallerChannels.get channel with
  | none =>
    simp only [hb, Outcome.pure_eq, Outcome.ok.injEq] at h
    exact Or.inl ⟨rfl, h.symm⟩
  | some b =>
    refine Or.inr ⟨b, rfl, ?_⟩
    obtain ⟨pollTime, inner⟩ := b
    cases inner with
    | originalStep =>
      simp only [hb, Outcome.pure_eq, Outcome.ok.injEq] at h
      exact h.symm
    | repeatStep stepId =>
      simp only [hb, Outcome.bind_eq_ok, Outcome.pure_eq, Outcome.ok.injEq] at h
      obtain ⟨-, -, h⟩ := h
      exact h.symm
    | interpolationFuture i =>
      simp only [hb, Outcome.pure_eq, Outcome.ok.injEq] at h
      exact h.symm

/-- What happens to a stack waker leaves the entries of the channels. -/
@[simp] theorem wakerEvent_blocked (c : ChannelStatuses T) (e : ℕ × StackWakerEvent) :
    (c.wakerEvent e).blockedCallerChannels = c.blockedCallerChannels := by
  unfold wakerEvent
  split <;> rfl

/-- What happens to the stack wakers leaves the entries of the channels. -/
@[simp] theorem wakerEvents_blocked (events : List (ℕ × StackWakerEvent))
    (c : ChannelStatuses T) : (events.foldl wakerEvent c).blockedCallerChannels
      = c.blockedCallerChannels := by
  induction events generalizing c with
  | nil => rfl
  | cons e events ih => rw [List.foldl_cons, ih, wakerEvent_blocked]

/-- To stop waiting for a step leaves the entries of the channels. -/
@[simp] theorem releaseRepeatStep_blocked (c : ChannelStatuses T) (stepId : ℕ) :
    (c.releaseRepeatStep stepId).blockedCallerChannels = c.blockedCallerChannels := by
  unfold releaseRepeatStep
  split <;> rfl

/-- To register a waker leaves the entries of the channels. -/
@[simp] theorem registerWaker_blocked (c : ChannelStatuses T) (channel stepId : ℕ) :
    (c.registerWaker channel stepId).2.blockedCallerChannels = c.blockedCallerChannels := by
  unfold registerWaker
  split <;> rfl

/-- The entries after a registration are those before it. -/
theorem blocked_of_registerWaker {c' : ChannelStatuses T} {channel stepId : ℕ} {polls : Bool}
    (h : c.registerWaker channel stepId = (polls, c')) :
    c'.blockedCallerChannels = c.blockedCallerChannels := by
  rw [← registerWaker_blocked c channel stepId, h]

/-- A channel that stops to wait for a step it has been registered for loses its entry. -/
theorem abandon_registered {c' : ChannelStatuses T} {channel stepId : ℕ} {polls : Bool}
    (h : c.registerWaker channel stepId = (polls, c')) (time : Time T) :
    (c'.abandon channel (.repeatStepFuture time stepId)).blockedCallerChannels
      = c.blockedCallerChannels.remove channel := by
  simp only [abandon, vacate, releaseRepeatStep_blocked, blocked_of_registerWaker h]

/-- Abandoning what a channel waits for removes its entry. -/
theorem abandon_blocked {channel : ℕ} {b : CallerChannelBlockedReason T} :
    (c.abandon channel b.status).blockedCallerChannels
      = c.blockedCallerChannels.remove channel := by
  unfold CallerChannelBlockedReason.status
  split <;> simp [abandon, vacate]

/-- The time of a channel that waits for a step is pinned. -/
theorem mem_getPinnedTimes {t : Time T} :
    t ∈ c.getPinnedTimes ↔ ∃ channel b, c.blockedCallerChannels.get channel = some b ∧
      b.getPinnedTime = some t := by
  simp only [getPinnedTimes, List.mem_filterMap, OrdMap.mem_values]
  constructor
  · rintro ⟨b, ⟨channel, hb⟩, ht⟩
    exact ⟨channel, b, hb, ht⟩
  · rintro ⟨channel, b, hb, ht⟩
    exact ⟨b, ⟨channel, hb⟩, ht⟩

/-- What every channel that waits, waits for meets a condition. -/
def All (Q : CallerChannelBlockedReason T → Prop) (c : ChannelStatuses T) : Prop :=
  ∀ channel b, c.blockedCallerChannels.get channel = some b → Q b

namespace All

variable {Q Q' : CallerChannelBlockedReason T → Prop} {c' : ChannelStatuses T}

/-- No channel waits. -/
theorem new : All Q .new := by
  intro channel b h
  cases h

/-- The condition carries over to what follows from it. -/
theorem imp (h : All Q c)
    (himp : ∀ channel b, c.blockedCallerChannels.get channel = some b → Q b → Q' b) : All Q' c :=
  fun channel b hb => himp channel b hb (h channel b hb)

/-- Only the entries of the channels matter. -/
theorem of_eq (h : All Q c) (heq : c'.blockedCallerChannels = c.blockedCallerChannels) :
    All Q c' := by
  intro channel b hb
  rw [heq] at hb
  exact h channel b hb

/-- One entry fewer meets the condition. -/
theorem vacate (h : All Q c) {channel : ℕ}
    (heq : c'.blockedCallerChannels = c.blockedCallerChannels.remove channel) : All Q c' := by
  intro channel' b hb
  rw [heq, OrdMap.get_remove_eq_some] at hb
  exact h channel' b hb.2

/-- A new entry has to meet the condition. -/
theorem occupy (h : All Q c) {channel : ℕ} {b : CallerChannelBlockedReason T}
    (heq : c'.blockedCallerChannels = c.blockedCallerChannels.insert channel b) (hb : Q b) :
    All Q c' := by
  intro channel' b' hget
  rw [heq, OrdMap.get_insert] at hget
  split at hget
  · rw [Option.some.injEq] at hget
    exact hget ▸ hb
  · exact h channel' b' hget

end All

end ChannelStatuses

/-- A poll that is not refused finds the step saturating. -/
theorem Step.isSaturating_of_poll {x : Step T} {fuel : ℕ} {answers : List (Response T)}
    {p : StepPolled T} {r : StepPoll T} (hp : x.poll fuel answers = .ok p)
    (hr : p.result = .ok r) : x.isSaturating = true := by
  cases hsat : x.isSaturating with
  | true => rfl
  | false =>
    obtain ⟨-, -, -, e, he⟩ := Step.poll_refused hsat hp
    rw [hr] at he
    cases he

/-! ### The step `poll_events` polls -/

/-- `poll_events` polls the last step, which is saturating and not later than the time. -/
theorem Steps.EventsCases.last {s s' : Steps T} {pinnedTimes : List (Time T)} {t : Time T}
    {i n : ℕ} (h : s.EventsCases pinnedTimes t (.saturating i n) s') :
    i = s'.steps.length - 1 ∧ ∃ x, s'.steps[i]? = some x ∧ x.isSaturating = true ∧
      x.getTime ≤ t := by
  cases h with
  | saturating hx hle hsat => exact ⟨rfl, _, hx, hsat, hle⟩
  | @start j x prev w _ hx hle hunsat hj hprev hw hcases =>
    refine ⟨rfl, ?_⟩
    have hstep : s.steps[j + 1]? = some x := by
      rw [show j + 1 = s.steps.length - 1 by omega]
      exact hx
    cases hcases with
    | @saturate f d _ _ _ =>
      refine ⟨x.started f, ?_, rfl, hle⟩
      rw [Steps.length_saturatedAt, show s.steps.length - 1 = j + 1 by omega,
        Steps.getElem?_saturatedAt_self hstep]
    | @consume front rest f b hj0 hs _ _ _ =>
      have hlen : s.steps.length = rest.length + 2 := by rw [hs]; rfl
      have hrest : rest = [] := List.length_eq_zero_iff.mp (by omega)
      subst hrest
      exact ⟨x.started f, rfl, rfl, hle⟩

namespace NoInputTransposerSource

/-! ### The cases of a round -/

/-- What a round of the loop of `poll` does, after what has happened to the stack wakers. -/
inductive RoundCases (time : Time T) (channel : ℕ) (r : Round T) (s : NoInputTransposerSource T) :
    Option (SourcePollOf T (OutputState T)) → NoInputTransposerSource T → Prop where
  | abandon {b} : s.channelStatuses.blockedCallerChannels.get channel = some b →
      b.pollTime ≠ time → RoundCases time channel r s none (s.abandon channel b.status)
  | interpolate {steps i x w} : s.channelStatuses.blockedCallerChannels.get channel = none →
      Steps.Pushed s.steps steps → steps.LatestStep time i x → x.status = .saturated w →
      RoundCases time channel r s none
        ⟨steps, s.channelStatuses.startInterpolation channel
          (Transposer.interpolate w.transposer time w.metadata.lastUpdated.time) time⟩
  | wait {steps i n steps' step} :
      s.channelStatuses.blockedCallerChannels.get channel = none →
      Steps.Pushed s.steps steps →
      steps.BeforeCases s.channelStatuses.getPinnedTimes time (.ok (.saturating i n)) steps' →
      steps'.steps[i]? = some step →
      RoundCases time channel r s none
        ⟨steps', if step.canProduceEvents then s.channelStatuses.startOriginalStep channel time
          else s.channelStatuses.startRepeatStep channel n time⟩
  | interpolationPending {i i'} :
      s.channelStatuses.blockedCallerChannels.get channel = some ⟨time, .interpolationFuture i⟩ →
      pollInterpolation r.fuel r.answers i = .ok (.pending i') →
      RoundCases time channel r s (some .pending)
        ⟨s.steps, s.channelStatuses.occupy channel ⟨time, .interpolationFuture i'⟩⟩
  | interpolationReady {i state next} :
      s.channelStatuses.blockedCallerChannels.get channel = some ⟨time, .interpolationFuture i⟩ →
      pollInterpolation r.fuel r.answers i = .ok (.ready state) →
      RoundCases time channel r s (some (.ready state next))
        ⟨s.steps, s.channelStatuses.vacate channel⟩
  | originalEmitted {step p e} :
      s.channelStatuses.blockedCallerChannels.get channel = some ⟨time, .originalStep⟩ →
      s.steps.steps[s.steps.steps.length - 1]? = some step →
      step.poll r.fuel r.answers = .ok p → p.result = .ok (.emitted e) →
      RoundCases time channel r s (some (.interrupt step.getTime (.finalizedEvent e)))
        { s with steps := s.steps.setStep (s.steps.steps.length - 1) p.step }
  | originalPending {step p} :
      s.channelStatuses.blockedCallerChannels.get channel = some ⟨time, .originalStep⟩ →
      s.steps.steps[s.steps.steps.length - 1]? = some step →
      step.poll r.fuel r.answers = .ok p → p.result = .ok .pending →
      RoundCases time channel r s (some .pending)
        { s with steps := s.steps.setStep (s.steps.steps.length - 1) p.step }
  | originalReady {step p} :
      s.channelStatuses.blockedCallerChannels.get channel = some ⟨time, .originalStep⟩ →
      s.steps.steps[s.steps.steps.length - 1]? = some step →
      step.poll r.fuel r.answers = .ok p → p.result = .ok .ready →
      RoundCases time channel r s none
        ⟨s.steps.setStep (s.steps.steps.length - 1) p.step, s.channelStatuses.vacate channel⟩
  | repeatWaits {stepId statuses} :
      s.channelStatuses.blockedCallerChannels.get channel = some ⟨time, .repeatStep stepId⟩ →
      s.channelStatuses.registerWaker channel stepId = (false, statuses) →
      RoundCases time channel r s (some .pending) { s with channelStatuses := statuses }
  | repeatPending {stepId i step p statuses} :
      s.channelStatuses.blockedCallerChannels.get channel = some ⟨time, .repeatStep stepId⟩ →
      stepId = s.steps.numDeletedSteps + i → s.steps.steps[i]? = some step →
      s.channelStatuses.registerWaker channel stepId = (true, statuses) →
      step.poll r.fuel r.answers = .ok p → p.result = .ok .pending →
      RoundCases time channel r s (some .pending) ⟨s.steps.setStep i p.step, statuses⟩
  | repeatReady {stepId i step p statuses} :
      s.channelStatuses.blockedCallerChannels.get channel = some ⟨time, .repeatStep stepId⟩ →
      stepId = s.steps.numDeletedSteps + i → s.steps.steps[i]? = some step →
      s.channelStatuses.registerWaker channel stepId = (true, statuses) →
      step.poll r.fuel r.answers = .ok p → p.result = .ok .ready →
      RoundCases time channel r s none
        ⟨s.steps.setStep i p.step,
          statuses.abandon channel (.repeatStepFuture time stepId)⟩

variable {s s' : NoInputTransposerSource T} {time : Time T} {r : Round T}

/-- No channel stops to wait when stack wakers are woken or dropped. -/
@[simp] theorem afterWakerEvents_blocked (s : NoInputTransposerSource T)
    (events : List (ℕ × StackWakerEvent)) :
    (s.afterWakerEvents events).channelStatuses.blockedCallerChannels
      = s.channelStatuses.blockedCallerChannels :=
  ChannelStatuses.wakerEvents_blocked events s.channelStatuses

/-- The arm for a channel that waits for an interpolation. -/
theorem pollInterpolationFuture_cases {channel : ℕ} {i : Interpolating T}
    {poll : SourcePollOf T (OutputState T)}
    (hb : s.channelStatuses.blockedCallerChannels.get channel
      = some ⟨time, .interpolationFuture i⟩)
    (h : s.pollInterpolationFuture time channel i r = .ok (poll, s')) :
    RoundCases time channel r s (some poll) s' := by
  simp only [pollInterpolationFuture, Outcome.bind_eq_ok] at h
  obtain ⟨q, hq, h⟩ := h
  cases q with
  | pending i' =>
    simp only [Outcome.pure_eq, Outcome.ok.injEq, Prod.mk.injEq] at h
    obtain ⟨rfl, rfl⟩ := h
    exact .interpolationPending hb hq
  | ready state =>
    simp only [Outcome.bind_eq_ok, Outcome.pure_eq, Outcome.ok.injEq, Prod.mk.injEq] at h
    obtain ⟨next, -, rfl, rfl⟩ := h
    exact .interpolationReady hb hq

/-- The arm for a channel that waits for the last step. -/
theorem pollOriginalStepFuture_cases {channel : ℕ} {o : Option (SourcePollOf T (OutputState T))}
    (hb : s.channelStatuses.blockedCallerChannels.get channel = some ⟨time, .originalStep⟩)
    (h : s.pollOriginalStepFuture channel r = .ok (o, s')) :
    RoundCases time channel r s o s' := by
  simp only [pollOriginalStepFuture, Outcome.bind_eq_ok, Steps.getLast_ok,
    Outcome.expect_eq_ok] at h
  obtain ⟨step, hstep, p, hp, poll, hr, h⟩ := h
  rw [List.getLast?_eq_getElem?] at hstep
  cases poll with
  | emitted e =>
    simp only [Outcome.pure_eq, Outcome.ok.injEq, Prod.mk.injEq] at h
    obtain ⟨rfl, rfl⟩ := h
    exact .originalEmitted hb hstep hp hr
  | pending =>
    simp only [Outcome.pure_eq, Outcome.ok.injEq, Prod.mk.injEq] at h
    obtain ⟨rfl, rfl⟩ := h
    exact .originalPending hb hstep hp hr
  | ready =>
    simp only [Outcome.pure_eq, Outcome.ok.injEq, Prod.mk.injEq] at h
    obtain ⟨rfl, rfl⟩ := h
    exact .originalReady hb hstep hp hr

/-- The arm for a channel that waits for a step that is run again. -/
theorem pollRepeatStepFuture_cases {channel stepId : ℕ}
    {o : Option (SourcePollOf T (OutputState T))}
    (hb : s.channelStatuses.blockedCallerChannels.get channel = some ⟨time, .repeatStep stepId⟩)
    (h : s.pollRepeatStepFuture time channel stepId r = .ok (o, s')) :
    RoundCases time channel r s o s' := by
  simp only [pollRepeatStepFuture, Outcome.bind_eq_ok, Outcome.unwrap_eq_ok,
    Steps.getBySequenceNumber_eq_some] at h
  obtain ⟨step, ⟨i, hi, hstep⟩, h⟩ := h
  obtain ⟨⟨polls, statuses⟩, hreg⟩ : ∃ q, s.channelStatuses.registerWaker channel stepId = q :=
    ⟨_, rfl⟩
  rw [hreg] at h
  cases polls with
  | false =>
    simp only [Bool.false_eq_true, if_false, Outcome.pure_eq, Outcome.ok.injEq,
      Prod.mk.injEq] at h
    obtain ⟨rfl, rfl⟩ := h
    exact .repeatWaits hb hreg
  | true =>
    simp only [if_true, Outcome.bind_eq_ok, Outcome.expect_eq_ok] at h
    obtain ⟨p, hp, poll, hr, h⟩ := h
    -- the step is written back at the index its number stands for
    have hindex : stepId - s.steps.numDeletedSteps = i := by omega
    rw [hindex] at h
    -- an event of a step that repeats is the `todo!()` of the source
    cases poll with
    | emitted e => cases h
    | pending =>
      simp only [Outcome.pure_eq, Outcome.ok.injEq, Prod.mk.injEq] at h
      obtain ⟨rfl, rfl⟩ := h
      exact .repeatPending hb hi hstep hreg hp hr
    | ready =>
      simp only [Outcome.pure_eq, Outcome.ok.injEq, Prod.mk.injEq] at h
      obtain ⟨rfl, rfl⟩ := h
      exact .repeatReady hb hi hstep hreg hp hr

section Build

variable [BuildProfile]

/-- What a round of the loop of `poll_events` does. -/
inductive EventsRoundCases (time : Time T) (pinnedTimes : List (Time T)) (r : Round T)
    (s : NoInputTransposerSource T) :
    Option (SourcePollOf T Unit) → NoInputTransposerSource T → Prop where
  | ready {steps x} : Steps.Pushed s.steps steps →
      steps.steps[steps.steps.length - 1]? = some x →
      time < x.getTime ∨ x.canProduceEvents = false →
      EventsRoundCases time pinnedTimes r s
        (some (.ready () (if x.canProduceEvents then some x.getTime else none)))
        { s with steps }
  | emitted {steps i n steps' step p e} : Steps.Pushed s.steps steps →
      steps.EventsCases pinnedTimes time (.saturating i n) steps' →
      steps'.steps[i]? = some step → step.poll r.fuel r.answers = .ok p →
      p.result = .ok (.emitted e) →
      EventsRoundCases time pinnedTimes r s (some (.interrupt step.getTime (.finalizedEvent e)))
        { s with steps := steps'.setStep i p.step }
  | pending {steps i n steps' step p} : Steps.Pushed s.steps steps →
      steps.EventsCases pinnedTimes time (.saturating i n) steps' →
      steps'.steps[i]? = some step → step.poll r.fuel r.answers = .ok p →
      p.result = .ok .pending →
      EventsRoundCases time pinnedTimes r s (some .pending)
        { s with steps := steps'.setStep i p.step }
  | completed {steps i n steps' step p} :
      s.steps.getBeforeOrAtEvents time pinnedTimes = .ok (.saturating i n, steps') →
      Steps.Pushed s.steps steps →
      steps.EventsCases pinnedTimes time (.saturating i n) steps' →
      steps'.steps[i]? = some step → step.poll r.fuel r.answers = .ok p →
      p.result = .ok .ready →
      EventsRoundCases time pinnedTimes r s none { s with steps := steps'.setStep i p.step }

/-- The arm for a free channel. -/
theorem pollFree_cases (hs : s.steps.Sound) {channel : ℕ}
    (hfree : s.channelStatuses.blockedCallerChannels.get channel = none)
    (h : s.pollFree time channel r.fuel = .ok s') : RoundCases time channel r s none s' := by
  simp only [pollFree, Outcome.bind_eq_ok, Outcome.expect_eq_ok] at h
  obtain ⟨⟨q, steps'⟩, hq, status, rfl, h⟩ := h
  obtain ⟨steps, -, hpushed, hcases⟩ := Steps.getBeforeOrAt_cases hs hq
  cases status with
  | saturated i next =>
    simp only [Outcome.bind_eq_ok, Outcome.unwrap_eq_ok, Outcome.expect_eq_ok, Outcome.pure_eq,
      Outcome.ok.injEq] at h
    obtain ⟨x, hx, interpolation, hi, rfl⟩ := h
    cases hcases with
    | saturated hlatest _ _ =>
      rw [hlatest.get, Option.some.injEq] at hx
      subst hx
      -- only a saturated step interpolates, and no time before its own
      unfold Step.interpolate at hi
      split at hi
      · rename_i w hw
        split at hi
        · cases hi
        · cases hi
          exact .interpolate hfree hpushed hlatest hw
      · cases hi
  | saturating i n =>
    simp only [Outcome.bind_eq_ok, Outcome.unwrap_eq_ok] at h
    obtain ⟨step, hstep, h⟩ := h
    -- the flag of the step says which of the two ways to wait is taken
    have hwait := RoundCases.wait (r := r) hfree hpushed hcases hstep
    split at h
    · rename_i hc
      rw [if_pos hc] at hwait
      exact Outcome.ok.inj h ▸ hwait
    · rename_i hc
      rw [if_neg hc] at hwait
      exact Outcome.ok.inj h ▸ hwait

/-- **A round of the loop of `poll`** does one of the cases. -/
theorem pollRound_cases (hs : s.steps.Sound) {channel : ℕ}
    {o : Option (SourcePollOf T (OutputState T))}
    (h : pollRound time channel r s = .ok (o, s')) :
    RoundCases time channel r (s.afterWakerEvents r.wakerEvents) o s' := by
  simp only [pollRound, Outcome.bind_eq_ok] at h
  obtain ⟨status, hstatus, h⟩ := h
  have hs₁ : (s.afterWakerEvents r.wakerEvents).steps.Sound := hs
  rcases ChannelStatuses.getChannelStatus_cases hstatus with ⟨hnone, rfl⟩ | ⟨b, hb, rfl⟩
  · simp only [Outcome.bind_eq_ok, Outcome.pure_eq, Outcome.ok.injEq, Prod.mk.injEq] at h
    obtain ⟨s₁, hfree, rfl, rfl⟩ := h
    exact pollFree_cases hs₁ hnone hfree
  · -- a channel that waits for another time is vacated; else its arm is taken
    have habandon : b.pollTime ≠ time → RoundCases time channel r _ none _ := .abandon hb
    obtain ⟨pollTime, inner⟩ := b
    by_cases ht : pollTime = time
    · subst ht
      cases inner with
      | originalStep =>
        simp only [CallerChannelBlockedReason.status, ne_eq, not_true_eq_false, if_false] at h
        exact pollOriginalStepFuture_cases hb h
      | repeatStep stepId =>
        simp only [CallerChannelBlockedReason.status, ne_eq, not_true_eq_false, if_false] at h
        exact pollRepeatStepFuture_cases hb h
      | interpolationFuture i =>
        simp only [CallerChannelBlockedReason.status, ne_eq, not_true_eq_false, if_false,
          Outcome.bind_eq_ok, Outcome.pure_eq, Outcome.ok.injEq, Prod.mk.injEq] at h
        obtain ⟨⟨poll, s₁⟩, hpoll, rfl, rfl⟩ := h
        exact pollInterpolationFuture_cases hb hpoll
    · have habandon := habandon ht
      cases inner with
      | originalStep | repeatStep _ | interpolationFuture _ =>
        simp only [CallerChannelBlockedReason.status, ne_eq, ht, not_false_eq_true, if_true,
          Outcome.pure_eq, Outcome.ok.injEq, Prod.mk.injEq] at h
        obtain ⟨rfl, rfl⟩ := h
        exact habandon

/-- **A round of the loop of `poll_events`** does one of the cases. -/
theorem pollEventsRound_cases (hs : s.steps.Sound) {pinnedTimes : List (Time T)}
    {o : Option (SourcePollOf T Unit)} (h : pollEventsRound time pinnedTimes r s = .ok (o, s')) :
    EventsRoundCases time pinnedTimes r s o s' := by
  simp only [pollEventsRound, Outcome.bind_eq_ok] at h
  obtain ⟨⟨status, steps'⟩, hq, h⟩ := h
  obtain ⟨steps, -, hpushed, hcases⟩ := Steps.getBeforeOrAtEvents_cases hs hq
  cases status with
  | ready next =>
    simp only [Outcome.pure_eq, Outcome.ok.injEq, Prod.mk.injEq] at h
    obtain ⟨rfl, rfl⟩ := h
    cases hcases with
    | ready hx hcond => exact .ready hpushed hx hcond
  | saturating i n =>
    simp only [Outcome.bind_eq_ok, Outcome.unwrap_eq_ok, Outcome.expect_eq_ok] at h
    obtain ⟨step, hstep, p, hp, poll, hr, h⟩ := h
    cases poll with
    | emitted e =>
      simp only [Outcome.pure_eq, Outcome.ok.injEq, Prod.mk.injEq] at h
      obtain ⟨rfl, rfl⟩ := h
      exact .emitted hpushed hcases hstep hp hr
    | pending =>
      simp only [Outcome.pure_eq, Outcome.ok.injEq, Prod.mk.injEq] at h
      obtain ⟨rfl, rfl⟩ := h
      exact .pending hpushed hcases hstep hp hr
    | ready =>
      simp only [Outcome.pure_eq, Outcome.ok.injEq, Prod.mk.injEq] at h
      obtain ⟨rfl, rfl⟩ := h
      exact .completed hq hpushed hcases hstep hp hr

/-- A round of `poll_events` is a sequence of moves. -/
theorem EventsRoundCases.moves {pinnedTimes : List (Time T)} {o : Option (SourcePollOf T Unit)}
    (h : EventsRoundCases time pinnedTimes r s o s') :
    Relation.ReflTransGen (Steps.Move pinnedTimes) s.steps s'.steps := by
  cases h with
  | ready hpushed _ _ => exact hpushed.moves _
  | emitted hpushed hcases hstep hp hr | pending hpushed hcases hstep hp hr
  | completed _ hpushed hcases hstep hp hr =>
    exact ((hpushed.moves _).trans hcases.moves).tail
      (.poll _ _ hstep (Step.isSaturating_of_poll hp hr) hp)

/-- A round of `poll_events` leaves the channels alone. -/
theorem EventsRoundCases.channelStatuses {pinnedTimes : List (Time T)}
    {o : Option (SourcePollOf T Unit)} (h : EventsRoundCases time pinnedTimes r s o s') :
    s'.channelStatuses = s.channelStatuses := by
  cases h <;> rfl

/-! ### The cases of a call -/

/-- What a call does. -/
inductive CallCases (s : NoInputTransposerSource T) :
    Call T → Reply T → NoInputTransposerSource T → Prop where
  | poll {p s'} (time : Time T) (channel : ℕ) (rounds : List (Round T)) :
      s.poll time channel rounds = .ok (p, s') →
      CallCases s (.poll time channel rounds) (.poll p) s'
  | pollEvents {p s'} (time : Time T) (rounds : List (Round T)) :
      s.pollEvents time rounds = .ok (p, s') →
      CallCases s (.pollEvents time rounds) (.pollEvents p) s'
  | releaseFree {channel} : s.channelStatuses.blockedCallerChannels.get channel = none →
      CallCases s (.releaseChannel channel) .done s
  | release {channel b} : s.channelStatuses.blockedCallerChannels.get channel = some b →
      CallCases s (.releaseChannel channel) .done (s.abandon channel b.status)
  | advance {time q steps} : s.steps.deleteBefore time = .ok (q, steps) →
      CallCases s (.advance time) .done { s with steps }

/-- A call that returns is one of the cases. -/
theorem call_cases {c : Call T} {reply : Reply T} (h : s.call c = .ok (reply, s')) :
    CallCases s c reply s' := by
  cases c with
  | poll time channel rounds =>
    simp only [call, Outcome.bind_eq_ok, Outcome.pure_eq, Outcome.ok.injEq, Prod.mk.injEq] at h
    obtain ⟨⟨p, s₁⟩, hp, rfl, rfl⟩ := h
    exact .poll time channel rounds hp
  | pollEvents time rounds =>
    simp only [call, Outcome.bind_eq_ok, Outcome.pure_eq, Outcome.ok.injEq, Prod.mk.injEq] at h
    obtain ⟨⟨p, s₁⟩, hp, rfl, rfl⟩ := h
    exact .pollEvents time rounds hp
  | releaseChannel channel =>
    simp only [call, releaseChannel, Outcome.bind_eq_ok, Outcome.pure_eq, Outcome.ok.injEq,
      Prod.mk.injEq] at h
    obtain ⟨s₁, ⟨status, hstatus, rfl⟩, rfl, rfl⟩ := h
    rcases ChannelStatuses.getChannelStatus_cases hstatus with ⟨hnone, rfl⟩ | ⟨b, hb, rfl⟩
    · exact .releaseFree hnone
    · exact .release hb
  | advance time =>
    simp only [call, advance, Outcome.bind_eq_ok, Outcome.pure_eq, Outcome.ok.injEq,
      Prod.mk.injEq] at h
    obtain ⟨s₁, ⟨⟨q, steps⟩, hq, rfl⟩, rfl, rfl⟩ := h
    exact .advance hq

end Build

/-! ### What a round does to the steps -/

/-- A round of `poll` is a sequence of moves. -/
theorem RoundCases.moves {channel : ℕ} {o : Option (SourcePollOf T (OutputState T))}
    (h : RoundCases time channel r s o s') :
    Relation.ReflTransGen (Steps.Move s.channelStatuses.getPinnedTimes) s.steps s'.steps := by
  cases h with
  | abandon _ _ | interpolationPending _ _ | interpolationReady _ _ | repeatWaits _ _ =>
    exact .refl
  | interpolate _ hpushed _ _ => exact hpushed.moves _
  | wait _ hpushed hcases _ => exact (hpushed.moves _).trans hcases.moves
  | originalEmitted _ hstep hp hr | originalPending _ hstep hp hr | originalReady _ hstep hp hr =>
    exact .single (.poll _ _ hstep (Step.isSaturating_of_poll hp hr) hp)
  | repeatPending _ _ hstep _ hp hr | repeatReady _ _ hstep _ hp hr =>
    exact .single (.poll _ _ hstep (Step.isSaturating_of_poll hp hr) hp)

/-- A round of `poll` leaves the other channels alone. -/
theorem RoundCases.others {channel : ℕ} {o : Option (SourcePollOf T (OutputState T))}
    (h : RoundCases time channel r s o s') (other : ℕ) (hne : other ≠ channel) :
    s'.channelStatuses.blockedCallerChannels.get other =
      s.channelStatuses.blockedCallerChannels.get other := by
  cases h with
  | abandon _ _ =>
    show (s.channelStatuses.abandon channel _).blockedCallerChannels.get other = _
    rw [ChannelStatuses.abandon_blocked, OrdMap.get_remove, if_neg hne]
  | interpolate _ _ _ _ | interpolationPending _ _ =>
    simp [ChannelStatuses.startInterpolation, ChannelStatuses.occupy, hne]
  | wait _ _ _ _ =>
    split
    · simp [ChannelStatuses.startOriginalStep, ChannelStatuses.occupy, hne]
    · simp [ChannelStatuses.startRepeatStep, ChannelStatuses.occupy, hne]
  | interpolationReady _ _ | originalReady _ _ _ _ => simp [ChannelStatuses.vacate, hne]
  | originalEmitted _ _ _ _ | originalPending _ _ _ _ => rfl
  | repeatWaits _ hreg | repeatPending _ _ _ hreg _ _ =>
    exact congrArg (·.get other) (ChannelStatuses.blocked_of_registerWaker hreg)
  | repeatReady _ _ _ hreg _ _ =>
    simp [ChannelStatuses.abandon, ChannelStatuses.vacate, hne,
      ChannelStatuses.blocked_of_registerWaker hreg]

/-- A round of `poll` lets no time be deleted. -/
theorem RoundCases.deletedBefore {channel : ℕ} {o : Option (SourcePollOf T (OutputState T))}
    (h : RoundCases time channel r s o s') :
    s'.steps.deletedBefore = s.steps.deletedBefore := by
  cases h with
  | interpolate _ hpushed _ _ => cases hpushed <;> rfl
  | @wait steps _ _ steps' _ _ hpushed hcases _ =>
    have hpush : steps.deletedBefore = s.steps.deletedBefore := by cases hpushed <;> rfl
    show steps'.deletedBefore = s.steps.deletedBefore
    rw [← hpush]
    cases hcases with
    | saturating _ _ | previous _ _ _ _ => rfl
    | start _ _ _ _ hcases _ => cases hcases <;> rfl
  | abandon _ _ | interpolationPending _ _ | interpolationReady _ _ | originalEmitted _ _ _ _
  | originalPending _ _ _ _ | originalReady _ _ _ _ | repeatWaits _ _
  | repeatPending _ _ _ _ _ _ | repeatReady _ _ _ _ _ _ => rfl

section Build

variable [BuildProfile]

/-- The steps are in order after every round of `poll`. -/
theorem pollRound_sound {channel : ℕ} {o : Option (SourcePollOf T (OutputState T))}
    (hs : s.steps.Sound) (h : pollRound time channel r s = .ok (o, s')) : s'.steps.Sound :=
  Steps.sound_of_moves (pollRound_cases hs h).moves hs

/-- A round of `poll_events` keeps the invariant of the steps. -/
theorem pollEventsRound_sound {pinnedTimes : List (Time T)} {o : Option (SourcePollOf T Unit)}
    (hs : s.steps.Sound) (h : pollEventsRound time pinnedTimes r s = .ok (o, s')) :
    s'.steps.Sound :=
  Steps.sound_of_moves (pollEventsRound_cases hs h).moves hs

/-- **A call is a sequence of moves** of the steps, round by round. -/
theorem call_moves (hs : s.steps.Sound) {c : Call T} {reply : Reply T}
    (h : s.call c = .ok (reply, s')) : s.steps.MovesTo s'.steps := by
  have hround : ∀ {channel time r o} {u u' : NoInputTransposerSource T},
      s.steps.MovesTo u.steps → pollRound time channel r u = .ok (o, u') →
      s.steps.MovesTo u'.steps := by
    intro channel time r o u u' hu hr
    exact hu.trans (Steps.movesTo_of_moves (pollRound_cases (hu.sound hs) hr).moves)
  have heventsRound : ∀ {time pinnedTimes r o} {u u' : NoInputTransposerSource T},
      s.steps.MovesTo u.steps → pollEventsRound time pinnedTimes r u = .ok (o, u') →
      s.steps.MovesTo u'.steps := by
    intro time pinnedTimes r o u u' hu hr
    exact hu.trans (Steps.movesTo_of_moves (pollEventsRound_cases (hu.sound hs) hr).moves)
  have hstart : s.steps.MovesTo s.steps := .refl
  cases call_cases h with
  | poll time channel rounds hp =>
    obtain ⟨r, u, hu, -, hr⟩ := Outcome.loop_ok (P := fun u => s.steps.MovesTo u.steps) hp
      (.of_forall (fun _ _ => trivial) _ _) hstart (fun _ _ _ hu _ hr => hround hu hr)
    exact hround hu hr
  | pollEvents time rounds hp =>
    obtain ⟨r, u, hu, -, hr⟩ := Outcome.loop_ok (P := fun u => s.steps.MovesTo u.steps) hp
      (.of_forall (fun _ _ => trivial) _ _) hstart (fun _ _ _ hu _ hr => heventsRound hu hr)
    exact heventsRound hu hr
  | releaseFree _ | release _ => exact hstart
  | advance hq => exact Steps.movesTo_of_moves ((Steps.Call.Does.deleteBefore _ hq).moves hs)

/-- The steps are in order after every call. -/
theorem call_sound (hs : s.steps.Sound) {c : Call T} {reply : Reply T}
    (h : s.call c = .ok (reply, s')) : s'.steps.Sound :=
  (call_moves hs h).sound hs

/-- **A run is a sequence of moves** of the steps. -/
theorem ReachableBy.moves {meets : NoInputTransposerSource T → Call T → Prop} {transposer : T}
    {startTime : Time T} {rngSeed : Seed T} {history : List (Call T × Reply T)}
    (h : ReachableBy meets transposer startTime rngSeed history s) :
    (Steps.new transposer startTime rngSeed).MovesTo s.steps := by
  induction h with
  | new => exact .refl
  | call c _ _ hc ih =>
    exact ih.trans (call_moves (ih.sound (.new transposer startTime rngSeed)) hc)

/-- The steps are in order after every run. -/
theorem ReachableBy.sound {meets : NoInputTransposerSource T → Call T → Prop} {transposer : T}
    {startTime : Time T} {rngSeed : Seed T} {history : List (Call T × Reply T)}
    (h : ReachableBy meets transposer startTime rngSeed history s) : s.steps.Sound :=
  h.moves.sound (.new transposer startTime rngSeed)

end Build

/-! ### What a round does to the interpolations -/

/-- Every interpolation a channel waits for meets a condition, with the time it is for. -/
abbrev InterpolationsMeet (Q : Time T → Interpolating T → Prop) (c : ChannelStatuses T) : Prop :=
  c.All fun b => ∀ i, b.inner = .interpolationFuture i → Q b.pollTime i

/-- **A round keeps a condition on the interpolations** that a new one meets and a poll keeps. -/
theorem RoundCases.interpolations {Q : Time T → Interpolating T → Prop} {channel : ℕ}
    {o : Option (SourcePollOf T (OutputState T))} (h : RoundCases time channel r s o s')
    (hQ : InterpolationsMeet Q s.channelStatuses)
    (hnew : ∀ steps i x w, Steps.Pushed s.steps steps → steps.LatestStep time i x →
      x.status = .saturated w →
      Q time (Transposer.interpolate w.transposer time w.metadata.lastUpdated.time))
    (hpoll : ∀ t i i', Q t i → pollInterpolation r.fuel r.answers i = .ok (.pending i') →
      Q t i') : InterpolationsMeet Q s'.channelStatuses := by
  cases h with
  | abandon _ _ => exact hQ.vacate ChannelStatuses.abandon_blocked
  | interpolate _ hpushed hlatest hw =>
    refine hQ.occupy rfl ?_
    intro i hi
    cases hi
    exact hnew _ _ _ _ hpushed hlatest hw
  | wait _ _ _ _ =>
    show InterpolationsMeet Q (if _ then _ else _)
    split
    · exact hQ.occupy rfl (by intro i hi; cases hi)
    · exact hQ.occupy rfl (by intro i hi; cases hi)
  | interpolationPending hb hi =>
    refine hQ.occupy rfl ?_
    intro i' hi'
    cases hi'
    exact hpoll _ _ _ (hQ _ _ hb _ rfl) hi
  | interpolationReady _ _ => exact hQ.vacate rfl
  | originalEmitted _ _ _ _ | originalPending _ _ _ _ => exact hQ
  | originalReady _ _ _ _ => exact hQ.vacate rfl
  | repeatWaits _ hreg | repeatPending _ _ _ hreg _ _ =>
    exact hQ.of_eq (ChannelStatuses.blocked_of_registerWaker hreg)
  | repeatReady _ _ _ hreg _ _ => exact hQ.vacate (ChannelStatuses.abandon_registered hreg time)

end NoInputTransposerSource

end Cozal
