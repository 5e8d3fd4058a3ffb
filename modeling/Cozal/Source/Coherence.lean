import Cozal.Source.Panics
import Cozal.Source.Waiters
import Cozal.Source.Waiting
import Cozal.Transposer.Script

namespace Cozal

open Transposer

/-!
# Channels and steps agree

A channel that waits for a step and the step itself live in two structures.  The step is
completed by whoever polls it first, and then the other channels that wait for it wait for a
step that is done: their next poll panics.

* `NoInputTransposerSource.Coherent` — every channel that waits finds its step.
* `NoInputTransposerSource.KeepsCoherent` — the condition on a call under which no channel is
  left behind.
* `NoInputTransposerSource.RoundCases.agrees`, `NoInputTransposerSource.EventsRoundCases.agrees`
  — a round that meets it keeps channels and steps in agreement.
* `channel_coherence` — in a run of such calls channels and steps agree, no poll panics where it
  waits, and a channel that is told to wait for a step that is run again will be woken.
* `channel_coherence_fails` — a run after which they do not, and a poll panics.
-/

variable {T : Type} [Transposer T]

/-! ### What a channel relies on -/

/-- A channel that waits for the last step relies on `original`; one that waits for a step that
    is run again relies on that step. -/
def CallerChannelBlockedReason.Relies (b : CallerChannelBlockedReason T) (s : Steps T)
    (original : Prop) : Prop :=
  match b.inner with
  | .originalStep => original
  | .repeatStep stepId => ∃ x, s.RunsAgain b.pollTime stepId x
  | .interpolationFuture _ => True

namespace CallerChannelBlockedReason

variable {b : CallerChannelBlockedReason T} {s s' : Steps T} {original original' : Prop}

/-- A channel can rely on other steps, when they keep what it waits for. -/
theorem Relies.imp (h : b.Relies s original)
    (hlast : b.inner = .originalStep → original → original')
    (hagain : ∀ n x, b.inner = .repeatStep n → s.RunsAgain b.pollTime n x →
      ∃ y, s'.RunsAgain b.pollTime n y) : b.Relies s' original' := by
  obtain ⟨p, inner⟩ := b
  cases inner with
  | originalStep => exact hlast rfl h
  | repeatStep n =>
    obtain ⟨x, hx⟩ := h
    exact hagain n x rfl hx
  | interpolationFuture i => trivial

/-- The time of a channel that waits for a step is pinned. -/
theorem pinned {c : ChannelStatuses T} {channel : ℕ}
    (hb : c.blockedCallerChannels.get channel = some b)
    (hstep : ∀ i, b.inner ≠ .interpolationFuture i) : b.pollTime ∈ c.getPinnedTimes := by
  refine ChannelStatuses.mem_getPinnedTimes.mpr ⟨channel, b, hb, ?_⟩
  obtain ⟨p, inner⟩ := b
  cases inner with
  | originalStep | repeatStep _ => rfl
  | interpolationFuture i => exact absurd rfl (hstep i)

end CallerChannelBlockedReason

namespace NoInputTransposerSource

/-- Every channel finds the step it waits for. -/
def Agrees (s : NoInputTransposerSource T) : Prop :=
  s.channelStatuses.All fun b => b.Relies s.steps (s.steps.LastRuns b.pollTime)

/-- Every channel finds the step it waits for, or will find it when a poll for `t` goes on. -/
def AgreesSoon (t : Time T) (s : NoInputTransposerSource T) : Prop :=
  s.channelStatuses.All fun b =>
    b.Relies s.steps (s.steps.LastRuns b.pollTime ∨ s.steps.NextIsDue t b.pollTime)

variable {s s' : NoInputTransposerSource T} {time : Time T} {r : Round T} {channel : ℕ}

/-! A change of what the channels wait for. -/

/-- Only the blocked channels matter. -/
theorem Agrees.of_eq {steps : Steps T} {c c' : ChannelStatuses T} (h : Agrees ⟨steps, c⟩)
    (heq : c'.blockedCallerChannels = c.blockedCallerChannels) : Agrees ⟨steps, c'⟩ :=
  ChannelStatuses.All.of_eq h heq

/-- A channel that waits no more needs no step. -/
theorem Agrees.vacate {steps : Steps T} {c c' : ChannelStatuses T} (h : Agrees ⟨steps, c⟩)
    (heq : c'.blockedCallerChannels = c.blockedCallerChannels.remove channel) :
    Agrees ⟨steps, c'⟩ :=
  ChannelStatuses.All.vacate h heq

/-- A channel may start to wait for a step that it can rely on. -/
theorem Agrees.occupy {steps : Steps T} {c c' : ChannelStatuses T} (h : Agrees ⟨steps, c⟩)
    {b : CallerChannelBlockedReason T}
    (heq : c'.blockedCallerChannels = c.blockedCallerChannels.insert channel b)
    (hb : b.Relies steps (steps.LastRuns b.pollTime)) : Agrees ⟨steps, c'⟩ :=
  ChannelStatuses.All.occupy h heq hb

/-- A channel that finds its step now will find it. -/
theorem Agrees.soon (h : Agrees s) (t : Time T) : AgreesSoon t s :=
  ChannelStatuses.All.imp h fun _ _ _ hb => hb.imp (fun _ => Or.inl) fun _ x _ hx => ⟨x, hx⟩

/-- The two structures agree. -/
structure Coherent (s : NoInputTransposerSource T) : Prop where
  originalStep : ∀ channel p,
    s.channelStatuses.blockedCallerChannels.get channel = some ⟨p, .originalStep⟩ →
    ∃ x, s.steps.steps.getLast? = some x ∧ x.isSaturating = true ∧ x.getTime ≤ p
  repeatStep : ∀ channel p stepId,
    s.channelStatuses.blockedCallerChannels.get channel = some ⟨p, .repeatStep stepId⟩ →
    ∃ x, s.steps.getBySequenceNumber stepId = some x ∧ x.isSaturating = true

/-- When every channel finds its step, the two structures agree. -/
theorem Agrees.coherent (h : Agrees s) : Coherent s where
  originalStep := by
    intro channel p hb
    obtain ⟨n, x, hx⟩ := h channel _ hb
    exact ⟨x, by rw [List.getLast?_eq_getElem?, hx.getLast], hx.saturating, hx.le⟩
  repeatStep := by
    intro channel p stepId hb
    obtain ⟨x, hx⟩ := h channel _ hb
    exact ⟨x, hx.get, hx.saturating⟩

/-! ### What leaves a channel behind -/

/-- When the round completes the step, the next one is due both at `t` and at every time at
    which a channel waits. -/
def HandsOver (step : Step T) (r : Round T) (t : Time T) (waits : Time T → Prop) : Prop :=
  ∀ q w, step.poll r.fuel r.answers = .ok q → q.result = .ok .ready →
    q.step.status = .saturated w → ∀ p, waits p →
      ∃ k, w.metadata.getNextScheduledTime = some k ∧ k.time ≤ t ∧ k.time ≤ p

/-- What a round of `poll` must not do: complete the last step while another channel waits for
    it, unless the poll goes on with the next one and that is due for the other channel too;
    complete a step that is run again while another channel waits for it; or be handed out the
    step after the one it starts. -/
structure RoundKeeps (time : Time T) (channel : ℕ) (r : Round T)
    (s : NoInputTransposerSource T) : Prop where
  originalStep :
    s.channelStatuses.blockedCallerChannels.get channel = some ⟨time, .originalStep⟩ →
    ∀ step, s.steps.steps[s.steps.steps.length - 1]? = some step →
      HandsOver step r time fun p => ∃ other, other ≠ channel ∧
        s.channelStatuses.blockedCallerChannels.get other = some ⟨p, .originalStep⟩
  repeatStep : ∀ stepId step q,
    s.channelStatuses.blockedCallerChannels.get channel = some ⟨time, .repeatStep stepId⟩ →
    s.steps.getBySequenceNumber stepId = some step →
    (s.channelStatuses.registerWaker channel stepId).1 = true →
    step.poll r.fuel r.answers = .ok q → q.result = .ok .ready →
    ∀ other p, other ≠ channel →
      s.channelStatuses.blockedCallerChannels.get other ≠ some ⟨p, .repeatStep stepId⟩
  free : s.channelStatuses.blockedCallerChannels.get channel = none →
    ∀ next, ¬ s.steps.HandsOutNext time next

/-- Between two rounds of a poll: only when the channel is free, that is when the round before
    has completed the last step, another channel may have to wait for the next one. -/
def Between (time : Time T) (channel : ℕ) (s : NoInputTransposerSource T) : Prop :=
  Agrees s ∨ s.channelStatuses.blockedCallerChannels.get channel = none ∧ AgreesSoon time s

/-- When every channel finds its step, the rounds may go on from there. -/
theorem between_of_agrees (h : Agrees s) {P : Prop} : Between time channel s ∧ (P → Agrees s) :=
  ⟨Or.inl h, fun _ => h⟩

/-- Between two rounds every channel finds its step or will find it. -/
theorem Between.soon (h : Between time channel s) : AgreesSoon time s := by
  rcases h with h | ⟨-, h⟩
  · exact h.soon time
  · exact h

/-- Between two rounds every channel finds its step when the one that polls is blocked. -/
theorem Between.agrees (h : Between time channel s) {b : CallerChannelBlockedReason T}
    (hb : s.channelStatuses.blockedCallerChannels.get channel = some b) : Agrees s := by
  rcases h with h | ⟨hfree, -⟩
  · exact h
  · rw [hb] at hfree
    cases hfree

/-- What happens to the stack wakers does not matter between two rounds. -/
theorem Between.afterWakerEvents (h : Between time channel s)
    (events : List (ℕ × StackWakerEvent)) : Between time channel (s.afterWakerEvents events) := by
  have heq := afterWakerEvents_blocked s events
  rcases h with h | ⟨hfree, h⟩
  · exact Or.inl (h.of_eq heq)
  · exact Or.inr ⟨by rw [heq, hfree], h.of_eq heq⟩

/-- A poll that finds a saturated step leaves every channel the step it waits for. -/
theorem AgreesSoon.latest (h : AgreesSoon time s) {steps : Steps T} {i : ℕ} {x : Step T}
    {w : WrappedTransposer T} (hpushed : Steps.Pushed s.steps steps)
    (hlatest : steps.LatestStep time i x) (hw : x.status = .saturated w) :
    Agrees ⟨steps, s.channelStatuses⟩ := by
  refine ChannelStatuses.All.imp h fun _ b _ hb => hb.imp ?_ fun n y _ hy => ⟨y, hy.pushed hpushed⟩
  rintro - (⟨n, y, hy⟩ | hnext)
  · rw [hy.pushed hpushed]
    exact ⟨n, y, hy⟩
  · -- a step that is due is the one that is found, but it is unsaturated
    obtain ⟨y, hy, hyu, ht, -⟩ := hnext.pushed hpushed
    obtain ⟨-, rfl⟩ := hlatest.eq_last hy ht
    rw [hw] at hyu
    cases hyu

/-- A poll that finds a step to wait for leaves every other channel the step it waits for. -/
theorem AgreesSoon.before (h : AgreesSoon time s) (hs : s.steps.Sound) {steps steps' : Steps T}
    {i n : ℕ} (hpushed : Steps.Pushed s.steps steps)
    (hcases : steps.BeforeCases s.channelStatuses.getPinnedTimes time (.ok (.saturating i n))
      steps') : Agrees ⟨steps', s.channelStatuses⟩ := by
  have hsteps := hpushed.sound hs
  refine ChannelStatuses.All.imp h fun channel b hb hrelies => hrelies.imp ?_ ?_
  · rintro - (⟨m, x, hx⟩ | hnext)
    · obtain rfl := hx.pushed hpushed
      exact ⟨m, x, hx.before hcases⟩
    · exact (hnext.pushed hpushed).before hsteps hcases
  · intro m x hinner hx
    refine ⟨x, (hx.pushed hpushed).before hsteps ?_ hcases⟩
    exact CallerChannelBlockedReason.pinned hb (by intro i hi; rw [hinner] at hi; cases hi)

/-- A poll of the events that finds a step to poll does too. -/
theorem AgreesSoon.events (h : AgreesSoon time s) (hs : s.steps.Sound) {steps steps' : Steps T}
    {i n : ℕ} (hpushed : Steps.Pushed s.steps steps)
    (hcases : steps.EventsCases s.channelStatuses.getPinnedTimes time (.saturating i n) steps') :
    Agrees ⟨steps', s.channelStatuses⟩ := by
  have hsteps := hpushed.sound hs
  refine ChannelStatuses.All.imp h fun channel b hb hrelies => hrelies.imp ?_ ?_
  · rintro - (⟨m, x, hx⟩ | hnext)
    · obtain rfl := hx.pushed hpushed
      exact ⟨m, x, hx.events hcases⟩
    · exact (hnext.pushed hpushed).events hcases
  · intro m x hinner hx
    refine ⟨x, (hx.pushed hpushed).events hsteps ?_ hcases⟩
    exact CallerChannelBlockedReason.pinned hb (by intro i hi; rw [hinner] at hi; cases hi)

/-- A poll of the events that has nothing to poll leaves every channel the step it waits for. -/
theorem AgreesSoon.eventsReady (h : AgreesSoon time s) (hs : s.steps.Sound) {steps : Steps T}
    {x : Step T} (hpushed : Steps.Pushed s.steps steps)
    (hx : steps.steps[steps.steps.length - 1]? = some x)
    (hdone : time < x.getTime ∨ x.canProduceEvents = false) :
    Agrees ⟨steps, s.channelStatuses⟩ := by
  refine ChannelStatuses.All.imp h fun _ b _ hb => hb.imp ?_ fun n y _ hy => ⟨y, hy.pushed hpushed⟩
  rintro - (⟨n, y, hy⟩ | hnext)
  · obtain rfl := hy.pushed hpushed
    exact ⟨n, y, hy⟩
  · -- a step that is due may still produce events
    obtain ⟨y, hy, hyu, ht, -⟩ := hnext.pushed hpushed
    rw [hx, Option.some.injEq] at hy
    subst hy
    have hsteps := hpushed.sound hs
    have hpos := hsteps.length_pos
    have hlast := hsteps.last _ x hx (by omega)
    simp only [Steps.LastStep, hyu] at hlast
    rcases hdone with hlt | hcan
    · exact absurd ht (not_le.mpr hlt)
    · rw [hlast.1] at hcan
      cases hcan

/-- A poll of a step leaves every channel the step it waits for, unless it completes it. -/
theorem Agrees.poll (h : Agrees s) {i : ℕ} {step : Step T} {q : StepPolled T}
    {result : StepPoll T} (hstep : s.steps.steps[i]? = some step)
    (hq : step.poll r.fuel r.answers = .ok q) (hr : q.result = .ok result)
    (hne : result ≠ .ready) : Agrees { s with steps := s.steps.setStep i q.step } := by
  refine ChannelStatuses.All.imp h fun _ b _ hb => hb.imp ?_ ?_
  · rintro - ⟨n, x, hx⟩
    exact ⟨n, hx.poll hstep hq hr fun hready => absurd hready hne⟩
  · intro n x _ hx
    exact hx.poll hstep hq hr fun hready => absurd hready hne

/-- A poll that completes the last step leaves every channel that still waits a step, when it
    hands over to the next one. -/
theorem Agrees.complete (h : Agrees s) {c : ChannelStatuses T}
    (hsub : ∀ channel b, c.blockedCallerChannels.get channel = some b →
      s.channelStatuses.blockedCallerChannels.get channel = some b)
    {step : Step T} {q : StepPolled T}
    (hstep : s.steps.steps[s.steps.steps.length - 1]? = some step)
    (hq : step.poll r.fuel r.answers = .ok q) (hr : q.result = .ok .ready)
    (hnext : HandsOver step r time fun p =>
      ∃ channel, c.blockedCallerChannels.get channel = some ⟨p, .originalStep⟩) :
    AgreesSoon time ⟨s.steps.setStep (s.steps.steps.length - 1) q.step, c⟩ := by
  intro channel b hb
  obtain ⟨w, hw⟩ := Steps.completed hq hr
  refine (h channel b (hsub channel b hb)).imp ?_ ?_
  · intro hinner _
    obtain ⟨p, inner⟩ := b
    obtain rfl : inner = .originalStep := hinner
    -- a channel that waits for the original step waits for the one that is pushed next
    obtain ⟨k, hk, ht, hp⟩ := hnext q w hq hr hw p ⟨channel, hb⟩
    refine Or.inr ⟨q.step, w, k, ?_, hw, hk, ht, hp⟩
    rw [List.getLast?_eq_getElem?, Steps.length_setStep]
    exact Steps.getElem?_setStep_self hstep _
  · intro n x _ hx
    refine hx.poll hstep hq hr ?_
    -- a step that is run again is not the one that has completed: that was the last one
    have hlast := hx.not_last
    intro _ hn
    omega

/-- A poll that completes a step which is run again leaves the channels that wait for another
    step that step. -/
theorem Agrees.completeAgain (h : Agrees s) {c : ChannelStatuses T}
    (hsub : ∀ channel b, c.blockedCallerChannels.get channel = some b →
      s.channelStatuses.blockedCallerChannels.get channel = some b)
    {i : ℕ} {x step : Step T} {q : StepPolled T} (hstep : s.steps.steps[i]? = some step)
    (hown : s.steps.RunsAgain time (s.steps.numDeletedSteps + i) x)
    (hq : step.poll r.fuel r.answers = .ok q) (hr : q.result = .ok .ready)
    (halone : ∀ channel p, c.blockedCallerChannels.get channel ≠
      some ⟨p, .repeatStep (s.steps.numDeletedSteps + i)⟩) :
    Agrees ⟨s.steps.setStep i q.step, c⟩ := by
  intro channel b hb
  have hlast := hown.not_last
  refine (h channel b (hsub channel b hb)).imp ?_ ?_
  · rintro - ⟨n, y, hy⟩
    have hn := hy.last
    exact ⟨n, hy.poll hstep hq hr fun _ heq => by omega⟩
  · intro n y hinner hy
    refine hy.poll hstep hq hr ?_
    rintro - rfl
    obtain ⟨p, inner⟩ := b
    obtain rfl : inner = .repeatStep _ := hinner
    exact halone channel p hb

/-- What a channel that was free waits for. -/
theorem relies_found {steps steps' : Steps T} {pinnedTimes : List (Time T)} {i n : ℕ}
    {step : Step T} (hs : s.steps.Sound) (hpushed : Steps.Pushed s.steps steps)
    (hcases : steps.BeforeCases pinnedTimes time (.ok (.saturating i n)) steps')
    (hstep : steps'.steps[i]? = some step) (hfree : ∀ next, ¬ s.steps.HandsOutNext time next) :
    (step.canProduceEvents = true → steps'.LastRuns time) ∧
      (step.canProduceEvents = false → ∃ x, steps'.RunsAgain time n x) := by
  have hsteps := hpushed.sound hs
  have hsteps' := Steps.sound_of_moves hcases.moves hsteps
  rcases hcases.finds hsteps hstep with ⟨rfl, hlatest, hsat⟩ | hnext
  · refine ⟨?_, ?_⟩
    · intro hcan
      have hlast := hsteps'.eq_last_of_canProduce hstep hcan
      refine ⟨_, step, Steps.runsLast_of_getLast ?_ hsat hlatest.le⟩
      rw [show steps'.steps.length - 1 = i by omega]
      exact hstep
    · intro hcan
      have hi := (List.getElem?_eq_some_iff.mp hstep).1
      refine ⟨step, Steps.runsAgain_of_latest hlatest hsat ?_⟩
      -- the last step may still produce events while it is saturating
      by_contra hge
      have hlast := hsteps'.last i step hstep (by omega)
      obtain ⟨f, a, ch, hst⟩ := Step.isSaturating_iff.mp hsat
      simp only [Steps.LastStep, hst, hcan] at hlast
      exact absurd hlast.1 Bool.false_ne_true
  · exact absurd (hnext.of_pushed hpushed) (hfree step)

/-- **A round of `poll` keeps channels and steps in agreement.** -/
theorem RoundCases.agrees {o : Option (SourcePollOf T (OutputState T))}
    (h : RoundCases time channel r s o s') (hs : s.steps.Sound)
    (hbetween : Between time channel s) (hkeeps : RoundKeeps time channel r s) :
    Between time channel s' ∧ (o ≠ none → Agrees s') := by
  have hsoon := hbetween.soon
  cases h with
  | abandon hb _ =>
    exact between_of_agrees ((hbetween.agrees hb).vacate ChannelStatuses.abandon_blocked)
  | interpolate _ hpushed hlatest hw =>
    exact between_of_agrees ((hsoon.latest hpushed hlatest hw).occupy rfl (by trivial))
  | wait hfree hpushed hcases hstep =>
    have hagrees := hsoon.before hs hpushed hcases
    obtain ⟨hlast, hagain⟩ := relies_found hs hpushed hcases hstep (hkeeps.free hfree)
    refine between_of_agrees ?_
    split
    · rename_i hcan
      exact hagrees.occupy rfl (hlast hcan)
    · rename_i hcan
      exact hagrees.occupy rfl (hagain (Bool.not_eq_true _ ▸ hcan))
  | interpolationPending hb _ =>
    exact between_of_agrees ((hbetween.agrees hb).occupy rfl (by trivial))
  | interpolationReady hb _ => exact between_of_agrees ((hbetween.agrees hb).vacate rfl)
  | originalEmitted hb hstep hp hr =>
    exact between_of_agrees ((hbetween.agrees hb).poll hstep hp hr (by intro h; cases h))
  | originalPending hb hstep hp hr =>
    exact between_of_agrees ((hbetween.agrees hb).poll hstep hp hr (by intro h; cases h))
  | originalReady hb hstep hp hr =>
    -- the channel is free now, and the others wait for the next step
    refine ⟨Or.inr ⟨by simp [ChannelStatuses.vacate], ?_⟩, by simp⟩
    refine (hbetween.agrees hb).complete ?_ hstep hp hr ?_
    · intro other b hother
      exact (OrdMap.get_remove_eq_some.mp hother).2
    · rintro q w hq hready hw p ⟨other, hother⟩
      exact hkeeps.originalStep hb _ hstep q w hq hready hw p
        ⟨other, OrdMap.get_remove_eq_some.mp hother⟩
  | repeatWaits hb hreg =>
    have heq := ChannelStatuses.blocked_of_registerWaker hreg
    exact between_of_agrees ((hbetween.agrees hb).of_eq heq)
  | repeatPending hb _ hstep hreg hp hr =>
    exact between_of_agrees (((hbetween.agrees hb).poll hstep hp hr (by intro h; cases h)).of_eq
      (ChannelStatuses.blocked_of_registerWaker hreg))
  | @repeatReady stepId i step p statuses hb hi hstep hreg hp hr =>
    subst hi
    obtain ⟨x, hx⟩ := (hbetween.agrees hb) channel _ hb
    have hblocked : ∀ other b, (statuses.abandon channel (.repeatStepFuture time
        (s.steps.numDeletedSteps + i))).blockedCallerChannels.get other = some b →
        other ≠ channel ∧ s.channelStatuses.blockedCallerChannels.get other = some b := by
      intro other b hother
      rw [← ChannelStatuses.blocked_of_registerWaker hreg]
      simpa only [ChannelStatuses.abandon, ChannelStatuses.vacate,
        ChannelStatuses.releaseRepeatStep_blocked, OrdMap.get_remove_eq_some] using hother
    refine between_of_agrees ((hbetween.agrees hb).completeAgain
      (fun other b h => (hblocked other b h).2) hstep hx hp hr ?_)
    intro other t hother
    obtain ⟨hne, hget⟩ := hblocked other _ hother
    exact hkeeps.repeatStep _ step p hb ((s.steps.getBySequenceNumber_add i).trans hstep)
      (by rw [hreg]) hp hr other t hne hget

/-! ### A channel that is told to wait -/

/-- If the channel waits for a step that is run again, its waker is on the stack waker of the
    step; and when that has been woken or dropped, the next channel that polls, polls the
    step. -/
def Registered (s : NoInputTransposerSource T) (channel : ℕ) : Prop :=
  ∀ p stepId,
    s.channelStatuses.blockedCallerChannels.get channel = some ⟨p, .repeatStep stepId⟩ →
    (∃ n wakers, s.channelStatuses.blockedRepeatStepWakers.get stepId = some (n, some wakers) ∧
      channel ∈ wakers) ∧
    ∀ e other, ((s.channelStatuses.wakerEvent (stepId, e)).registerWaker other stepId).1 = true

/-- A channel that registers for the step it waits for is registered. -/
theorem registered_of_registerWaker {steps : Steps T} {c : ChannelStatuses T} {stepId : ℕ}
    {polls : Bool} (hs : s.channelStatuses.CountsWaiters)
    (hb : s.channelStatuses.blockedCallerChannels.get channel = some ⟨time, .repeatStep stepId⟩)
    (hreg : s.channelStatuses.registerWaker channel stepId = (polls, c)) :
    Registered ⟨steps, c⟩ channel := by
  intro p stepId' hb'
  rw [ChannelStatuses.blocked_of_registerWaker hreg, hb] at hb'
  cases hb'
  obtain ⟨n, weak, hget⟩ := hs.exists_wakers ⟨time, hb⟩
  obtain ⟨wakers, hget', hmem⟩ := ChannelStatuses.mem_of_registerWaker hget hreg
  exact ⟨⟨n, wakers, hget', hmem⟩, ChannelStatuses.registerWaker_after hget'⟩

/-- **A channel that is told to wait will be woken**, and then its step is polled. -/
theorem RoundCases.registered
    (h : RoundCases time channel r s (some .pending) s')
    (hs : s.channelStatuses.CountsWaiters) : Registered s' channel := by
  cases h with
  | interpolationPending hb hi =>
    intro p stepId hb'
    simp [ChannelStatuses.occupy] at hb'
  | originalPending hb _ _ _ =>
    intro p stepId hb'
    rw [show _ = some _ from hb] at hb'
    cases hb'
  | repeatWaits hb hreg => exact registered_of_registerWaker hs hb hreg
  | repeatPending hb _ _ hreg _ _ => exact registered_of_registerWaker hs hb hreg

/-! ### The invariant -/

/-- The invariant of a run, with what holds of the channels and the steps together. -/
structure Settled (s : NoInputTransposerSource T) (together : Prop) : Prop where
  sound : s.steps.Sound
  counts : s.channelStatuses.CountsWaiters
  together : together

/-- The invariant carries over to what follows from its second part. -/
theorem Settled.imp {P Q : Prop} (h : Settled s P) (himp : P → Q) : Settled s Q :=
  ⟨h.sound, h.counts, himp h.together⟩

/-- The invariant is kept when something happens to the stack wakers. -/
theorem Settled.afterWakerEvents (h : Settled s (Between time channel s))
    (events : List (ℕ × StackWakerEvent)) :
    Settled (s.afterWakerEvents events) (Between time channel (s.afterWakerEvents events)) :=
  ⟨h.sound, h.counts.wakerEvents events, h.together.afterWakerEvents events⟩

/-- A poll of a step that runs is not refused. -/
theorem poll_result_avoids {x : Step T} (hsat : x.isSaturating = true) {q : StepPolled T}
    (hq : x.poll r.fuel r.answers = .ok q) :
    (Outcome.expect .stepPoll q.result).Avoids Panic.atWait := by
  obtain ⟨f, a, ch, hst⟩ := Step.isSaturating_iff.mp hsat
  obtain ⟨-, -, -, hcases⟩ := Step.poll_run hst hq
  obtain ⟨result, hr⟩ : ∃ result, q.result = .ok result := by
    rcases hcases with ⟨w, g, hr, -⟩ | ⟨g, a', ch', -, -, -, ⟨hr, -⟩ | ⟨e, hr, -⟩⟩
    · exact ⟨_, hr⟩
    · exact ⟨_, hr⟩
    · exact ⟨_, hr⟩
  rw [hr]
  exact .ok _

section Build

variable [BuildProfile]

/-- What a round of `poll_events` must not do: complete the last step while a channel waits for
    it, unless the poll goes on with the next one and that is due for the channel too. -/
def EventsRoundKeeps (time : Time T) (pinnedTimes : List (Time T)) (r : Round T)
    (s : NoInputTransposerSource T) : Prop :=
  ∀ i n steps step, s.steps.getBeforeOrAtEvents time pinnedTimes = .ok (.saturating i n, steps) →
    steps.steps[i]? = some step → HandsOver step r time fun p =>
      ∃ channel, s.channelStatuses.blockedCallerChannels.get channel = some ⟨p, .originalStep⟩

/-- **A round of `poll_events` keeps channels and steps in agreement.** -/
theorem EventsRoundCases.agrees {o : Option (SourcePollOf T Unit)}
    (h : EventsRoundCases time s.channelStatuses.getPinnedTimes r s o s') (hs : s.steps.Sound)
    (hsoon : AgreesSoon time s)
    (hkeeps : EventsRoundKeeps time s.channelStatuses.getPinnedTimes r s) :
    AgreesSoon time s' ∧ (o ≠ none → Agrees s') := by
  cases h with
  | ready hpushed hx hdone =>
    have hagrees := hsoon.eventsReady hs hpushed hx hdone
    exact ⟨hagrees.soon time, fun _ => hagrees⟩
  | emitted hpushed hcases hstep hp hr =>
    have hagrees := (hsoon.events hs hpushed hcases).poll hstep hp hr (by intro h; cases h)
    exact ⟨hagrees.soon time, fun _ => hagrees⟩
  | pending hpushed hcases hstep hp hr =>
    have hagrees := (hsoon.events hs hpushed hcases).poll hstep hp hr (by intro h; cases h)
    exact ⟨hagrees.soon time, fun _ => hagrees⟩
  | completed hlookup hpushed hcases hstep hp hr =>
    refine ⟨?_, by simp⟩
    obtain ⟨rfl, -⟩ := hcases.last
    exact (hsoon.events hs hpushed hcases).complete (fun _ _ h => h) hstep hp hr
      (hkeeps _ _ _ _ hlookup hstep)

/-! ### Runs -/

/-- **No channel is left behind.**  The rounds of the polls keep to the above; and `advance` does
    not forget a step that a channel waits for. -/
def KeepsCoherent (s : NoInputTransposerSource T) : Call T → Prop
  | .poll time channel rounds => Outcome.AllRounds (pollRound time channel)
      (fun r s => RoundKeeps time channel r (s.afterWakerEvents r.wakerEvents)) rounds s
  | .pollEvents time rounds =>
      Outcome.AllRounds (pollEventsRound time s.channelStatuses.getPinnedTimes)
        (EventsRoundKeeps time s.channelStatuses.getPinnedTimes) rounds s
  | .releaseChannel _ => True
  | .advance time => (∃ d, s.steps.deletedBefore = some d ∧ time ≤ d) ∨
      ∀ n, s.steps.getNotUnsaturatedBeforeOrAtTime time = .ok n → ∀ channel p stepId,
        s.channelStatuses.blockedCallerChannels.get channel = some ⟨p, .repeatStep stepId⟩ →
        n ≤ stepId

/-- A round of `poll` keeps the invariant, and when it returns every channel finds its step. -/
theorem Settled.round (h : Settled s (Between time channel s))
    (hkeeps : RoundKeeps time channel r (s.afterWakerEvents r.wakerEvents))
    {o : Option (SourcePollOf T (OutputState T))} (hr : pollRound time channel r s = .ok (o, s')) :
    Settled s' (Between time channel s' ∧ (o ≠ none → Agrees s')) := by
  have hcases := pollRound_cases h.sound hr
  have hwoken := h.afterWakerEvents r.wakerEvents
  exact ⟨pollRound_sound h.sound hr, hcases.countsWaiters hwoken.counts,
    hcases.agrees hwoken.sound hwoken.together hkeeps⟩

/-- A round of `poll_events` keeps the invariant, and when it returns every channel finds its step.
    -/
theorem Settled.eventsRound (h : Settled s (AgreesSoon time s))
    (hkeeps : EventsRoundKeeps time s.channelStatuses.getPinnedTimes r s)
    {o : Option (SourcePollOf T Unit)}
    (hr : pollEventsRound time s.channelStatuses.getPinnedTimes r s = .ok (o, s')) :
    Settled s' (AgreesSoon time s' ∧ (o ≠ none → Agrees s')) := by
  have hcases := pollEventsRound_cases h.sound hr
  exact ⟨pollEventsRound_sound h.sound hr, hcases.channelStatuses ▸ h.counts,
    hcases.agrees h.sound h.together hkeeps⟩

/-- **A call that keeps to the above keeps channels and steps in agreement.** -/
theorem Settled.call (h : Settled s (Agrees s)) {c : Call T} {reply : Reply T}
    (hkeeps : KeepsCoherent s c) (hc : s.call c = .ok (reply, s')) : Settled s' (Agrees s') := by
  cases call_cases hc with
  | poll time channel rounds hp =>
    obtain ⟨r, u, hu, hmeets, hr⟩ := Outcome.loop_ok
      (P := fun u => Settled u (Between time channel u)) hp hkeeps (h.imp Or.inl)
      (fun r u u' hu hmeets hr => (hu.round hmeets hr).imp And.left)
    exact (hu.round hmeets hr).imp fun hround => hround.2 (by simp)
  | pollEvents time rounds hp =>
    -- the pinned times of the first round are used in all of them: no round changes the channels
    have hnext : ∀ r u u', Settled u (AgreesSoon time u) ∧ u.channelStatuses = s.channelStatuses →
        EventsRoundKeeps time s.channelStatuses.getPinnedTimes r u →
        pollEventsRound time s.channelStatuses.getPinnedTimes r u = .ok (none, u') →
        Settled u' (AgreesSoon time u') ∧ u'.channelStatuses = s.channelStatuses := by
      rintro r u u' ⟨hu, heq⟩ hmeets hr
      rw [← heq] at hmeets hr
      refine ⟨(hu.eventsRound hmeets hr).imp And.left, ?_⟩
      rw [(pollEventsRound_cases hu.sound hr).channelStatuses, heq]
    obtain ⟨r, u, ⟨hu, heq⟩, hmeets, hr⟩ := Outcome.loop_ok hp hkeeps
      ⟨h.imp fun hagrees => hagrees.soon time, rfl⟩ hnext
    rw [← heq] at hmeets hr
    exact (hu.eventsRound hmeets hr).imp fun hround => hround.2 (by simp)
  | releaseFree _ => exact h
  | release hb =>
    exact ⟨h.sound, h.counts.abandon hb, h.together.vacate ChannelStatuses.abandon_blocked⟩
  | @advance time q steps hq =>
    refine ⟨call_sound h.sound hc, h.counts, ?_⟩
    rcases Steps.deleteBefore_cases h.sound hq with
      ⟨-, rfl⟩ | ⟨hlt, i, x, hx, -, rfl, hn, -⟩
    · exact h.together
    · refine ChannelStatuses.All.imp h.together fun channel b hb hrelies => hrelies.imp ?_ ?_
      · rintro - ⟨n, y, hy⟩
        exact ⟨n, y, hy.forget time (List.getElem?_eq_some_iff.mp hx).1⟩
      -- the step a channel waits for is not forgotten, as the call keeps to it
      · intro n y hinner hy
        refine ⟨y, hy.forget time ?_⟩
        obtain ⟨p, inner⟩ := b
        obtain rfl : inner = .repeatStep n := hinner
        rcases hkeeps with ⟨d, hd, hle⟩ | hkeeps
        · exact absurd hle (not_le.mpr (hlt d hd))
        · exact hkeeps _ hn channel p n hb

/-- A channel that is alone leaves no other one behind; before the first `advance` nothing else
    goes wrong on it. -/
theorem keepsCoherent_alone (hs : s.steps.Sound)
    (halone : ∀ other b, s.channelStatuses.blockedCallerChannels.get other = some b →
      other = channel) (hd : s.steps.deletedBefore = none) (rounds : List (Round T)) :
    KeepsCoherent s (.poll time channel rounds) := by
  refine Outcome.AllRounds.of_invariant (P := fun u => u.steps.Sound ∧
    (∀ other b, u.channelStatuses.blockedCallerChannels.get other = some b → other = channel) ∧
      u.steps.deletedBefore = none) ?_ ?_ rounds ⟨hs, halone, hd⟩
  · rintro r u ⟨-, halone, hd⟩
    have heq := afterWakerEvents_blocked u r.wakerEvents
    refine ⟨?_, ?_, ?_⟩
    · rintro - step - q w - - - p ⟨other, hne, hother⟩
      exact absurd (halone other _ (by rw [← heq]; exact hother)) hne
    · rintro stepId step q - - - - - other p hne hother
      exact absurd (halone other _ (by rw [← heq]; exact hother)) hne
    · rintro - next ⟨_, _, _, d, -, -, hd', -⟩
      have hd' : u.steps.deletedBefore = some d := hd'
      rw [hd] at hd'
      cases hd'
  · rintro r u u' ⟨hu, halone, hd⟩ hr
    have hcases := pollRound_cases hu hr
    refine ⟨pollRound_sound hu hr, ?_, hcases.deletedBefore.trans hd⟩
    intro other b hb
    by_contra hne
    rw [hcases.others other hne] at hb
    have heq := afterWakerEvents_blocked u r.wakerEvents
    exact hne (halone other b (by rw [← heq]; exact hb))

/-- Channels and steps agree after every run of such calls. -/
theorem ReachableBy.settled {transposer : T} {startTime : Time T} {rngSeed : Seed T}
    {history : List (Call T × Reply T)}
    (h : ReachableBy KeepsCoherent transposer startTime rngSeed history s) :
    Settled s (Agrees s) := by
  induction h with
  | new => exact ⟨.new transposer startTime rngSeed, .new, .new⟩
  | call c _ hkeeps hc ih => exact ih.call hkeeps hc

/-! ### The next poll -/

/-- **A round of `poll` does not panic where it waits.** -/
theorem Settled.pollRound_avoids (h : Settled s (Between time channel s)) (r : Round T) :
    (pollRound time channel r s).Avoids Panic.atWait := by
  obtain ⟨u, hu⟩ : ∃ u, s.afterWakerEvents r.wakerEvents = u := ⟨_, rfl⟩
  have hwoken := h.afterWakerEvents r.wakerEvents
  rw [hu] at hwoken
  refine NoInputTransposerSource.pollRound_avoids Panic.atWait.not_inRound hu
    (hwoken.counts.getChannelStatus_avoids channel) (u.steps.getBeforeOrAt_avoids r.fuel time _)
    ?_ ?_
  · intro p hb step q hstep hq
    obtain ⟨n, x, hx⟩ := hwoken.together.agrees hb channel _ hb
    rw [Steps.getLast_ok, List.getLast?_eq_getElem?, hx.getLast, Option.some.injEq] at hstep
    subst hstep
    exact poll_result_avoids hx.saturating hq
  · intro p stepId hb
    obtain ⟨x, hx⟩ := hwoken.together.agrees hb channel _ hb
    rw [hx.get, Outcome.unwrap_some]
    refine ⟨.ok _, ?_⟩
    intro step q hstep hq
    obtain rfl := Option.some.inj hstep
    exact poll_result_avoids hx.saturating hq

/-- **A round of `poll_events` does not panic where it waits**, whatever the channels do. -/
theorem pollEventsRound_avoids_wait (hs : s.steps.Sound) (time : Time T)
    (pinnedTimes : List (Time T)) (r : Round T) :
    (pollEventsRound time pinnedTimes r s).Avoids Panic.atWait := by
  refine pollEventsRound_avoids Panic.atWait.not_inRound
    (s.steps.getBeforeOrAtEvents_avoids time pinnedTimes) ?_
  intro i n steps step q hfound hstep hq
  obtain ⟨s₁, -, -, hcases⟩ := Steps.getBeforeOrAtEvents_cases hs hfound
  obtain ⟨-, x, hx, hsat, -⟩ := hcases.last
  rw [hx, Option.some.injEq] at hstep
  subst hstep
  exact poll_result_avoids hsat hq

/-- **A call does not panic where it waits** when it keeps channels and steps in agreement. -/
theorem Settled.call_avoids (h : Settled s (Agrees s)) {c : Call T} (hkeeps : KeepsCoherent s c) :
    (s.call c).Avoids Panic.atWait := by
  cases c with
  | poll time channel rounds =>
    refine Outcome.Avoids.bind ?_ fun _ _ => .ok _
    exact Outcome.Avoids.loop (P := fun u => Settled u (Between time channel u)) hkeeps
      (h.imp Or.inl) (fun r u u' hu hmeets hr => (hu.round hmeets hr).imp And.left)
      (fun r u hu _ => hu.pollRound_avoids r)
  | pollEvents time rounds =>
    refine Outcome.Avoids.bind ?_ fun _ _ => .ok _
    exact Outcome.Avoids.loop (P := fun u => u.steps.Sound) (.of_forall (fun _ _ => trivial) _ _)
      h.sound (fun r u u' hu _ hr => pollEventsRound_sound hu hr)
      (fun r u hu _ => pollEventsRound_avoids_wait hu time _ r)
  | releaseChannel channel =>
    refine Outcome.Avoids.bind ?_ fun _ _ => .ok _
    exact (h.counts.getChannelStatus_avoids channel).bind fun _ _ => .ok _
  | advance time =>
    refine Outcome.Avoids.bind ?_ fun _ _ => .ok _
    exact (s.steps.deleteBefore_avoids time).bind fun _ _ => .ok _

/-- A poll that is told to wait has registered for its step. -/
theorem Settled.poll_registered (h : Settled s (Agrees s)) {rounds : List (Round T)}
    (hkeeps : KeepsCoherent s (.poll time channel rounds))
    (hp : s.poll time channel rounds = .ok (.pending, s')) : Registered s' channel := by
  obtain ⟨r, u, hu, -, hr⟩ := Outcome.loop_ok
    (P := fun u => Settled u (Between time channel u)) hp hkeeps (h.imp Or.inl)
    (fun r u u' hu hmeets hr => (hu.round hmeets hr).imp And.left)
  exact (pollRound_cases hu.sound hr).registered (hu.afterWakerEvents r.wakerEvents).counts

end Build

end NoInputTransposerSource

open NoInputTransposerSource in
/-- **Channels and steps agree.**  In a run of calls that leave no channel behind, every channel
    that waits for the last step finds it saturating and not later than its time, and every
    channel that waits for a step that is run again finds that step saturating.  The next such
    call does not panic where it waits; and a poll that is told to wait has registered for the
    step, which is polled when it is woken. -/
theorem channel_coherence [BuildProfile] {transposer : T} {startTime : Time T} {rngSeed : Seed T}
    {history : List (Call T × Reply T)} {s : NoInputTransposerSource T}
    (h : ReachableBy KeepsCoherent transposer startTime rngSeed history s) :
    Coherent s ∧ ∀ c, KeepsCoherent s c →
      (∀ site, site.atWait → s.call c ≠ .panic site) ∧
      ∀ time channel rounds s', c = .poll time channel rounds →
        s.poll time channel rounds = .ok (.pending, s') → Registered s' channel := by
  have hsettled := h.settled
  refine ⟨hsettled.together.coherent, ?_⟩
  intro c hkeeps
  refine ⟨hsettled.call_avoids hkeeps, ?_⟩
  rintro time channel rounds s' rfl hp
  exact hsettled.poll_registered hkeeps hp

open NoInputTransposerSource in
/-- A channel that waits at 10 is still there when a poll of the events completes the step at 0
    and goes on with the one at 10. -/
theorem channel_coherence_script :
    ∃ s : NoInputTransposerSource Script, Coherent s ∧
      s.channelStatuses.blockedCallerChannels.get 1 = some ⟨(10 : ℕ), .originalStep⟩ := by
  let _ : BuildProfile := debugBuild
  let round : Round Script := ⟨[], 30, []⟩
  have hnew := @ReachableBy.new Script _ _ KeepsCoherent
    ⟨[.emit 5, .schedule 10], [.emit 7, .emit 8], [], 0⟩ (0 : ℕ) ()
  have hfirst := hnew.call (.poll (10 : ℕ) 1 [round, round])
    (keepsCoherent_alone hnew.sound (by intro other b hb; cases hb) rfl _) rfl
  have hevents := hfirst.call (.pollEvents (10 : ℕ) [round, round]) ?_ rfl
  exact ⟨_, (channel_coherence hevents).1, rfl⟩
  refine ⟨?_, ?_⟩
  · -- the step at 0 completes, and the next one is due at 10 for the poll and for the channel
    rintro i n steps step hlookup hstep q w hq - hw p ⟨channel, hb⟩
    have hwaits : (channel, ⟨p, .originalStep⟩) ∈
        [((1 : ℕ), (⟨(10 : ℕ), .originalStep⟩ : CallerChannelBlockedReason Script))] :=
      OrdMap.mem_entries.mpr hb
    cases hlookup
    cases hstep
    cases hq
    cases hw
    cases List.mem_singleton.mp hwaits
    exact ⟨_, rfl, Nat.le_refl 10, Nat.le_refl 10⟩
  · intro s' hs'
    cases hs'
    refine ⟨?_, by intro s'' hs''; cases hs''⟩
    -- the step at 10 emits
    intro i n steps step hlookup hstep q w hq hr
    cases hlookup
    cases hstep
    cases hq
    cases hr

open NoInputTransposerSource in
/-- A channel gets the event of the step at 0 and still waits for it.  A poll of the events at 0
    completes that step, and the next one is at 10.  When the channel asks again, its poll
    panics. -/
theorem channel_coherence_fails :
    ∃ (_ : BuildProfile) (history : List (Call Script × Reply Script))
      (s : NoInputTransposerSource Script),
      Reachable ⟨[.emit 5, .schedule 10], [], [], 0⟩ (0 : ℕ) () history s ∧ ¬ Coherent s ∧
      ∃ rounds, s.poll (0 : ℕ) 1 rounds = .panic .stepPoll := by
  let _ : BuildProfile := debugBuild
  let round : Round Script := ⟨[], 30, []⟩
  have hnew := @ReachableBy.new Script _ _ (fun _ _ => True) ⟨[.emit 5, .schedule 10], [], [], 0⟩
    (0 : ℕ) ()
  have hfirst := hnew.call (.poll (0 : ℕ) 1 [round, round]) trivial rfl
  have hevents := hfirst.call (.pollEvents (0 : ℕ) [round, round]) trivial rfl
  refine ⟨inferInstance, _, _, hevents, ?_, [round], rfl⟩
  intro hcoherent
  obtain ⟨x, hx, hsat, -⟩ := hcoherent.originalStep 1 (0 : ℕ) rfl
  cases hx
  cases hsat

end Cozal
