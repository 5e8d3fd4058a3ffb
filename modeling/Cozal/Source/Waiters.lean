import Cozal.Source.Panics
import Cozal.Source.Rounds
import Mathlib.Data.Finset.Card

namespace Cozal

open Transposer

/-!
# How many channels wait for a step

For every step that is run again the source counts the channels that wait for it, and drops the
stack waker of the step with the last of them.

* `ChannelStatuses.CountsWaiters` — the counts are right; so a channel that waits for a step
  finds the entry of the step.
* `ChannelStatuses.mem_of_registerWaker`, `ChannelStatuses.registerWaker_after` — a channel that
  registers will be woken, and then the step is polled.
* `NoInputTransposerSource.RoundCases.countsWaiters` — a round of `poll` keeps the counts right.
-/

variable {T : Type} [Transposer T]

namespace ChannelStatuses

variable {c c' : ChannelStatuses T} {channel stepId : ℕ}

/-- The channel waits for the step. -/
def WaitsFor (c : ChannelStatuses T) (channel stepId : ℕ) : Prop :=
  ∃ p, c.blockedCallerChannels.get channel = some ⟨p, .repeatStep stepId⟩

/-- The number of channels that wait for each step is the one in its entry; there is no entry
    when there is no such channel. -/
def CountsWaiters (c : ChannelStatuses T) : Prop :=
  ∀ stepId, ∃ waiters : Finset ℕ, (∀ channel, channel ∈ waiters ↔ c.WaitsFor channel stepId) ∧
    (c.blockedRepeatStepWakers.get stepId).map Prod.fst
      = if waiters.card = 0 then none else some waiters.card

namespace CountsWaiters

/-- At first nobody waits, and there are no entries. -/
theorem new : CountsWaiters (.new : ChannelStatuses T) := by
  intro stepId
  refine ⟨∅, ?_, rfl⟩
  intro channel
  simp only [Finset.notMem_empty, false_iff]
  rintro ⟨p, hp⟩
  cases hp

/-- A channel that waits for a step finds the entry of the step. -/
theorem exists_wakers (h : CountsWaiters c) (hw : c.WaitsFor channel stepId) :
    ∃ n weak, c.blockedRepeatStepWakers.get stepId = some (n, weak) := by
  obtain ⟨waiters, hmem, hcount⟩ := h stepId
  have hne : waiters.card ≠ 0 := Finset.card_ne_zero_of_mem ((hmem channel).mpr hw)
  rw [if_neg hne, Option.map_eq_some_iff] at hcount
  obtain ⟨⟨n, weak⟩, hget, -⟩ := hcount
  exact ⟨n, weak, hget⟩

/-- The status of a channel is found without a panic. -/
theorem getChannelStatus_avoids (h : CountsWaiters c) (channel : ℕ) :
    (c.getChannelStatus channel).Avoids Panic.atWait := by
  unfold getChannelStatus
  split
  · exact .ok _
  · exact .ok _
  · rename_i p stepId hb
    obtain ⟨n, weak, hget⟩ := h.exists_wakers ⟨p, hb⟩
    rw [hget]
    exact .ok _
  · exact .ok _

/-- The counts stay right when neither they nor the channels that wait change. -/
theorem of_eq (h : CountsWaiters c)
    (hw : ∀ channel stepId, c'.WaitsFor channel stepId ↔ c.WaitsFor channel stepId)
    (hcount : ∀ stepId, (c'.blockedRepeatStepWakers.get stepId).map Prod.fst
      = (c.blockedRepeatStepWakers.get stepId).map Prod.fst) : CountsWaiters c' := by
  intro stepId
  obtain ⟨waiters, hmem, hcard⟩ := h stepId
  refine ⟨waiters, ?_, (hcount stepId).trans hcard⟩
  intro channel
  rw [hmem, hw]

/-- Only the entries of the channels matter for who waits. -/
theorem waitsFor_of_eq (heq : c'.blockedCallerChannels = c.blockedCallerChannels)
    (channel stepId : ℕ) : c'.WaitsFor channel stepId ↔ c.WaitsFor channel stepId := by
  unfold WaitsFor
  rw [heq]

/-- A new entry of a channel that waits for no step, before and after. -/
theorem occupy (h : CountsWaiters c) (hfree : ∀ stepId, ¬ c.WaitsFor channel stepId)
    {b : CallerChannelBlockedReason T} (hb : ∀ stepId, b.inner ≠ .repeatStep stepId) :
    CountsWaiters (c.occupy channel b) := by
  refine h.of_eq ?_ (fun _ => rfl)
  intro channel' stepId
  unfold WaitsFor ChannelStatuses.occupy
  simp only [OrdMap.get_insert]
  by_cases hc : channel' = channel
  · subst hc
    rw [if_pos rfl]
    constructor
    · rintro ⟨p, hp⟩
      cases hp
      exact absurd rfl (hb stepId)
    · intro hw
      exact absurd hw (hfree stepId)
  · rw [if_neg hc]

/-- A channel that waits for no step goes. -/
theorem vacate (h : CountsWaiters c) (hfree : ∀ stepId, ¬ c.WaitsFor channel stepId) :
    CountsWaiters (c.vacate channel) := by
  refine h.of_eq ?_ (fun _ => rfl)
  intro channel' stepId
  unfold WaitsFor ChannelStatuses.vacate
  simp only [OrdMap.get_remove_eq_some]
  constructor
  · rintro ⟨p, -, hp⟩
    exact ⟨p, hp⟩
  · rintro ⟨p, hp⟩
    refine ⟨p, ?_, hp⟩
    rintro rfl
    exact hfree stepId ⟨p, hp⟩

/-- A new stack waker leaves the count of its step alone. -/
theorem map_fst_insert {wakers : OrdMap ℕ (ℕ × StackWaker)} {n : ℕ} {weak : StackWaker}
    (hget : wakers.get stepId = some (n, weak)) (weak' : StackWaker) (stepId' : ℕ) :
    ((wakers.insert stepId (n, weak')).get stepId').map Prod.fst
      = (wakers.get stepId').map Prod.fst := by
  rw [OrdMap.get_insert]
  by_cases heq : stepId' = stepId
  · rw [if_pos heq, heq, hget]
    rfl
  · rw [if_neg heq]

/-- To register a waker leaves the counts right. -/
theorem registerWaker (h : CountsWaiters c) (channel stepId : ℕ) :
    CountsWaiters (c.registerWaker channel stepId).2 := by
  refine h.of_eq (waitsFor_of_eq (registerWaker_blocked c channel stepId)) ?_
  intro stepId'
  unfold ChannelStatuses.registerWaker
  split
  · rfl
  · rename_i n weak hget
    exact map_fst_insert hget _ stepId'

/-- What happens to a stack waker leaves the counts right. -/
theorem wakerEvent (h : CountsWaiters c) (e : ℕ × StackWakerEvent) :
    CountsWaiters (c.wakerEvent e) := by
  refine h.of_eq (waitsFor_of_eq (wakerEvent_blocked c e)) ?_
  intro stepId'
  unfold ChannelStatuses.wakerEvent
  split
  · rfl
  · rename_i n weak hget
    exact map_fst_insert hget _ stepId'

/-- What happens to the stack wakers leaves the counts right. -/
theorem wakerEvents (h : CountsWaiters c) (events : List (ℕ × StackWakerEvent)) :
    CountsWaiters (events.foldl ChannelStatuses.wakerEvent c) := by
  induction events generalizing c with
  | nil => exact h
  | cons e events ih => exact ih (h.wakerEvent e)

/-- A free channel starts to wait for a step. -/
theorem startRepeatStep (h : CountsWaiters c)
    (hfree : c.blockedCallerChannels.get channel = none) (stepId : ℕ) (p : Time T) :
    CountsWaiters (c.startRepeatStep channel stepId p) := by
  have hnot : ∀ stepId', ¬ c.WaitsFor channel stepId' := by
    rintro stepId' ⟨p', hp'⟩
    rw [hfree] at hp'
    cases hp'
  have hwaits : ∀ channel' stepId', (c.startRepeatStep channel stepId p).WaitsFor channel' stepId' ↔
      (channel' = channel ∧ stepId' = stepId) ∨ c.WaitsFor channel' stepId' := by
    intro channel' stepId'
    unfold WaitsFor ChannelStatuses.startRepeatStep ChannelStatuses.occupy
    simp only [OrdMap.get_insert]
    by_cases hc : channel' = channel
    · subst hc
      rw [if_pos rfl]
      simp only [Option.some.injEq, CallerChannelBlockedReason.mk.injEq,
        CallerChannelBlockedReasonInner.repeatStep.injEq]
      constructor
      · rintro ⟨p', -, rfl⟩
        exact Or.inl ⟨trivial, rfl⟩
      · rintro (⟨-, rfl⟩ | hw)
        · exact ⟨p, rfl, rfl⟩
        · exact absurd hw (hnot stepId')
    · rw [if_neg hc]
      simp [hc]
  intro stepId'
  obtain ⟨waiters, hmem, hcount⟩ := h stepId'
  by_cases hs : stepId' = stepId
  · -- one more waits for the step
    subst hs
    have hfresh : channel ∉ waiters := fun hmem' => hnot stepId' ((hmem channel).mp hmem')
    refine ⟨insert channel waiters, ?_, ?_⟩
    · intro channel'
      rw [Finset.mem_insert, hmem, hwaits]
      simp
    · rw [Finset.card_insert_of_notMem hfresh, if_neg (by omega)]
      simp only [ChannelStatuses.startRepeatStep, OrdMap.get_insert, if_true, Option.map_some,
        Option.some.injEq]
      split at hcount
      · rename_i hcard
        rw [Option.map_eq_none_iff] at hcount
        rw [hcount, hcard]
      · rw [Option.map_eq_some_iff] at hcount
        obtain ⟨⟨n, weak⟩, hget, hn⟩ := hcount
        rw [hget]
        exact congrArg (· + 1) hn
  -- the same channels wait for every other step
  · refine ⟨waiters, ?_, ?_⟩
    · intro channel'
      rw [hmem, hwaits]
      simp [hs]
    · rw [← hcount]
      simp only [ChannelStatuses.startRepeatStep, OrdMap.get_insert, if_neg hs]

/-- A channel that waits for a step stops to wait. -/
theorem release (h : CountsWaiters c) (hw : c.WaitsFor channel stepId) :
    CountsWaiters ((c.releaseRepeatStep stepId).vacate channel) := by
  have hwaits : ∀ channel' stepId',
      ((c.releaseRepeatStep stepId).vacate channel).WaitsFor channel' stepId' ↔
        channel' ≠ channel ∧ c.WaitsFor channel' stepId' := by
    intro channel' stepId'
    unfold WaitsFor ChannelStatuses.vacate
    simp only [releaseRepeatStep_blocked, OrdMap.get_remove_eq_some, exists_and_left]
  intro stepId'
  obtain ⟨waiters, hmem, hcount⟩ := h stepId'
  refine ⟨waiters.erase channel, ?_, ?_⟩
  · intro channel'
    rw [Finset.mem_erase, hmem, hwaits]
  show ((c.releaseRepeatStep stepId).blockedRepeatStepWakers.get stepId').map Prod.fst = _
  by_cases hs : stepId' = stepId
  · -- one fewer waits for the step, and the last one takes the entry along
    subst hs
    have hmem' : channel ∈ waiters := (hmem channel).mpr hw
    have hpos : waiters.card ≠ 0 := Finset.card_ne_zero_of_mem hmem'
    rw [if_neg hpos, Option.map_eq_some_iff] at hcount
    obtain ⟨⟨n, weak⟩, hget, rfl⟩ := hcount
    rw [Finset.card_erase_of_mem hmem']
    simp only [releaseRepeatStep, hget]
    by_cases hone : waiters.card = 1
    · simp [hone]
    · rw [if_neg hone, if_neg (by omega)]
      simp
  · -- the channel does not wait for the other steps
    have hnot : channel ∉ waiters := by
      rw [hmem]
      rintro ⟨p', hp'⟩
      obtain ⟨p, hp⟩ := hw
      rw [hp] at hp'
      cases hp'
      exact hs rfl
    rw [Finset.erase_eq_of_notMem hnot, ← hcount]
    unfold releaseRepeatStep
    split
    · rfl
    · split
      · simp [hs]
      · simp [hs]

/-- Whatever a channel waits for, the counts stay right when it stops to. -/
theorem abandon (h : CountsWaiters c) {b : CallerChannelBlockedReason T}
    (hb : c.blockedCallerChannels.get channel = some b) :
    CountsWaiters (c.abandon channel b.status) := by
  obtain ⟨p, inner⟩ := b
  have hvacate : (∀ stepId, inner ≠ .repeatStep stepId) → CountsWaiters (c.vacate channel) := by
    intro hne
    refine h.vacate ?_
    rintro stepId ⟨p', hp'⟩
    rw [hb] at hp'
    cases hp'
    exact hne stepId rfl
  cases inner with
  | originalStep => exact hvacate (by intro _ heq; cases heq)
  | interpolationFuture i => exact hvacate (by intro _ heq; cases heq)
  | repeatStep stepId => exact h.release ⟨p, hb⟩

end CountsWaiters

end ChannelStatuses

/-! ### Wakers -/

namespace ChannelStatuses

variable {c c' : ChannelStatuses T} {channel stepId n : ℕ} {weak : StackWaker}

/-- A channel that registers for a step is on the stack waker of the step. -/
theorem mem_of_registerWaker {polls : Bool}
    (hget : c.blockedRepeatStepWakers.get stepId = some (n, weak))
    (h : c.registerWaker channel stepId = (polls, c')) :
    ∃ wakers, c'.blockedRepeatStepWakers.get stepId = some (n, some wakers) ∧
      channel ∈ wakers := by
  simp only [registerWaker, hget, StackWaker.register, Prod.mk.injEq] at h
  obtain ⟨-, rfl⟩ := h
  refine ⟨if channel ∈ weak.getD [] then weak.getD [] else channel :: weak.getD [], ?_, ?_⟩
  · simp only [OrdMap.get_insert, if_true]
  · split
    · assumption
    · exact List.mem_cons_self

/-- When a stack waker has been woken or dropped, the next channel that registers polls the
    step. -/
theorem registerWaker_after (hget : c.blockedRepeatStepWakers.get stepId = some (n, weak))
    (e : StackWakerEvent) (channel : ℕ) :
    ((c.wakerEvent (stepId, e)).registerWaker channel stepId).1 = true := by
  simp only [wakerEvent, hget, registerWaker, OrdMap.get_insert, if_true, StackWaker.register]
  cases e with
  | wake => cases weak <;> rfl
  | drop => rfl

end ChannelStatuses

namespace NoInputTransposerSource

variable {s s' : NoInputTransposerSource T} {time : Time T} {r : Round T} {channel : ℕ}

open ChannelStatuses

/-- A round of `poll` keeps the counts right. -/
theorem RoundCases.countsWaiters {o : Option (SourcePollOf T (OutputState T))}
    (h : RoundCases time channel r s o s') (hs : CountsWaiters s.channelStatuses) :
    CountsWaiters s'.channelStatuses := by
  -- a channel that is free, or waits for something else, waits for no step
  have hnot : ∀ {b : Option (CallerChannelBlockedReason T)},
      s.channelStatuses.blockedCallerChannels.get channel = b →
      (∀ p stepId, b ≠ some ⟨p, .repeatStep stepId⟩) →
      ∀ stepId, ¬ s.channelStatuses.WaitsFor channel stepId := by
    rintro b hb hne stepId ⟨p, hp⟩
    exact hne p stepId (hb.symm.trans hp)
  have hregister : ∀ {stepId polls statuses},
      s.channelStatuses.registerWaker channel stepId = (polls, statuses) →
      CountsWaiters statuses := by
    intro stepId polls statuses hreg
    have hcounts := hs.registerWaker channel stepId
    rwa [hreg] at hcounts
  cases h with
  | abandon hb _ => exact hs.abandon hb
  | interpolate hfree _ _ _ =>
    exact hs.occupy (hnot hfree (by intro _ _ h; cases h)) (by intro _ h; cases h)
  | wait hfree _ _ _ =>
    show CountsWaiters (if _ then _ else _)
    split
    · exact hs.occupy (hnot hfree (by intro _ _ h; cases h)) (by intro _ h; cases h)
    · exact hs.startRepeatStep hfree _ _
  | interpolationPending hb _ =>
    exact hs.occupy (hnot hb (by intro _ _ h; cases h)) (by intro _ h; cases h)
  | interpolationReady hb _ => exact hs.vacate (hnot hb (by intro _ _ h; cases h))
  | originalEmitted _ _ _ _ | originalPending _ _ _ _ => exact hs
  | originalReady hb _ _ _ => exact hs.vacate (hnot hb (by intro _ _ h; cases h))
  | repeatWaits _ hreg | repeatPending _ _ _ hreg _ _ => exact hregister hreg
  | @repeatReady stepId i step p statuses hb _ _ hreg _ _ =>
    have hwaits : statuses.WaitsFor channel stepId :=
      ⟨time, by rw [blocked_of_registerWaker hreg, hb]⟩
    exact (hregister hreg).release hwaits

end NoInputTransposerSource

end Cozal
