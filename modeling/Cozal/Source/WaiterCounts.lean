import Cozal.Source.Waiters
import Cozal.Transposer.Script
import Mathlib.Data.Set.Card

namespace Cozal

open Transposer Outcome

/-!
# The counts are right in every run

A count goes up in one place and down in two, and the last channel that waits for a step takes
the entry of the step along.  Whatever calls are made, on whatever channels and in whatever
order, the counts stay right.

* `ChannelStatuses.CountsWaiters.entry_iff`, `ChannelStatuses.CountsWaiters.encard` — what right
  counts say about the entry of a step.
* `NoInputTransposerSource.call_others` — a call leaves the other channels alone.
* `NoInputTransposerSource.call_counts`, `NoInputTransposerSource.ReachableBy.counts` — a call,
  and so a run, keeps the counts right.
* `NoInputTransposerSource.call_avoids_wakers` — with right counts a call finds the entry it
  unwraps.
-/

variable {T : Type} [Transposer T]

namespace ChannelStatuses.CountsWaiters

variable {c : ChannelStatuses T} {stepId : ℕ}

/-- The set of the channels that wait for a step has the number of elements the counts say. -/
theorem exists_encard (h : CountsWaiters c) (stepId : ℕ) : ∃ n : ℕ,
    {channel | c.WaitsFor channel stepId}.encard = n ∧
    (c.blockedRepeatStepWakers.get stepId).map Prod.fst = if n = 0 then none else some n := by
  obtain ⟨waiters, hmem, hcount⟩ := h stepId
  refine ⟨waiters.card, ?_, hcount⟩
  have hset : {channel | c.WaitsFor channel stepId} = (waiters : Set ℕ) := by
    ext channel
    exact (hmem channel).symm
  rw [hset, Set.encard_coe_eq_coe_finsetCard]

/-- A step has an entry exactly when a channel waits for it. -/
theorem entry_iff (h : CountsWaiters c) (stepId : ℕ) :
    (∃ n weak, c.blockedRepeatStepWakers.get stepId = some (n, weak)) ↔
      ∃ channel, c.WaitsFor channel stepId := by
  constructor
  · rintro ⟨n, weak, hget⟩
    obtain ⟨waiters, hmem, hcount⟩ := h stepId
    rw [hget] at hcount
    -- an entry is not the count of nobody
    have hne : waiters.card ≠ 0 := by
      intro hzero
      rw [if_pos hzero] at hcount
      cases hcount
    obtain ⟨channel, hchannel⟩ := Finset.card_ne_zero.mp hne
    exact ⟨channel, (hmem channel).mp hchannel⟩
  · rintro ⟨channel, hw⟩
    exact h.exists_wakers hw

/-- The count in the entry of a step is the number of the channels that wait for it. -/
theorem encard (h : CountsWaiters c) {n : ℕ} {weak : StackWaker}
    (hget : c.blockedRepeatStepWakers.get stepId = some (n, weak)) :
    {channel | c.WaitsFor channel stepId}.encard = n := by
  obtain ⟨m, hm, hcount⟩ := h.exists_encard stepId
  rw [hget] at hcount
  split at hcount
  · cases hcount
  · rw [hm, ← Option.some.inj hcount]

end ChannelStatuses.CountsWaiters

namespace NoInputTransposerSource

variable {s s' : NoInputTransposerSource T}

open ChannelStatuses

/-- The channel a call is made for. -/
def Call.channel : Call T → Option ℕ
  | .poll _ channel _ => some channel
  | .pollEvents _ _ => none
  | .releaseChannel channel => some channel
  | .advance _ => none

/-! ### The site of the lookup -/

/-- The lookup of an entry is a site at which a poll waits. -/
theorem atWait_of_repeatStepWakers (p : Panic) (h : p = .repeatStepWakers) : p.atWait := by
  subst h
  trivial

/-- The unwrap of the wakers of a step is in the lookup of the status alone. -/
theorem repeatStepWakers_not_inRound {p : Panic} (h : p = .repeatStepWakers) : ¬ p.inRound :=
  (atWait_of_repeatStepWakers p h).not_inRound

section Build

variable [BuildProfile]

/-! ### One call -/

/-- **A call leaves the other channels alone.** -/
theorem call_others (hs : s.steps.Sound) {c : Call T} {reply : Reply T}
    (h : s.call c = .ok (reply, s')) (other : ℕ) (hne : c.channel ≠ some other) :
    s'.channelStatuses.blockedCallerChannels.get other
      = s.channelStatuses.blockedCallerChannels.get other := by
  cases call_cases h with
  | poll time channel rounds hp =>
    have hother : other ≠ channel := fun heq => hne (congrArg some heq.symm)
    -- every round of the loop leaves them alone
    have hround : ∀ {r o} {u u' : NoInputTransposerSource T}, u.steps.Sound →
        pollRound time channel r u = .ok (o, u') →
        u'.channelStatuses.blockedCallerChannels.get other
          = u.channelStatuses.blockedCallerChannels.get other := by
      intro r o u u' hu hr
      rw [(pollRound_cases hu hr).others other hother, afterWakerEvents_blocked]
    obtain ⟨r, u, ⟨hu, heq⟩, -, hr⟩ := Outcome.loop_ok
      (P := fun u => u.steps.Sound ∧ u.channelStatuses.blockedCallerChannels.get other
        = s.channelStatuses.blockedCallerChannels.get other) hp
      (.of_forall (fun _ _ => trivial) _ _) ⟨hs, rfl⟩
      (fun _ _ _ hu _ hr => ⟨pollRound_sound hu.1 hr, (hround hu.1 hr).trans hu.2⟩)
    exact (hround hu hr).trans heq
  | pollEvents time rounds hp =>
    obtain ⟨r, u, ⟨hu, heq⟩, -, hr⟩ := Outcome.loop_ok
      (P := fun u => u.steps.Sound ∧ u.channelStatuses = s.channelStatuses) hp
      (.of_forall (fun _ _ => trivial) _ _) ⟨hs, rfl⟩
      (fun _ _ _ hu _ hr => ⟨pollEventsRound_sound hu.1 hr,
        (pollEventsRound_cases hu.1 hr).channelStatuses.trans hu.2⟩)
    rw [(pollEventsRound_cases hu hr).channelStatuses, heq]
  | releaseFree _ | advance _ => rfl
  | @release channel b hb =>
    have hother : other ≠ channel := fun heq => hne (congrArg some heq.symm)
    show (s.channelStatuses.abandon channel b.status).blockedCallerChannels.get other = _
    rw [abandon_blocked, OrdMap.get_remove, if_neg hother]

/-- A channel that is released is not recorded any more. -/
theorem call_released {channel : ℕ} {reply : Reply T}
    (h : s.call (.releaseChannel channel) = .ok (reply, s')) :
    s'.channelStatuses.blockedCallerChannels.get channel = none := by
  cases call_cases h with
  | releaseFree hfree => exact hfree
  | @release _ b hb =>
    show (s.channelStatuses.abandon channel b.status).blockedCallerChannels.get channel = _
    rw [abandon_blocked, OrdMap.get_remove, if_pos rfl]

/-- The steps are in order and the counts right. -/
def Counted (s : NoInputTransposerSource T) : Prop :=
  s.steps.Sound ∧ s.channelStatuses.CountsWaiters

/-- The counts stay right in a round of `poll`. -/
theorem Counted.pollRound {time : Time T} {channel : ℕ} {r : Round T}
    {o : Option (SourcePollOf T (OutputState T))} (h : Counted s)
    (hr : pollRound time channel r s = .ok (o, s')) : Counted s' :=
  ⟨pollRound_sound h.1 hr,
    (pollRound_cases h.1 hr).countsWaiters (h.2.wakerEvents r.wakerEvents)⟩

/-- The counts stay right in a round of `poll_events`. -/
theorem Counted.pollEventsRound {time : Time T} {pinnedTimes : List (Time T)} {r : Round T}
    {o : Option (SourcePollOf T Unit)} (h : Counted s)
    (hr : pollEventsRound time pinnedTimes r s = .ok (o, s')) : Counted s' := by
  refine ⟨pollEventsRound_sound h.1 hr, ?_⟩
  rw [(pollEventsRound_cases h.1 hr).channelStatuses]
  exact h.2

/-- **A call keeps the counts right.** -/
theorem call_counts {c : Call T} {reply : Reply T} (hs : Counted s)
    (h : s.call c = .ok (reply, s')) : Counted s' := by
  have hsound : s'.steps.Sound := call_sound hs.1 h
  cases call_cases h with
  | poll time channel rounds hp =>
    obtain ⟨r, u, hu, -, hr⟩ := Outcome.loop_ok (P := Counted) hp
      (.of_forall (fun _ _ => trivial) _ _) hs (fun _ _ _ hu _ hr => hu.pollRound hr)
    exact hu.pollRound hr
  | pollEvents time rounds hp =>
    obtain ⟨r, u, hu, -, hr⟩ := Outcome.loop_ok (P := Counted) hp
      (.of_forall (fun _ _ => trivial) _ _) hs (fun _ _ _ hu _ hr => hu.pollEventsRound hr)
    exact hu.pollEventsRound hr
  | releaseFree _ | advance _ => exact ⟨hsound, hs.2⟩
  | release hb => exact ⟨hsound, hs.2.abandon hb⟩

/-! ### No call fails to find an entry -/

/-- A round of `poll` finds the entry of the step its channel waits for. -/
theorem Counted.pollRound_avoids (h : Counted s) (time : Time T) (channel : ℕ) (r : Round T) :
    (NoInputTransposerSource.pollRound time channel r s).Avoids (· = .repeatStepWakers) := by
  obtain ⟨u, hu⟩ : ∃ u, s.afterWakerEvents r.wakerEvents = u := ⟨_, rfl⟩
  have hcounts : u.channelStatuses.CountsWaiters := hu ▸ h.2.wakerEvents r.wakerEvents
  -- the other lookups of the round have sites of their own
  have hpoll : ∀ q : StepPolled T,
      (Outcome.expect .stepPoll q.result).Avoids (· = .repeatStepWakers) :=
    fun q => .expect (fun heq => by cases heq) _
  refine NoInputTransposerSource.pollRound_avoids repeatStepWakers_not_inRound hu
    ((hcounts.getChannelStatus_avoids channel).mono atWait_of_repeatStepWakers)
    ((u.steps.getBeforeOrAt_avoids r.fuel time _).mono atWait_of_repeatStepWakers) ?_ ?_
  · intro _ _ step q _ _
    exact hpoll q
  · intro _ stepId _
    exact ⟨.unwrap (fun heq => by cases heq) _, fun step q _ _ => hpoll q⟩

/-- **No call fails to find the entry of a step.** -/
theorem call_avoids_wakers (hs : Counted s) (c : Call T) :
    (s.call c).Avoids (· = .repeatStepWakers) := by
  cases c with
  | poll time channel rounds =>
    refine Avoids.bind ?_ fun _ _ => .ok _
    exact Avoids.loop (P := Counted) (.of_forall (fun _ _ => trivial) _ _) hs
      (fun _ _ _ hu _ hr => hu.pollRound hr) (fun r _ hu _ => hu.pollRound_avoids time channel r)
  | pollEvents time rounds =>
    refine Avoids.bind ?_ fun _ _ => .ok _
    refine Avoids.loop (P := Counted) (.of_forall (fun _ _ => trivial) _ _) hs
      (fun _ _ _ hu _ hr => hu.pollEventsRound hr) (fun r u _ _ => ?_)
    exact pollEventsRound_avoids repeatStepWakers_not_inRound
      ((u.steps.getBeforeOrAtEvents_avoids time _).mono atWait_of_repeatStepWakers)
      (fun _ _ _ _ _ _ _ _ => .expect (fun heq => by cases heq) _)
  | releaseChannel channel =>
    refine Avoids.bind ?_ fun _ _ => .ok _
    refine Avoids.bind ?_ fun _ _ => .ok _
    exact (hs.2.getChannelStatus_avoids channel).mono atWait_of_repeatStepWakers
  | advance time =>
    refine Avoids.bind ?_ fun _ _ => .ok _
    refine Avoids.bind ?_ fun _ _ => .ok _
    exact (s.steps.deleteBefore_avoids time).mono atWait_of_repeatStepWakers

/-! ### Runs -/

/-- The counts are right after every run. -/
theorem ReachableBy.counts {meets : NoInputTransposerSource T → Call T → Prop} {transposer : T}
    {startTime : Time T} {rngSeed : Seed T} {history : List (Call T × Reply T)}
    (h : ReachableBy meets transposer startTime rngSeed history s) : Counted s := by
  induction h with
  | new => exact ⟨.new transposer startTime rngSeed, .new⟩
  | call c _ _ hc ih => exact call_counts ih hc

/-- What a call returns, or nothing new when it does not. -/
def returned (s : NoInputTransposerSource T) (c : Call T) : Reply T × NoInputTransposerSource T :=
  match s.call c with
  | .ok q => q
  | .panic _ => (.done, s)
  | .running => (.done, s)

/-- Whether a call returns. -/
def returns (s : NoInputTransposerSource T) (c : Call T) : Bool :=
  match s.call c with
  | .ok _ => true
  | .panic _ => false
  | .running => false

/-- A call that returns, returns what it is evaluated to. -/
theorem call_eq_returned {c : Call T} (h : s.returns c = true) :
    s.call c = .ok (s.returned c) := by
  unfold returns at h
  unfold returned
  split at h
  · rename_i q hq
    rw [hq]
  · cases h
  · cases h

/-- A run goes on with what a call returns. -/
theorem ReachableBy.call_returned {meets : NoInputTransposerSource T → Call T → Prop}
    {transposer : T} {startTime : Time T} {rngSeed : Seed T} {history : List (Call T × Reply T)}
    (h : ReachableBy meets transposer startTime rngSeed history s) (c : Call T) (hmeets : meets s c)
    (hc : s.returns c = true) :
    ReachableBy meets transposer startTime rngSeed (history ++ [(c, (s.returned c).1)])
      (s.returned c).2 :=
  h.call c hmeets (call_eq_returned hc)

end Build

end NoInputTransposerSource

open NoInputTransposerSource in
/-- **The waiter counts are right.**  After every run of calls there is an entry for a step
    exactly when a channel waits for the step, and its count is the number of these channels; so
    no lookup of the entry fails, neither of the next call nor of one channel.  A call
    leaves every channel alone that it is not made for, and a channel that is released is not
    recorded any more. -/
theorem waiter_counts [BuildProfile] {transposer : T} {startTime : Time T} {rngSeed : Seed T}
    {history : List (Call T × Reply T)} {s : NoInputTransposerSource T}
    (h : Reachable transposer startTime rngSeed history s) :
    (∀ stepId, ((∃ n weak, s.channelStatuses.blockedRepeatStepWakers.get stepId = some (n, weak)) ↔
        ∃ channel, s.channelStatuses.WaitsFor channel stepId) ∧
      ∀ n weak, s.channelStatuses.blockedRepeatStepWakers.get stepId = some (n, weak) →
        {channel | s.channelStatuses.WaitsFor channel stepId}.encard = n) ∧
    (∀ channel, s.channelStatuses.getChannelStatus channel ≠ .panic .repeatStepWakers) ∧
    ∀ c, s.call c ≠ .panic .repeatStepWakers ∧ ∀ reply s', s.call c = .ok (reply, s') →
      (∀ other, c.channel ≠ some other → s'.channelStatuses.blockedCallerChannels.get other
        = s.channelStatuses.blockedCallerChannels.get other) ∧
      ∀ channel, c = .releaseChannel channel →
        s'.channelStatuses.blockedCallerChannels.get channel = none := by
  have hs := h.counts
  refine ⟨?_, ?_, ?_⟩
  · intro stepId
    exact ⟨hs.2.entry_iff stepId, fun n weak hget => hs.2.encard hget⟩
  · intro channel
    exact hs.2.getChannelStatus_avoids channel _ trivial
  · intro c
    refine ⟨call_avoids_wakers hs c _ rfl, ?_⟩
    intro reply s' hc
    refine ⟨call_others hs.1 hc, ?_⟩
    rintro channel rfl
    exact call_released hc

open NoInputTransposerSource in
/-- The step at 1 gives up its state when there are thirty checkpoints, and two channels that ask
    for it wait until it has run again. -/
theorem waiter_counts_script :
    ∃ s : NoInputTransposerSource Script,
      {channel | s.channelStatuses.WaitsFor channel 1}.encard = 2 := by
  let _ : BuildProfile := debugBuild
  let waiting : Round Script := ⟨[], 9, []⟩
  have hnew := @ReachableBy.new Script _ _ (fun _ _ => True)
    ⟨[.schedule 1], [.wait, .schedule 1], [], 0⟩ (0 : ℕ) ()
  have hevents := hnew.call_returned
    (.pollEvents (30 : ℕ) (List.replicate 32 ⟨[], 9, [()]⟩)) trivial (by decide +kernel)
  have hfirst := hevents.call_returned (.poll (1 : ℕ) 2 [waiting, waiting]) trivial
    (by decide +kernel)
  have hsecond := hfirst.call_returned (.poll (1 : ℕ) 3 [waiting, waiting]) trivial
    (by decide +kernel)
  exact ⟨_, ((waiter_counts hsecond).1 1).2 2 (some [3, 2]) (by decide +kernel)⟩

end Cozal
