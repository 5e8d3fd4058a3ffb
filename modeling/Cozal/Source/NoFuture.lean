import Cozal.Source.Lookup
import Cozal.Transposer.Script

namespace Cozal

open Transposer

/-!
# Events from the future

A poll for a time `t` has no use for an event after `t`, and `poll_events` never returns one.
`poll` does in two ways: a channel that still waits for the original step polls the last step,
whatever that is by now; and a poll that consumes the first of three steps waits for the third
one, which is later than `t`.

* `NoInputTransposerSource.KeepsToThePast` — the condition on a call under which neither happens.
* `no_event_from_future` — in a run of such calls no event is later than the poll.
* `no_event_from_future_fails` — a run with such an event.
-/

variable {T : Type} [Transposer T]

namespace NoInputTransposerSource

/-- The last step is not later than `t`. -/
def LastNotAfter (t : Time T) (s : NoInputTransposerSource T) : Prop :=
  ∀ x, s.steps.steps[s.steps.steps.length - 1]? = some x → x.getTime ≤ t

/-- A channel that waits for the original step at `t` finds a last step not later than `t`. -/
def WaitsInThePast (t : Time T) (channel : ℕ) (s : NoInputTransposerSource T) : Prop :=
  s.channelStatuses.blockedCallerChannels.get channel = some ⟨t, .originalStep⟩ →
    s.LastNotAfter t

/-- A channel that is free is not handed out the last step in the place of the one it starts. -/
def FindsInThePast (t : Time T) (channel : ℕ) (s : NoInputTransposerSource T) : Prop :=
  s.channelStatuses.blockedCallerChannels.get channel = none →
    ∀ next, s.steps.HandsOutNext t next → next.canProduceEvents = false

/-- The time of a poll. -/
def Call.pollTime : Call T → Option (Time T)
  | .poll time _ _ => some time
  | .pollEvents time _ => some time
  | .releaseChannel _ => none
  | .advance _ => none

variable {s s' : NoInputTransposerSource T} {time : Time T} {r : Round T} {channel : ℕ}

/-- What happens to the stack wakers changes nothing else. -/
theorem WaitsInThePast.afterWakerEvents (h : WaitsInThePast time channel s)
    (events : List (ℕ × StackWakerEvent)) :
    WaitsInThePast time channel (s.afterWakerEvents events) := by
  intro hb
  refine h ?_
  rwa [afterWakerEvents_blocked] at hb

/-- What happens to the stack wakers changes neither steps nor blocked channels. -/
theorem FindsInThePast.afterWakerEvents (h : FindsInThePast time channel s)
    (events : List (ℕ × StackWakerEvent)) :
    FindsInThePast time channel (s.afterWakerEvents events) := by
  intro hb
  refine h ?_
  rwa [afterWakerEvents_blocked] at hb

/-- A poll of the last step leaves its time alone. -/
theorem LastNotAfter.poll (h : s.LastNotAfter time) {step : Step T} {p : StepPolled T}
    {fuel : ℕ} {answers : List (Response T)} {result : StepPoll T}
    (hstep : s.steps.steps[s.steps.steps.length - 1]? = some step)
    (hp : step.poll fuel answers = .ok p) (hr : p.result = .ok result)
    {statuses : ChannelStatuses T} :
    LastNotAfter time ⟨s.steps.setStep (s.steps.steps.length - 1) p.step, statuses⟩ := by
  intro x hx
  obtain ⟨f, a, ch, hst⟩ := Step.isSaturating_iff.mp (Step.isSaturating_of_poll hp hr)
  rw [Steps.length_setStep, Steps.getElem?_setStep_self hstep, Option.some.injEq] at hx
  rw [← hx, Step.getTime_eq (Step.poll_run hst hp).1]
  exact h step hstep

/-- A round of `poll` returns no event after the time: it polls the last step for one only while
    the channel waits for that. -/
theorem RoundCases.interrupts_le {o : Option (SourcePollOf T (OutputState T))}
    (h : RoundCases time channel r s o s') (hwaits : WaitsInThePast time channel s)
    {p : SourcePollOf T (OutputState T)} (hp : o = some p) : ∀ x ∈ p.interrupts, x.1 ≤ time := by
  intro x hx
  cases h with
  | originalEmitted hb hstep _ _ =>
    cases hp
    obtain rfl := List.mem_singleton.mp hx
    exact hwaits hb _ hstep
  | interpolationPending _ _ | interpolationReady _ _ | originalPending _ _ _ _
  | repeatWaits _ _ | repeatPending _ _ _ _ _ _ => cases hp; cases hx
  | abandon _ _ | interpolate _ _ _ _ | wait _ _ _ _ | originalReady _ _ _ _
  | repeatReady _ _ _ _ _ _ => cases hp

/-- **A round of `poll` keeps the channel in the past.** -/
theorem RoundCases.past {o : Option (SourcePollOf T (OutputState T))}
    (h : RoundCases time channel r s o s') (hs : s.steps.Sound)
    (hfinds : FindsInThePast time channel s) (hwaits : WaitsInThePast time channel s) :
    WaitsInThePast time channel s' := by
  cases h with
  | abandon _ _ =>
    intro hb
    have hb' : (s.channelStatuses.abandon channel _).blockedCallerChannels.get channel = _ := hb
    rw [ChannelStatuses.abandon_blocked, OrdMap.get_remove, if_pos rfl] at hb'
    cases hb'
  | interpolate _ _ _ _ =>
    intro hb
    simp [ChannelStatuses.startInterpolation, ChannelStatuses.occupy] at hb
  | @wait steps i n steps' step hfree hpushed hcases hstep =>
    intro hb x hx
    -- the channel waits for the original step, so the step that is found is the last one
    have hcan : step.canProduceEvents = true := by
      by_contra hcan
      rw [Bool.not_eq_true] at hcan
      simp [hcan, ChannelStatuses.startRepeatStep, ChannelStatuses.occupy] at hb
    have hsteps := hpushed.sound hs
    have hsteps' := Steps.sound_of_moves hcases.moves hsteps
    have hlast := hsteps'.eq_last_of_canProduce hstep hcan
    have hx : steps'.steps[steps'.steps.length - 1]? = some x := hx
    rw [show steps'.steps.length - 1 = i by omega, hstep, Option.some.injEq] at hx
    subst hx
    rcases hcases.finds hsteps hstep with ⟨-, hlatest, -⟩ | hnext
    · exact hlatest.le
    · have hfalse := hfinds hfree step (hnext.of_pushed hpushed)
      rw [hcan] at hfalse
      cases hfalse
  | originalEmitted hb hstep hp hr | originalPending hb hstep hp hr =>
    exact fun _ => (hwaits hb).poll hstep hp hr
  | interpolationPending _ _ => intro hb; simp [ChannelStatuses.occupy] at hb
  | interpolationReady _ _ | originalReady _ _ _ _ =>
    intro hb
    simp [ChannelStatuses.vacate] at hb
  | @repeatWaits stepId statuses hb hreg | @repeatPending stepId i step p statuses hb _ _ hreg =>
    -- the channel still waits for the step that is run again
    intro hb'
    have hb' : statuses.blockedCallerChannels.get channel = _ := hb'
    rw [ChannelStatuses.blocked_of_registerWaker hreg, hb] at hb'
    cases hb'
  | repeatReady _ _ _ _ _ _ =>
    intro hb
    simp [ChannelStatuses.abandon, ChannelStatuses.vacate] at hb

section Build

variable [BuildProfile]

/-- **No event from the future.**  A poll is not made on a channel that still waits for the
    original step at its time while the last step is later; and in none of its rounds the
    channel is free and handed out the last step in the place of the one it starts. -/
def KeepsToThePast (s : NoInputTransposerSource T) : Call T → Prop
  | .poll time channel rounds => WaitsInThePast time channel s ∧
      Outcome.AllRounds (pollRound time channel)
        (fun _ s => FindsInThePast time channel s) rounds s
  | .pollEvents _ _ => True
  | .releaseChannel _ => True
  | .advance _ => True

/-- Before the first `advance` only the wait of the channel matters. -/
theorem keepsToThePast_of_never_advanced (hs : s.steps.Sound)
    (hd : s.steps.deletedBefore = none) (hwaits : WaitsInThePast time channel s)
    (rounds : List (Round T)) : KeepsToThePast s (.poll time channel rounds) := by
  refine ⟨hwaits, Outcome.AllRounds.of_invariant
    (P := fun u => u.steps.Sound ∧ u.steps.deletedBefore = none) ?_ ?_ rounds ⟨hs, hd⟩⟩
  · rintro r u ⟨-, hu⟩ - next ⟨_, _, _, d, -, -, hd, -⟩
    rw [hu] at hd
    cases hd
  · rintro r u u' ⟨hu, hd⟩ hr
    exact ⟨pollRound_sound hu hr, (pollRound_cases hu hr).deletedBefore.trans hd⟩

/-- No call that keeps to the past returns an event after its time. -/
theorem call_past (hs : s.steps.Sound) {c : Call T} {reply : Reply T}
    (hkeeps : KeepsToThePast s c) (hc : s.call c = .ok (reply, s')) :
    ∀ t, c.pollTime = some t → ∀ x ∈ reply.interrupts, x.1 ≤ t := by
  intro t ht
  cases call_cases hc with
  | @poll p s' time channel rounds hp =>
    obtain rfl := Option.some.inj ht
    obtain ⟨r, u, hu, -, hr⟩ := Outcome.loop_ok
      (P := fun u => u.steps.Sound ∧ WaitsInThePast time channel u) hp hkeeps.2 ⟨hs, hkeeps.1⟩
      (fun r u u' hu hfinds hr => ⟨pollRound_sound hu.1 hr,
        (pollRound_cases hu.1 hr).past hu.1 (hfinds.afterWakerEvents r.wakerEvents)
          (hu.2.afterWakerEvents r.wakerEvents)⟩)
    exact (pollRound_cases hu.1 hr).interrupts_le (hu.2.afterWakerEvents r.wakerEvents) rfl
  | pollEvents time rounds hp =>
    obtain rfl := Option.some.inj ht
    obtain ⟨r, u, hu, -, hr⟩ := Outcome.loop_ok (P := fun u => u.steps.Sound) hp
      (.of_forall (fun _ _ => trivial) _ _) hs (fun _ _ _ hu _ hr => pollEventsRound_sound hu hr)
    -- the step that is polled is the last one, which lies before or at the time
    cases pollEventsRound_cases hu hr with
    | ready _ _ _ | pending _ _ _ _ _ => intro x hx; cases hx
    | emitted _ hcases hstep _ _ =>
      intro x hx
      obtain rfl := List.mem_singleton.mp hx
      obtain ⟨-, y, hy, -, hle⟩ := hcases.last
      rw [hstep, Option.some.injEq] at hy
      subst hy
      exact hle
  | releaseFree _ | release _ | advance _ => cases ht

end Build

end NoInputTransposerSource

open NoInputTransposerSource in
/-- **No event from the future.**  In a run of calls that keep to the past, every event that a
    poll returns is at or before the time of the poll. -/
theorem no_event_from_future [BuildProfile] {transposer : T} {startTime : Time T}
    {rngSeed : Seed T} {history : List (Call T × Reply T)} {s : NoInputTransposerSource T}
    (h : ReachableBy KeepsToThePast transposer startTime rngSeed history s) :
    ∀ c reply t, (c, reply) ∈ history → c.pollTime = some t →
      ∀ x ∈ reply.interrupts, x.1 ≤ t := by
  induction h with
  | new => intro c reply t hmem; cases hmem
  | call c hreach hkeeps hc ih =>
    intro c' reply' t hmem ht
    rcases List.mem_append.mp hmem with hmem | hmem
    · exact ih c' reply' t hmem ht
    · cases List.mem_singleton.mp hmem
      exact call_past hreach.sound hkeeps hc t ht

open NoInputTransposerSource in
/-- A channel and a poll of the events take turns: the channel is done with the step at 0 before
    the events at 10 are asked for. -/
theorem no_event_from_future_script :
    ∃ history : List (Call Script × Reply Script),
      interrupts history = [((0 : ℕ), (5 : ℕ)), ((10 : ℕ), (7 : ℕ))] ∧
      ∀ c reply t, (c, reply) ∈ history → c.pollTime = some t →
        ∀ x ∈ reply.interrupts, x.1 ≤ t := by
  let _ : BuildProfile := debugBuild
  let round : Round Script := ⟨[], 30, []⟩
  have hnew := @ReachableBy.new Script _ _ KeepsToThePast
    ⟨[.emit 5, .schedule 10], [.emit 7, .emit 8], [], 0⟩ (0 : ℕ) ()
  have hfirst := hnew.call (.poll (0 : ℕ) 1 [round, round])
    (keepsToThePast_of_never_advanced hnew.sound rfl (by intro hb; cases hb) _) rfl
  have hstate := hfirst.call (.poll (0 : ℕ) 1 [round, round, round])
    (keepsToThePast_of_never_advanced hfirst.sound rfl
      (by intro _ x hx; cases hx; exact Nat.le_refl 0) _) rfl
  have hevents := hstate.call (.pollEvents (10 : ℕ) [round, round]) (by trivial) rfl
  exact ⟨_, rfl, no_event_from_future hevents⟩

open NoInputTransposerSource in
/-- A channel gets the event 5 from the step at 0 and still waits for it.  A poll of the events
    completes that step and starts the one at 10.  When the channel asks again for 0, it gets the
    next event of the step at 10. -/
theorem no_event_from_future_fails :
    ∃ (_ : BuildProfile) (history : List (Call Script × Reply Script))
      (s : NoInputTransposerSource Script),
      Reachable ⟨[.emit 5, .schedule 10], [.emit 7, .emit 8], [], 0⟩ (0 : ℕ) () history s ∧
      ∃ c reply t, (c, reply) ∈ history ∧ c.pollTime = some t ∧
        ∃ x ∈ reply.interrupts, t < x.1 := by
  let _ : BuildProfile := debugBuild
  let round : Round Script := ⟨[], 30, []⟩
  have hnew := @ReachableBy.new Script _ _ (fun _ _ => True)
    ⟨[.emit 5, .schedule 10], [.emit 7, .emit 8], [], 0⟩ (0 : ℕ) ()
  have hfirst := hnew.call (.poll (0 : ℕ) 1 [round, round]) trivial rfl
  have hevents := hfirst.call (.pollEvents (10 : ℕ) [round, round]) trivial rfl
  have hagain := hevents.call (.poll (0 : ℕ) 1 [round]) trivial rfl
  refine ⟨inferInstance, _, _, hagain, _, _, (0 : ℕ), List.mem_append_right _ List.mem_cons_self,
    rfl, ((10 : ℕ), (8 : ℕ)), List.mem_singleton.mpr rfl, ?_⟩
  show (0 : ℕ) < 10
  decide

end Cozal
