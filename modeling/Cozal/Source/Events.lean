import Cozal.Source.States

namespace Cozal

open Transposer

/-!
# The events a source returns

The events that all calls of a run have returned are those of the reference, in its order, up to
some point; and when a poll for a time `t` returns that it is ready, this point is past `t`.

* `Steps.Returned` — what has been returned is what is emitted before the last step and what the
  last step counts.
* `Steps.Returned.poll` — the event a poll of a step returns is the next one.
* `NoInputTransposerSource.EventsInv` — the invariant of a source.
* `events_exactly_once` — what it says about every run.
-/

variable {T : Type} [Transposer T]

namespace Steps

variable {R : Reference T} {s s' : Steps T} {out : List (Time T × OutputEvent T)}

/-- What has been returned is all that is emitted before the last step, and of what that emits
    as much as it has counted. -/
def Returned (R : Reference T) (s : Steps T) (out : List (Time T × OutputEvent T)) : Prop :=
  ∃ x o f e, s.steps[s.steps.length - 1]? = some x ∧
    R.Point (s.numDeletedSteps + (s.steps.length - 1)) o x.getTime f ∧ Emits f e ∧
    e.length = x.eventCount ∧ out = o ++ e.map (x.getTime, ·)

/-- The last steps are the same one, and it has counted the same events. -/
def LastAlike (s s' : Steps T) : Prop :=
  ∃ x x', s.steps[s.steps.length - 1]? = some x ∧ s'.steps[s'.steps.length - 1]? = some x' ∧
    s'.numDeletedSteps + (s'.steps.length - 1) = s.numDeletedSteps + (s.steps.length - 1) ∧
    x'.getTime = x.getTime ∧ x'.eventCount = x.eventCount

/-- A change that leaves the last step and its count alone leaves what has been returned. -/
theorem Returned.of_alike (h : Returned R s out) (halike : LastAlike s s') :
    Returned R s' out := by
  obtain ⟨x, o, f, e, hx, hpoint, he, hlen, hout⟩ := h
  obtain ⟨y, y', hy, hy', hnum, ht, hc⟩ := halike
  rw [hx, Option.some.injEq] at hy
  subst hy
  exact ⟨y', o, f, e, hy', by rw [hnum, ht]; exact hpoint, he, hc ▸ hlen, by rw [ht]; exact hout⟩

/-- The last steps have the same number when none is added behind. -/
theorem lastAlike_of_total {x x' : Step T} (hs : s.Sound) (hs' : s'.Sound)
    (hx : s.steps.getLast? = some x) (hx' : s'.steps.getLast? = some x')
    (htotal : s'.numDeletedSteps + s'.steps.length = s.numDeletedSteps + s.steps.length)
    (ht : x'.getTime = x.getTime) (hc : x'.eventCount = x.eventCount) : LastAlike s s' := by
  have hpos := hs.length_pos
  have hpos' := hs'.length_pos
  rw [List.getLast?_eq_getElem?] at hx hx'
  exact ⟨x, x', hx, hx', by omega, ht, hc⟩

/-- Saturating a step leaves the last one alike. -/
theorem SaturateCases.lastAlike (hs : s.Sound) (hs' : s'.Sound) {pinnedTimes : List (Time T)}
    {j : ℕ} {step : Step T} {w : WrappedTransposer T}
    (h : SaturateCases s pinnedTimes j step w s') (hstep : s.steps[j + 1]? = some step)
    (hunsat : step.status = .unsaturated) : LastAlike s s' := by
  obtain ⟨x, hx, -, -⟩ := hs.exists_last
  rcases h.last hstep hunsat hx with hsame | ⟨-, f, hstarted⟩
  · exact lastAlike_of_total hs hs' hx hsame h.total_eq rfl rfl
  · exact lastAlike_of_total hs hs' hx hstarted h.total_eq rfl rfl

/-- A step has emitted one list of the length it counts. -/
theorem emitted_unique (hd : Deterministic T) {f : SaturationFuture T}
    {e e' : List (OutputEvent T)} (h : Emits f e) (h' : Emits f e')
    (hlen : e.length = e'.length) : e = e' :=
  (h.prefix_of_length_le hd h' hlen.le).eq_of_length hlen

/-- The next step is pushed once the last one has emitted everything. -/
theorem Returned.pushed (hd : Deterministic T) (h : Returned R s out)
    (hline : OnLine R Tracked s) (hs : s.Sound) (hpushed : Pushed s s') : Returned R s' out := by
  cases hpushed with
  | none _ => exact h
  | @push last w k hlast hw hk =>
    have hpos := hs.length_pos
    obtain ⟨x, o, f, e, hx, hpoint, he, hlen, hout⟩ := h
    -- the last step is saturated, so it has counted all its events
    rw [List.getLast?_eq_getElem?, hx, Option.some.injEq] at hlast
    subst hlast
    obtain ⟨o', f', hpoint', -, e', htracks⟩ := hline _ x hx
    obtain ⟨rfl, -, rfl⟩ := hpoint.unique hd hpoint'
    have hc := htracks.saturated w hw
    obtain rfl := emitted_unique hd he hc.emits (hlen.trans htracks.count)
    have hnext := hpoint.next hc hk
    rw [show s.numDeletedSteps + (s.steps.length - 1) + 1 = s.numDeletedSteps + s.steps.length
      by omega] at hnext
    refine ⟨s.nextStep x k, o ++ e.map (x.getTime, ·), w.handleScheduled k.time 0, [], ?_, ?_,
      ⟨_, .refl _⟩, rfl, ?_⟩
    · simp
    · have hlen' : (s.steps ++ [s.nextStep x k]).length - 1 = s.steps.length := by simp
      show R.Point (s.numDeletedSteps + ((s.steps ++ [s.nextStep x k]).length - 1)) _ _ _
      rw [hlen']
      exact hnext
    · rw [hout]
      simp

/-- **The event a poll of a step returns is the next one.**  Only the last step has one. -/
theorem Returned.poll (hd : Deterministic T) (ha : AwaitsEmissions T) (h : Returned R s out)
    (hline : OnLine R Tracked s) (hs : s.Sound) {i fuel : ℕ} {step : Step T}
    {answers : List (Response T)} {p : StepPolled T} {result : StepPoll T}
    (hstep : s.steps[i]? = some step) (hp : step.poll fuel answers = .ok p)
    (hr : p.result = .ok result) :
    Returned R (s.setStep i p.step) (out ++ (payloads [result]).map (step.getTime, ·)) := by
  obtain ⟨f, a, ch, hst⟩ := Step.isSaturating_iff.mp (Step.isSaturating_of_poll hp hr)
  have hi := (List.getElem?_eq_some_iff.mp hstep).1
  have hlen' := s.length_setStep i p.step
  obtain ⟨o', f', hpoint', -, e', htracks⟩ := hline i step hstep
  have hspec := htracks.poll hd ha fuel answers hst
  rw [hp] at hspec
  obtain ⟨result', hr', hpoll⟩ := hspec
  rw [hr, Except.ok.injEq] at hr'
  subst hr'
  obtain ⟨x, o, f'', e, hx, hpoint, he, hlen, hout⟩ := h
  by_cases hlast : i = s.steps.length - 1
  · subst hlast
    rw [hx, Option.some.injEq] at hstep
    subst hstep
    -- the reference has one future for the last step, and so one list of events before its point
    obtain ⟨rfl, -, rfl⟩ := hpoint.unique hd hpoint'
    obtain rfl := emitted_unique hd he htracks.emits (hlen.trans htracks.count)
    have ht := Step.getTime_eq hpoll.data
    refine ⟨p.step, o, f'', e ++ payloads [result], ?_, ?_, hpoll.tracks.emits,
      hpoll.tracks.count.symm, ?_⟩
    · rw [hlen']
      exact getElem?_setStep_self hx _
    · rw [hlen', ht]
      exact hpoint
    · rw [ht, hout, List.map_append, List.append_assoc]
  · -- any other step has emitted all its events
    have hpast := hs.past i step hstep (by omega)
    rw [(hpoll.flag hpast).2, List.map_nil, List.append_nil]
    refine Returned.of_alike ⟨x, o, f'', e, hx, hpoint, he, hlen, hout⟩
      ⟨x, x, hx, ?_, by rw [hlen']; rfl, rfl, rfl⟩
    rw [hlen']
    exact (getElem?_setStep_of_ne (Ne.symm hlast) _).trans hx

/-! ### The steps and what has been returned -/

/-- The steps are on the line of the reference, and what has been returned is what they have
    emitted. -/
structure Emitted (R : Reference T) (s : Steps T) (out : List (Time T × OutputEvent T)) :
    Prop where
  sound : s.Sound
  line : OnLine R Tracked s
  returned : Returned R s out

namespace Emitted

/-- Pushing the next step emits nothing: the last one has returned all that it emits. -/
theorem pushed (hd : Deterministic T) (ha : AwaitsEmissions T) (h : Emitted R s out)
    (hpushed : Pushed s s') : Emitted R s' out := by
  obtain ⟨hs, hl⟩ := h.line.moves hd (tracked_invariant hd ha) h.sound (hpushed.moves [])
  exact ⟨hs, hl, h.returned.pushed hd h.line h.sound hpushed⟩

/-- Saturating a step emits nothing. -/
theorem saturate (hd : Deterministic T) (ha : AwaitsEmissions T) (h : Emitted R s out)
    {pinnedTimes : List (Time T)} {j : ℕ} {prev step : Step T} {w : WrappedTransposer T}
    (hcases : SaturateCases s pinnedTimes j step w s') (hprev : s.steps[j]? = some prev)
    (hw : prev.status = .saturated w) (hstep : s.steps[j + 1]? = some step)
    (hunsat : step.status = .unsaturated) : Emitted R s' out := by
  obtain ⟨hs, hl⟩ := h.line.moves hd (tracked_invariant hd ha) h.sound
    (hcases.moves hprev hw hstep hunsat)
  exact ⟨hs, hl, h.returned.of_alike (hcases.lastAlike h.sound hs hstep hunsat)⟩

/-- `get_before_or_at` emits nothing. -/
theorem before (hd : Deterministic T) (ha : AwaitsEmissions T) (h : Emitted R s out)
    {pinnedTimes : List (Time T)} {t : Time T} {r : Except Unit (BeforeStatus T)}
    (hcases : BeforeCases s pinnedTimes t r s') : Emitted R s' out := by
  cases hcases with
  | before _ | saturated _ _ _ | saturating _ _ | previous _ _ _ _ => exact h
  | start hx hunsat hprev hw hcases _ => exact h.saturate hd ha hcases hprev hw hx.get hunsat

/-- `get_before_or_at_events` emits nothing. -/
theorem events (hd : Deterministic T) (ha : AwaitsEmissions T) (h : Emitted R s out)
    {pinnedTimes : List (Time T)} {t : Time T} {r : BeforeStatusEvents T}
    (hcases : EventsCases s pinnedTimes t r s') : Emitted R s' out := by
  cases hcases with
  | ready _ _ | saturating _ _ _ => exact h
  | @start j x prev w _ hx _ hunsat hj hprev hw hcases =>
    refine h.saturate hd ha hcases hprev hw ?_ hunsat
    rw [show j + 1 = s.steps.length - 1 by omega]
    exact hx

/-- Forgetting a checkpoint emits nothing. -/
theorem forget (hd : Deterministic T) (ha : AwaitsEmissions T) (h : Emitted R s out) {i : ℕ}
    {x : Step T} {time : Time T} (hx : s.steps[i]? = some x) (hu : x.isUnsaturated = false)
    (hlt : ∀ b, s.deletedBefore = some b → b < time) : Emitted R (s.forget i time) out := by
  have hmove : Move [] s (s.forget i time) := .forget time hx hu hlt
  have hs := hmove.sound h.sound
  obtain ⟨y, hy, -, -⟩ := h.sound.exists_last
  exact ⟨hs, h.line.move hd (tracked_invariant hd ha) h.sound hmove, h.returned.of_alike
    (lastAlike_of_total h.sound hs hy (last_forget time hx hy) (total_forget hx time) rfl rfl)⟩

/-- A poll of a step returns the next event, if any. -/
theorem poll (hd : Deterministic T) (ha : AwaitsEmissions T) (h : Emitted R s out) {i fuel : ℕ}
    {step : Step T} {answers : List (Response T)} {p : StepPolled T} {result : StepPoll T}
    (hstep : s.steps[i]? = some step) (hp : step.poll fuel answers = .ok p)
    (hr : p.result = .ok result) :
    Emitted R (s.setStep i p.step) (out ++ (payloads [result]).map (step.getTime, ·)) :=
  have hmove : Move [] s (s.setStep i p.step) :=
    .poll _ _ hstep (Step.isSaturating_of_poll hp hr) hp
  ⟨hmove.sound h.sound, h.line.move hd (tracked_invariant hd ha) h.sound hmove,
    h.returned.poll hd ha h.line h.sound hstep hp hr⟩

/-- What has been returned is a prefix of the events of the reference. -/
theorem outputs (h : Emitted R s out) : R.Outputs out := by
  obtain ⟨x, o, f, e, -, hpoint, he, -, rfl⟩ := h.returned
  exact hpoint.outputs he

/-- When the last step before or at a time is saturated, every event up to the time has been
    returned. -/
theorem covers_latest (hd : Deterministic T) (ha : AwaitsEmissions T) (h : Emitted R s' out)
    (hpushed : Pushed s s') {t : Time T} {i : ℕ} {x : Step T} {w : WrappedTransposer T}
    (hx : s'.LatestStep t i x) (hw : x.status = .saturated w) : R.Covers out t := by
  obtain ⟨o, f, os, hpoint, hc, ⟨e, htracks⟩, hnext⟩ :=
    h.line.latest hd (tracked_invariant hd ha) h.sound hpushed hx hw
  obtain ⟨g, hrun, hready⟩ := hpoint.run_completes hc
  refine Reference.covers_of_ready hd hrun hready hnext ?_
  obtain ⟨y, o', f', e', hy, hpoint', he', hlen, rfl⟩ := h.returned
  have hi := (List.getElem?_eq_some_iff.mp hx.get).1
  by_cases hlast : i = s'.steps.length - 1
  · subst hlast
    rw [hx.get, Option.some.injEq] at hy
    subst hy
    obtain ⟨rfl, -, rfl⟩ := hpoint.unique hd hpoint'
    obtain ⟨rfl, -⟩ := hc.unique hd (htracks.saturated w hw)
    rw [emitted_unique hd he' htracks.emits (hlen.trans htracks.count)]
  · exact (hpoint.prefix_of_lt hd hc hpoint' (by omega)).trans (List.prefix_append _ _)

/-- When the last step is later than a time, every event up to the time has been returned. -/
theorem covers_before (hd : Deterministic T) (h : Emitted R s out) {t : Time T} {x : Step T}
    (hx : s.steps[s.steps.length - 1]? = some x) (ht : t < x.getTime) : R.Covers out t := by
  obtain ⟨y, o, f, e, hy, hpoint, -, -, rfl⟩ := h.returned
  rw [hx, Option.some.injEq] at hy
  subst hy
  refine Reference.covers_of_run hd hpoint.run ?_ (List.prefix_append _ _)
  intro o' σ' hrun z hz
  exact ht.trans_le ((refRun_times hrun hpoint.inTime).2.1 z hz)

end Emitted

end Steps

namespace NoInputTransposerSource

/-! ### The invariant -/

/-- The event a round returns, with its time. -/
def roundInterrupts {State : Type} (o : Option (SourcePollOf T State)) :
    List (Time T × OutputEvent T) :=
  o.elim [] SourcePoll.interrupts

/-- What has been returned is what the steps have emitted, and covers the times of the
    interpolations. -/
structure EventsInv (R : Reference T) (s : NoInputTransposerSource T)
    (out : List (Time T × OutputEvent T)) : Prop where
  emitted : s.steps.Emitted R out
  covered : InterpolationsMeet (fun t _ => R.Covers out t) s.channelStatuses

namespace EventsInv

variable {R : Reference T} {s s' : NoInputTransposerSource T} {time : Time T} {r : Round T}
  {out : List (Time T × OutputEvent T)}

/-- At first nothing has been emitted. -/
theorem new (transposer : T) (startTime : Time T) (rngSeed : Seed T) :
    EventsInv ⟨transposer, startTime, rngSeed⟩ (.new transposer startTime rngSeed) [] where
  emitted := by
    have htracks : Tracks (WrappedTransposer.init transposer rngSeed startTime 0)
        (Step.newInit 0 transposer startTime rngSeed) [] :=
      { fresh := rfl
        count := rfl
        emits := ⟨_, .refl _⟩
        saturating := by
          intro f a ch hs
          cases hs
          exact ⟨⟨rfl, by simp⟩, [], _, .refl _, rfl, List.nil_prefix, rfl⟩
        saturated := by intro w hs; cases hs
        done := by intro h; cases h }
    exact ⟨.new transposer startTime rngSeed,
      .new transposer startTime rngSeed ⟨[], htracks⟩,
      _, [], _, [], rfl, .init, ⟨_, .refl _⟩, rfl, rfl⟩
  covered := .new

/-- What happens to the stack wakers emits nothing. -/
theorem afterWakerEvents (h : EventsInv R s out) (events : List (ℕ × StackWakerEvent)) :
    EventsInv R (s.afterWakerEvents events) out :=
  ⟨h.emitted, h.covered.of_eq (afterWakerEvents_blocked _ events)⟩

/-- More events cover the times of the interpolations as well. -/
theorem covered_append (h : EventsInv R s out) (o : List (Time T × OutputEvent T)) :
    InterpolationsMeet (fun t _ => R.Covers (out ++ o) t) s.channelStatuses :=
  h.covered.imp fun _ _ _ hcovers i hi => (hcovers i hi).append

/-- What a round of `poll` does to the steps. -/
theorem roundEmitted (hd : Deterministic T) (ha : AwaitsEmissions T) {channel : ℕ}
    {o : Option (SourcePollOf T (OutputState T))} (h : s.steps.Emitted R out)
    (hround : RoundCases time channel r s o s') :
    s'.steps.Emitted R (out ++ roundInterrupts o) := by
  cases hround with
  | abandon _ _ | interpolationPending _ _ | interpolationReady _ _ | repeatWaits _ _ =>
    exact (List.append_nil out).symm ▸ h
  | interpolate _ hpushed _ _ => exact (List.append_nil out).symm ▸ h.pushed hd ha hpushed
  | wait _ hpushed hcases _ =>
    exact (List.append_nil out).symm ▸ (h.pushed hd ha hpushed).before hd ha hcases
  | originalEmitted _ hstep hp hr | originalPending _ hstep hp hr | originalReady _ hstep hp hr =>
    exact h.poll hd ha hstep hp hr
  | repeatPending _ _ hstep _ hp hr | repeatReady _ _ hstep _ hp hr =>
    exact h.poll hd ha hstep hp hr

/-- **A round of `poll` keeps the invariant**, with the event it returns. -/
theorem round (hd : Deterministic T) (ha : AwaitsEmissions T) {channel : ℕ}
    {o : Option (SourcePollOf T (OutputState T))} (h : EventsInv R s out)
    (hround : RoundCases time channel r s o s') : EventsInv R s' (out ++ roundInterrupts o) := by
  refine ⟨roundEmitted hd ha h.emitted hround, ?_⟩
  refine hround.interpolations (h.covered_append _) ?_ ?_
  · intro steps i x w hpushed hx hw
    exact ((h.emitted.pushed hd ha hpushed).covers_latest hd ha hpushed hx hw).append
  · intro t i i' hcovers _
    exact hcovers

/-- A round of `poll` that returns a state has covered the time. -/
theorem round_ready {channel : ℕ} {state : OutputState T} {next : Option (Time T)}
    (h : EventsInv R s out) (hround : RoundCases time channel r s (some (.ready state next)) s') :
    R.Covers out time := by
  cases hround with
  | interpolationReady hb _ => exact h.covered _ _ hb _ rfl

section Build

variable [BuildProfile]

/-- **A round of `poll_events` keeps the invariant**, with the event it returns. -/
theorem eventsRound (hd : Deterministic T) (ha : AwaitsEmissions T)
    {pinnedTimes : List (Time T)} {o : Option (SourcePollOf T Unit)} (h : EventsInv R s out)
    (hround : EventsRoundCases time pinnedTimes r s o s') :
    EventsInv R s' (out ++ roundInterrupts o) := by
  refine ⟨?_, hround.channelStatuses ▸ h.covered_append _⟩
  cases hround with
  | ready hpushed _ _ => exact (List.append_nil out).symm ▸ h.emitted.pushed hd ha hpushed
  | emitted hpushed hcases hstep hp hr | pending hpushed hcases hstep hp hr
  | completed _ hpushed hcases hstep hp hr =>
    exact ((h.emitted.pushed hd ha hpushed).events hd ha hcases).poll hd ha hstep hp hr

/-- A round of `poll_events` that is ready has covered the time. -/
theorem eventsRound_ready (hd : Deterministic T) (ha : AwaitsEmissions T)
    {pinnedTimes : List (Time T)} {next : Option (Time T)} (h : EventsInv R s out)
    (hround : EventsRoundCases time pinnedTimes r s (some (.ready () next)) s') :
    R.Covers out time := by
  cases hround with
  | @ready steps x hpushed hx hcond =>
    have h₁ := h.emitted.pushed hd ha hpushed
    by_cases ht : time < x.getTime
    · exact h₁.covers_before hd hx ht
    · -- the last step has ended
      have hpos := h₁.sound.length_pos
      have hcan := (h₁.sound.last _ x hx (by omega)).canProduceEvents
      rw [hcond.resolve_left ht, Eq.comm, Bool.not_eq_false'] at hcan
      obtain ⟨w, hst⟩ := Step.isSaturated_iff.mp hcan
      exact h₁.covers_latest hd ha hpushed (.of_last hx (by omega) (not_lt.mp ht)) hst

end Build

end EventsInv

/-! ### Every run -/

/-- The time of a poll that returns that it is ready. -/
def Call.readyTime : Call T → Reply T → Option (Time T)
  | .poll time _ _, .poll (.ready _ _) => some time
  | .pollEvents time _, .pollEvents (.ready _ _) => some time
  | _, _ => none

/-- How the events of a run go with those of the reference. -/
structure EventsOnce (R : Reference T) (history : List (Call T × Reply T)) : Prop where
  /-- The reference has one list of events. -/
  total : ∀ o o', R.Outputs o → R.Outputs o' → o <+: o' ∨ o' <+: o
  /-- The events returned are a prefix of it. -/
  outputs : R.Outputs (interrupts history)
  nondecreasing : (interrupts history).Pairwise (fun a b => a.1 ≤ b.1)
  /-- When a poll returns that it is ready, no event up to its time is left. -/
  ready : ∀ before c reply after t, history = before ++ (c, reply) :: after →
    c.readyTime reply = some t → R.Covers (interrupts before) t

/-- The events of two histories are those of the first and then those of the second. -/
theorem interrupts_append (history history' : List (Call T × Reply T)) :
    interrupts (history ++ history') = interrupts history ++ interrupts history' :=
  List.flatMap_append

section Build

variable [BuildProfile] {R : Reference T} {s s' : NoInputTransposerSource T}
  {out : List (Time T × OutputEvent T)}

/-- **Every call keeps the invariant**, with the event it returns; and when it returns that it is
    ready its time is covered. -/
theorem EventsInv.call (hd : Deterministic T) (ha : AwaitsEmissions T) (h : EventsInv R s out)
    {c : Call T} {reply : Reply T} (hc : s.call c = .ok (reply, s')) :
    EventsInv R s' (out ++ reply.interrupts) ∧
      ∀ t, c.readyTime reply = some t → R.Covers out t := by
  cases call_cases hc with
  | @poll p s' time channel rounds hp =>
    have hround : ∀ {r : Round T} {t t' : NoInputTransposerSource T} {o}, EventsInv R t out →
        pollRound time channel r t = .ok (o, t') →
        RoundCases time channel r (t.afterWakerEvents r.wakerEvents) o t' :=
      fun ht hr => pollRound_cases ht.emitted.sound hr
    -- the rounds before the last one return nothing
    obtain ⟨r, t, ht, -, hr⟩ := Outcome.loop_ok (P := fun t => EventsInv R t out) hp
      (.of_forall (fun _ _ => trivial) _ _) h (fun r t t' ht _ hr => by
        have hnext := (ht.afterWakerEvents r.wakerEvents).round hd ha (hround ht hr)
        exact (List.append_nil out) ▸ hnext)
    have hcases := hround ht hr
    have ht := ht.afterWakerEvents r.wakerEvents
    refine ⟨ht.round hd ha hcases, ?_⟩
    intro t' ht'
    cases p with
    | ready state next =>
      obtain rfl := Option.some.inj ht'
      exact ht.round_ready hcases
    | interrupt _ _ | pending => cases ht'
  | @pollEvents p s' time rounds hp =>
    obtain ⟨r, t, ht, -, hr⟩ := Outcome.loop_ok (P := fun t => EventsInv R t out) hp
      (.of_forall (fun _ _ => trivial) _ _) h (fun r t t' ht _ hr => by
        have hnext := ht.eventsRound hd ha (pollEventsRound_cases ht.emitted.sound hr)
        exact (List.append_nil out) ▸ hnext)
    have hcases := pollEventsRound_cases ht.emitted.sound hr
    refine ⟨ht.eventsRound hd ha hcases, ?_⟩
    intro t' ht'
    cases p with
    | ready state next =>
      obtain rfl := Option.some.inj ht'
      exact ht.eventsRound_ready hd ha hcases
    | interrupt _ _ | pending => cases ht'
  | releaseFree _ => exact ⟨(List.append_nil out).symm ▸ h, by intro t ht; cases ht⟩
  | release _ =>
    refine ⟨(List.append_nil out).symm ▸ ⟨h.emitted, ?_⟩, by intro t ht; cases ht⟩
    exact h.covered.vacate ChannelStatuses.abandon_blocked
  | advance hq =>
    refine ⟨(List.append_nil out).symm ▸ ⟨?_, h.covered⟩, by intro t ht; cases ht⟩
    -- the last step is never forgotten
    rcases Steps.deleteBefore_cases h.emitted.sound hq with ⟨-, rfl⟩ | ⟨hlt, i, x, hx, hu, rfl, -⟩
    · exact h.emitted
    · exact h.emitted.forget hd ha hx hu hlt

/-- The invariant holds after every run, and every poll that was ready had its time covered. -/
theorem EventsInv.reachable (hd : Deterministic T) (ha : AwaitsEmissions T)
    {meets : NoInputTransposerSource T → Call T → Prop} {transposer : T} {startTime : Time T}
    {rngSeed : Seed T} {history : List (Call T × Reply T)}
    (h : ReachableBy meets transposer startTime rngSeed history s) :
    EventsInv ⟨transposer, startTime, rngSeed⟩ s (interrupts history) ∧
      ∀ before c reply after t, history = before ++ (c, reply) :: after →
        c.readyTime reply = some t →
        Reference.Covers ⟨transposer, startTime, rngSeed⟩ (interrupts before) t := by
  induction h with
  | new =>
    refine ⟨.new transposer startTime rngSeed, ?_⟩
    intro before c reply after t heq
    simp at heq
  | @call history s reply s' c hreach _ hc ih =>
    obtain ⟨hinv, hready⟩ := ih
    obtain ⟨hinv', hnow⟩ := hinv.call hd ha hc
    refine ⟨?_, ?_⟩
    · rw [interrupts_append]
      simpa [interrupts] using hinv'
    · intro before c' reply' after t heq ht
      -- the poll is the last call, or an earlier one
      rcases List.eq_nil_or_concat after with rfl | ⟨after', last, rfl⟩
      · obtain ⟨rfl, hlast⟩ := List.append_inj' heq rfl
        cases hlast
        exact hnow t ht
      · rw [List.concat_eq_append, ← List.cons_append, ← List.append_assoc] at heq
        obtain ⟨rfl, -⟩ := List.append_inj' heq rfl
        exact hready before c' reply' after' t rfl ht

end Build

end NoInputTransposerSource

open NoInputTransposerSource in
/-- **Every event is returned once and in order.**  After every run of calls on a source whose
    handlers await their emissions, the events returned by all calls together are a prefix of
    the events of the reference; and when a poll for `t` has returned that it is ready, all
    events at or before `t` had been returned. -/
theorem events_exactly_once [BuildProfile] (hd : Deterministic T) (ha : AwaitsEmissions T)
    {transposer : T} {startTime : Time T} {rngSeed : Seed T} {history : List (Call T × Reply T)}
    {s : NoInputTransposerSource T} (h : Reachable transposer startTime rngSeed history s) :
    EventsOnce ⟨transposer, startTime, rngSeed⟩ history := by
  obtain ⟨hinv, hready⟩ := EventsInv.reachable hd ha h
  have houtputs := hinv.emitted.outputs
  exact ⟨fun o o' ho ho' => ho.total hd ho', houtputs, houtputs.sorted, hready⟩

open NoInputTransposerSource in
/-- Two channels and a poll of the events take turns on a transposer that emits, schedules and
    emits again. -/
theorem events_exactly_once_script :
    ∃ history, EventsOnce (⟨⟨[.emit 5, .schedule 10], [.emit 7, .emit 8], [], 0⟩, (0 : ℕ), ()⟩ :
        Reference Script) history ∧
      interrupts history = [((0 : ℕ), (5 : ℕ)), ((10 : ℕ), (7 : ℕ)), ((10 : ℕ), (8 : ℕ))] := by
  let _ : BuildProfile := debugBuild
  let round : Round Script := ⟨[], 20, []⟩
  have hnew := @ReachableBy.new Script _ _ (fun _ _ => True)
    ⟨[.emit 5, .schedule 10], [.emit 7, .emit 8], [], 0⟩ (0 : ℕ) ()
  have hfirst := hnew.call (.poll (3 : ℕ) 0 [round, round, round]) trivial rfl
  have hstate := hfirst.call (.poll (3 : ℕ) 0 [round, round, round]) trivial rfl
  have hsecond := hstate.call (.pollEvents (10 : ℕ) [round, round]) trivial rfl
  have hthird := hsecond.call (.poll (12 : ℕ) 1 [round, round, round]) trivial rfl
  have hready := hthird.call (.poll (12 : ℕ) 1 [round, round, round]) trivial rfl
  exact ⟨_, events_exactly_once Script.deterministic Script.awaitsEmissions hready, rfl⟩

end Cozal
