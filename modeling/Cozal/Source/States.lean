import Cozal.Source.Rounds
import Cozal.Source.TimeLine

namespace Cozal

open Transposer

/-!
# The states a source returns

Whatever the channels have polled before, a state that is returned for a time `t` is the
interpolation to `t` of the transposer as the reference has it at `t`.

* `OnLine.latest` — the last step before or at `t`, when it is saturated, holds the state of the
  reference at `t`.
* `Interpolates` — an interpolation that still returns what the reference does.
* `NoInputTransposerSource.StateInv` — the invariant of a source, which every round keeps.
* `poll_state_refines` — what it says about a poll that returns a state.
-/

variable {T : Type} [Transposer T]

/-! ### The latest step -/

/-- The last step before or at a time, when it is saturated, has ended a due time that no other
    one follows up to the time. -/
theorem OnLine.latest (hd : Deterministic T) {R : Reference T}
    {P : SaturationFuture T → Step T → Prop} (hP : StepInvariant P) {s s' : Steps T}
    (h : OnLine R P s') (hs : s'.Sound) (hpushed : Steps.Pushed s s') {t : Time T} {i : ℕ}
    {x : Step T} {w : WrappedTransposer T} (hx : s'.LatestStep t i x)
    (hw : x.status = .saturated w) :
    ∃ o f os, R.Point (s'.numDeletedSteps + i) o x.getTime f ∧ Completes f os w ∧ P f x ∧
      ∀ k, w.metadata.getNextScheduledTime = some k → t < k.time := by
  obtain ⟨o, f, hpoint, -, hPf⟩ := h i x hx.get
  obtain ⟨os, hc⟩ := hP.completes hPf hw
  refine ⟨o, f, os, hpoint, hc, hPf, ?_⟩
  intro k hk
  have hi := (List.getElem?_eq_some_iff.mp hx.get).1
  rcases Nat.lt_or_ge (i + 1) s'.steps.length with hlt | hge
  · -- the next step is stored, and later than the time
    have hy : s'.steps[i + 1]? = some s'.steps[i + 1] := List.getElem?_eq_getElem hlt
    obtain ⟨k', hk', ht⟩ := h.next hd hP hx.get hw hy
    rw [hk, Option.some.injEq] at hk'
    subst hk'
    exact ht ▸ hx.after (i + 1) _ (by omega) hy
  · -- the step is the last one, so the next one would have been pushed
    have hlast : s'.steps.getLast? = some x := by
      rw [List.getLast?_eq_getElem?, show s'.steps.length - 1 = i by omega]
      exact hx.get
    cases hpushed with
    | none hnone =>
      rw [hnone x w hlast hw] at hk
      cases hk
    | push _ _ _ =>
      simp only [List.getLast?_append, List.getLast?_singleton, Option.some_or,
        Option.some.injEq] at hlast
      subst hlast
      cases hw

/-! ### Interpolations -/

/-- Whatever the interpolation returns, the interpolation of the reference's state at `t` to `t`
    returns. -/
def Interpolates (R : Reference T) (t : Time T) (i : Interpolating T) : Prop :=
  ∃ w, R.StateAt t w ∧ ∀ state, Returns i state →
    Returns (interpolate w.transposer t w.metadata.lastUpdated.time) state

/-- What a pending interpolation goes on to return, it returns. -/
theorem pollInterpolation_pending {fuel : ℕ} {answers : List (Response T)}
    {i i' : Interpolating T} (h : pollInterpolation fuel answers i = .ok (.pending i'))
    {state : OutputState T} (hr : Returns i' state) : Returns i state := by
  induction fuel generalizing answers i with
  | zero => cases h
  | succ fuel ih =>
    simp only [pollInterpolation] at h
    cases hi : resumeInterpolation i with
    | done s => simp [hi] at h
    | next k =>
      simp only [hi] at h
      exact .next hi (ih h)
    | await k =>
      simp only [hi] at h
      -- without an answer the interpolation is left where it is
      cases answers with
      | nil =>
        simp only [Outcome.pure_eq, Outcome.ok.injEq, InterpolationPoll.pending.injEq] at h
        exact h ▸ hr
      | cons x answers => exact .await x hi (ih h)

/-- A state that a poll returns is one that the interpolation returns. -/
theorem pollInterpolation_ready {fuel : ℕ} {answers : List (Response T)} {i : Interpolating T}
    {state : OutputState T} (h : pollInterpolation fuel answers i = .ok (.ready state)) :
    Returns i state := by
  induction fuel generalizing answers i with
  | zero => cases h
  | succ fuel ih =>
    simp only [pollInterpolation] at h
    cases hi : resumeInterpolation i with
    | done s =>
      simp only [hi, Outcome.pure_eq, Outcome.ok.injEq, InterpolationPoll.ready.injEq] at h
      exact h ▸ .done hi
    | next k =>
      simp only [hi] at h
      exact .next hi (ih h)
    | await k =>
      simp only [hi] at h
      cases answers with
      | nil => simp at h
      | cons x answers => exact .await x hi (ih h)

namespace NoInputTransposerSource

/-! ### The invariant -/

/-- The steps are on the line of the reference, and the interpolations are of its states. -/
structure StateInv (R : Reference T) (s : NoInputTransposerSource T) : Prop where
  sound : s.steps.Sound
  line : OnLine R Follows s.steps
  interpolations : InterpolationsMeet (Interpolates R) s.channelStatuses

namespace StateInv

variable {R : Reference T} {s s' : NoInputTransposerSource T} {time : Time T} {r : Round T}

/-- A new source is at the start of the line, and no channel waits. -/
theorem new (transposer : T) (startTime : Time T) (rngSeed : Seed T) :
    StateInv ⟨transposer, startTime, rngSeed⟩ (.new transposer startTime rngSeed) where
  sound := .new transposer startTime rngSeed
  line := .new transposer startTime rngSeed <| .of_saturating
    (g := WrappedTransposer.init transposer rngSeed startTime 0) (n := 0) rfl rfl (.refl _) rfl
  interpolations := .new

/-- Moves of the steps keep the invariant. -/
theorem moves (hd : Deterministic T) (h : StateInv R s) {pinnedTimes : List (Time T)}
    (hmoves : Relation.ReflTransGen (Steps.Move pinnedTimes) s.steps s'.steps)
    (hi : InterpolationsMeet (Interpolates R) s'.channelStatuses) : StateInv R s' := by
  obtain ⟨hs, hl⟩ := h.line.moves hd follows_invariant h.sound hmoves
  exact ⟨hs, hl, hi⟩

/-- What happens to the stack wakers keeps the invariant. -/
theorem afterWakerEvents (h : StateInv R s) (events : List (ℕ × StackWakerEvent)) :
    StateInv R (s.afterWakerEvents events) :=
  ⟨h.sound, h.line, h.interpolations.of_eq (afterWakerEvents_blocked _ events)⟩

/-- A new interpolation is one of the reference's state. -/
theorem interpolates (hd : Deterministic T) (h : StateInv R s) {steps : Steps T} {i : ℕ}
    {x : Step T} {w : WrappedTransposer T} (hpushed : Steps.Pushed s.steps steps)
    (hx : steps.LatestStep time i x) (hw : x.status = .saturated w) :
    Interpolates R time (interpolate w.transposer time w.metadata.lastUpdated.time) := by
  obtain ⟨hs, hl⟩ := h.line.moves hd follows_invariant h.sound (hpushed.moves [])
  obtain ⟨o, f, os, hpoint, hc, -, hnext⟩ := hl.latest hd follows_invariant hs hpushed hx hw
  obtain ⟨g, hrun, hready⟩ := hpoint.run_completes hc
  exact ⟨w, ⟨_, _, g, hrun, hready, hx.le, hnext⟩, fun _ hr => hr⟩

/-- **A round of `poll` keeps the invariant.** -/
theorem round (hd : Deterministic T) {channel : ℕ} {o : Option (SourcePollOf T (OutputState T))}
    (h : StateInv R s) (hround : RoundCases time channel r s o s') : StateInv R s' := by
  refine h.moves hd hround.moves (hround.interpolations h.interpolations ?_ ?_)
  · intro steps i x w hpushed hx hw
    exact h.interpolates hd hpushed hx hw
  · rintro t i i' ⟨w, hw, hreturns⟩ hi
    exact ⟨w, hw, fun state hr => hreturns state (pollInterpolation_pending hi hr)⟩

section Build

variable [BuildProfile]

/-- The invariant holds before every round of `poll`. -/
theorem pollRound (hd : Deterministic T) {channel : ℕ}
    {o : Option (SourcePollOf T (OutputState T))} (h : StateInv R s)
    (hround : NoInputTransposerSource.pollRound time channel r s = .ok (o, s')) :
    StateInv R s' :=
  (h.afterWakerEvents r.wakerEvents).round hd (pollRound_cases h.sound hround)

/-- The invariant holds before every round of `poll_events`. -/
theorem pollEventsRound (hd : Deterministic T) {pinnedTimes : List (Time T)}
    {o : Option (SourcePollOf T Unit)} (h : StateInv R s)
    (hround : NoInputTransposerSource.pollEventsRound time pinnedTimes r s = .ok (o, s')) :
    StateInv R s' := by
  have hcases := pollEventsRound_cases h.sound hround
  exact h.moves hd hcases.moves (hcases.channelStatuses ▸ h.interpolations)

/-- **Every call keeps the invariant.** -/
theorem call (hd : Deterministic T) (h : StateInv R s) {c : Call T} {reply : Reply T}
    (hc : s.call c = .ok (reply, s')) : StateInv R s' := by
  cases call_cases hc with
  -- the rounds before the last one keep it, and then that does
  | poll time channel rounds hp =>
    obtain ⟨r, t, ht, -, hround⟩ := Outcome.loop_ok (P := StateInv R) hp
      (.of_forall (fun _ _ => trivial) _ _) h (fun r t t' ht _ hround => ht.pollRound hd hround)
    exact ht.pollRound hd hround
  | pollEvents time rounds hp =>
    obtain ⟨r, t, ht, -, hround⟩ := Outcome.loop_ok (P := StateInv R) hp
      (.of_forall (fun _ _ => trivial) _ _) h
      (fun r t t' ht _ hround => ht.pollEventsRound hd hround)
    exact ht.pollEventsRound hd hround
  | releaseFree _ => exact h
  | release _ => exact ⟨h.sound, h.line, h.interpolations.vacate ChannelStatuses.abandon_blocked⟩
  | advance hq =>
    exact h.moves hd ((Steps.Call.Does.deleteBefore _ hq).moves h.sound) h.interpolations

/-- The invariant holds after every run. -/
theorem reachable (hd : Deterministic T) {meets : NoInputTransposerSource T → Call T → Prop}
    {transposer : T} {startTime : Time T} {rngSeed : Seed T} {history : List (Call T × Reply T)}
    (h : ReachableBy meets transposer startTime rngSeed history s) :
    StateInv ⟨transposer, startTime, rngSeed⟩ s := by
  induction h with
  | new => exact .new transposer startTime rngSeed
  | call c _ _ hc ih => exact ih.call hd hc

end Build

end StateInv

end NoInputTransposerSource

open NoInputTransposerSource in
/-- **The state a source returns for `t` is that of the reference at `t`**, after every run of
    calls: it is what `interpolate` returns at `t` for the transposer reached by `init` and
    everything due at or before `t`.  There is one such state, so nothing else matters to it. -/
theorem poll_state_refines [BuildProfile] (hd : Deterministic T) {transposer : T}
    {startTime : Time T} {rngSeed : Seed T} {history : List (Call T × Reply T)}
    {s s' : NoInputTransposerSource T}
    (h : Reachable transposer startTime rngSeed history s) {t : Time T} {channel : ℕ}
    {rounds : List (Round T)} {state : OutputState T} {next : Option (Time T)}
    (hp : s.poll t channel rounds = .ok (.ready state next, s')) :
    let R : Reference T := ⟨transposer, startTime, rngSeed⟩
    ∃ w, R.StateAt t w ∧ Returns (interpolate w.transposer t w.metadata.lastUpdated.time) state ∧
      ∀ w' state', R.StateAt t w' →
        Returns (interpolate w'.transposer t w'.metadata.lastUpdated.time) state' →
        w' = w ∧ state' = state := by
  intro R
  obtain ⟨r, u, hu, -, hround⟩ := Outcome.loop_ok (P := StateInv R) hp
    (.of_forall (fun _ _ => trivial) _ _) (StateInv.reachable hd h)
    (fun _ _ _ hu _ hr => hu.pollRound hd hr)
  have hcases := pollRound_cases hu.sound hround
  cases hcases with
  | interpolationReady hb hi =>
    -- the state is that of the interpolation the channel has waited for, not that of the steps now
    obtain ⟨w, hw, hreturns⟩ := (hu.afterWakerEvents r.wakerEvents).interpolations _ _ hb _ rfl
    have hstate := hreturns state (pollInterpolation_ready hi)
    refine ⟨w, hw, hstate, ?_⟩
    intro w' state' hw' hstate'
    obtain rfl := hw'.unique hd hw
    exact ⟨rfl, hstate'.unique hd hstate⟩

open NoInputTransposerSource in
/-- A poll at 7 after the events up to 10: the step at 0 has been left behind, and is asked
    again. -/
theorem poll_state_refines_script :
    let R : Reference Script := ⟨⟨[.schedule 10], [], [], 0⟩, (0 : ℕ), ()⟩
    ∃ w, R.StateAt (7 : ℕ) w ∧
      Returns (interpolate w.transposer (7 : ℕ) w.metadata.lastUpdated.time)
        ((1, 7) : ℕ × ℕ) ∧
      ∀ w' state', R.StateAt (7 : ℕ) w' →
        Returns (interpolate w'.transposer (7 : ℕ) w'.metadata.lastUpdated.time) state' →
        w' = w ∧ state' = ((1, 7) : ℕ × ℕ) := by
  let _ : BuildProfile := debugBuild
  let round : Round Script := ⟨[], 20, []⟩
  have hnew := @ReachableBy.new Script _ _ (fun _ _ => True) ⟨[.schedule 10], [], [], 0⟩ (0 : ℕ) ()
  have hevents := hnew.call (.pollEvents (10 : ℕ) [round, round, round]) trivial rfl
  exact @poll_state_refines Script _ _ Script.deterministic _ _ _ _ _ _ hevents (7 : ℕ) 0
    [round, round] _ none rfl

end Cozal
