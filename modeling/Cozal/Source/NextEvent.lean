import Cozal.Source.Events
import Cozal.Source.Waiting
import Cozal.Source.WalkBack

namespace Cozal

open Transposer

/-!
# The next event time

A poll that is ready also says when the next event may come.  `poll` reads it off the status of
the last step and `poll_events` off its flag; both find the first step of the reference that has
not run to completion.

* `Steps.RanToCompletion`, `Steps.Move.ranToCompletion_iff` — the steps that have run to
  completion, and the one move that adds to them.
* `Steps.MovesTo.ranToCompletion_iff` — after a run they are those that some move has completed.
* `Steps.Extended` — a completed last step has no next one.  It holds after every call.
* `Steps.Ahead` — what has not run to completion is later than a time.  It holds for every
  interpolation a channel waits for.
* `Steps.FirstIncomplete` — what the two paths compute.
* `next_event_at` — what they return, after every run.
-/

variable {T : Type} [Transposer T]

namespace Steps

variable {s s' : Steps T} {x x' : Step T}

/-! ### The steps that have run to completion -/

/-- The step has run to completion: it has been dropped since, or it may produce no more
    events. -/
def RanToCompletion (s : Steps T) (n : ℕ) : Prop :=
  n < s.numDeletedSteps ∨ ∃ x, s.getBySequenceNumber n = some x ∧ x.canProduceEvents = false

/-- All steps before the last one have, and that has once it is saturated. -/
theorem Sound.ranToCompletion_iff (h : s.Sound) (hx : s.steps.getLast? = some x) {n : ℕ} :
    s.RanToCompletion n ↔ n + 1 < s.numDeletedSteps + s.steps.length ∨
      n + 1 = s.numDeletedSteps + s.steps.length ∧ x.isSaturated = true := by
  have hpos := h.length_pos
  rw [List.getLast?_eq_getElem?] at hx
  have hcan := (h.last _ x hx (by omega)).canProduceEvents
  constructor
  · rintro (hlt | ⟨y, hy, hyc⟩)
    · exact Or.inl (by omega)
    · obtain ⟨i, rfl, hi⟩ := getBySequenceNumber_eq_some.mp hy
      have hlen := (List.getElem?_eq_some_iff.mp hi).1
      by_cases hlast : i = s.steps.length - 1
      · subst hlast
        rw [hx, Option.some.injEq] at hi
        subst hi
        rw [hcan, Bool.not_eq_false'] at hyc
        exact Or.inr ⟨by omega, hyc⟩
      · exact Or.inl (by omega)
  · rintro (hlt | ⟨heq, hsat⟩)
    · by_cases hn : n < s.numDeletedSteps
      · exact Or.inl hn
      · obtain ⟨i, rfl⟩ := Nat.exists_eq_add_of_le (not_lt.mp hn)
        obtain ⟨y, hy⟩ : ∃ y, s.steps[i]? = some y := ⟨_, List.getElem?_eq_getElem (by omega)⟩
        exact Or.inr ⟨y, getBySequenceNumber_eq_some.mpr ⟨i, rfl, hy⟩, h.past i y hy (by omega)⟩
    · refine Or.inr ⟨x, getBySequenceNumber_eq_some.mpr ⟨s.steps.length - 1, by omega, hx⟩, ?_⟩
      rw [hcan, hsat, Bool.not_true]

/-- No step has run to completion at the start. -/
theorem not_ranToCompletion_new (transposer : T) (startTime : Time T) (rngSeed : Seed T)
    (n : ℕ) : ¬ (Steps.new transposer startTime rngSeed).RanToCompletion n := by
  rw [(Sound.new transposer startTime rngSeed).ranToCompletion_iff rfl]
  rintro (hlt | ⟨-, hsat⟩)
  · simp only [Steps.new, List.length_singleton] at hlt
    omega
  · cases hsat

/-- The step of the number goes from saturating to saturated. -/
def CompletesAt (s s' : Steps T) (n : ℕ) : Prop :=
  ∃ x x', s.getBySequenceNumber n = some x ∧ x.isSaturating = true ∧
    s'.getBySequenceNumber n = some x' ∧ x'.isSaturated = true

/-- **A step runs to completion in the move that takes it from saturating to saturated**, and
    stays so whatever becomes of it. -/
theorem Move.ranToCompletion_iff {pinnedTimes : List (Time T)} (h : Move pinnedTimes s s')
    (hs : s.Sound) {n : ℕ} :
    s'.RanToCompletion n ↔ s.RanToCompletion n ∨ s.CompletesAt s' n := by
  obtain ⟨x, hx, hget, -⟩ := hs.exists_last
  obtain ⟨a, x', hx', hmoved, htotal⟩ := h.last hx
  have hs' := h.sound hs
  have hget' : s'.steps[s'.steps.length - 1]? = some x' := by
    rw [← List.getLast?_eq_getElem?, hx']
  have hpos := hs.length_pos
  have hpos' := hs'.length_pos
  rw [hs.ranToCompletion_iff hx, hs'.ranToCompletion_iff hx']
  constructor
  -- what has run to completion is read off the last step, so only a move of that one counts
  · intro hran
    cases hmoved with
    | same =>
      refine Or.inl ?_
      rwa [htotal] at hran
    | push hw _ =>
      refine Or.inl ?_
      have hsat : x.isSaturated = true := Step.isSaturated_iff.mpr ⟨_, hw⟩
      rcases hran with hlt | ⟨-, hsat'⟩
      · rcases Nat.lt_or_ge (n + 1) (s.numDeletedSteps + s.steps.length) with hlt' | hge
        · exact Or.inl hlt'
        · exact Or.inr ⟨by omega, hsat⟩
      · cases hsat'
    | start f _ =>
      rcases hran with hlt | ⟨-, hsat'⟩
      · exact Or.inl (Or.inl (by omega))
      · cases hsat'
    | poll hsaturating _ =>
      rcases hran with hlt | ⟨heq, hsat'⟩
      · exact Or.inl (Or.inl (by omega))
      · refine Or.inr ⟨x, _, ?_, hsaturating, ?_, hsat'⟩
        · exact getBySequenceNumber_eq_some.mpr ⟨s.steps.length - 1, by omega, hget⟩
        · exact getBySequenceNumber_eq_some.mpr ⟨s'.steps.length - 1, by omega, hget'⟩
  · rintro ((hlt | ⟨heq, hsat⟩) | ⟨y, y', -, -, hy', hsat'⟩)
    · exact Or.inl (by omega)
    · cases hmoved with
      | same => exact Or.inr ⟨by omega, hsat⟩
      | push _ _ => exact Or.inl (by omega)
      | start f hu => simp [Step.isSaturated, hu] at hsat
      | poll hsaturating _ =>
        obtain ⟨w, hw⟩ := Step.isSaturated_iff.mp hsat
        exact absurd hw (isSaturating_ne_saturated hsaturating w)
    -- a step that is saturated after the move is the last one or lies before it
    · obtain ⟨i, hn, hi⟩ := getBySequenceNumber_eq_some.mp hy'
      have hlen := (List.getElem?_eq_some_iff.mp hi).1
      by_cases hlast : i = s'.steps.length - 1
      · subst hlast
        rw [hget', Option.some.injEq] at hi
        exact Or.inr ⟨by omega, hi ▸ hsat'⟩
      · exact Or.inl (by omega)

/-- A step that has run to completion stays so, whatever is moved. -/
theorem RanToCompletion.movesTo {n : ℕ} (h : s.RanToCompletion n) (hs : s.Sound)
    (hmoves : s.MovesTo s') : s'.RanToCompletion n := by
  induction hmoves with
  | refl => exact h
  | tail hmoves hmove ih =>
    obtain ⟨pinnedTimes, hmove⟩ := hmove
    exact (hmove.ranToCompletion_iff (MovesTo.sound hmoves hs)).mpr (Or.inl ih)

/-- **The steps that have run to completion** are those that some move has completed. -/
theorem MovesTo.ranToCompletion_iff {transposer : T} {startTime : Time T} {rngSeed : Seed T}
    (h : (Steps.new transposer startTime rngSeed).MovesTo s) {n : ℕ} :
    s.RanToCompletion n ↔ ∃ pinnedTimes u u',
      (Steps.new transposer startTime rngSeed).MovesTo u ∧ Move pinnedTimes u u' ∧
      u.CompletesAt u' n ∧ u'.MovesTo s := by
  have hnew := Sound.new transposer startTime rngSeed
  constructor
  · intro hran
    induction h with
    | refl => exact absurd hran (not_ranToCompletion_new transposer startTime rngSeed n)
    | @tail u u' hmoves hmove ih =>
      obtain ⟨pinnedTimes, hmove⟩ := hmove
      rcases (hmove.ranToCompletion_iff (MovesTo.sound hmoves hnew)).mp hran with hran | hcompletes
      · -- an earlier move has completed it
        obtain ⟨p, v, v', hv, hmove', hcompletes, hv'⟩ := ih hran
        exact ⟨p, v, v', hv, hmove', hcompletes, hv'.tail ⟨pinnedTimes, hmove⟩⟩
      · exact ⟨pinnedTimes, u, u', hmoves, hmove, hcompletes, .refl⟩
  · rintro ⟨pinnedTimes, u, u', hu, hmove, hcompletes, hu'⟩
    have hsound := hu.sound hnew
    have hran := (hmove.ranToCompletion_iff hsound).mpr (Or.inr hcompletes)
    exact hran.movesTo (hmove.sound hsound) hu'

/-! ### A completed last step is extended -/

/-- A last step that has completed has no next one: else that would be the last one. -/
def Extended (s : Steps T) : Prop :=
  ∀ x w, s.steps.getLast? = some x → x.status = .saturated w →
    w.metadata.getNextScheduledTime = none

/-- The last step has no next one to push unless it is saturated. -/
theorem extended_of_not_saturated (hx : s.steps.getLast? = some x)
    (hunsat : x.isSaturated = false) : s.Extended := by
  intro y w hy hw
  rw [hx, Option.some.injEq] at hy
  subst hy
  rw [Step.isSaturated_iff.mpr ⟨w, hw⟩] at hunsat
  cases hunsat

/-- Only the last step matters. -/
theorem Extended.of_last (h : s.Extended) (hx : s.steps.getLast? = some x)
    (hx' : s'.steps.getLast? = some x) : s'.Extended := by
  intro y w hy hw
  rw [hx', Option.some.injEq] at hy
  subst hy
  exact h x w hx hw

/-- A next step that exists has been pushed. -/
theorem Pushed.extended (h : Pushed s s') : s'.Extended := by
  cases h with
  | none hnone => exact hnone
  | push _ _ _ => exact extended_of_not_saturated List.getLast?_concat rfl

/-- Starting a step leaves none to be pushed. -/
theorem SaturateCases.extended (h : s.Extended) (hs : s.Sound) {pinnedTimes : List (Time T)}
    {j : ℕ} {step : Step T} {w : WrappedTransposer T}
    (hcases : SaturateCases s pinnedTimes j step w s') (hstep : s.steps[j + 1]? = some step)
    (hunsat : step.status = .unsaturated) : s'.Extended := by
  obtain ⟨x, hx, -, -⟩ := hs.exists_last
  rcases hcases.last hstep hunsat hx with hsame | ⟨-, f, hstarted⟩
  · exact h.of_last hx hsame
  · exact extended_of_not_saturated hstarted rfl

/-- `get_before_or_at` leaves no step to be pushed. -/
theorem BeforeCases.extended (h : s.Extended) (hs : s.Sound) {pinnedTimes : List (Time T)}
    {t : Time T} {r : Except Unit (BeforeStatus T)} (hcases : BeforeCases s pinnedTimes t r s') :
    s'.Extended := by
  cases hcases with
  | before _ | saturated _ _ _ | saturating _ _ | previous _ _ _ _ => exact h
  | start hlatest hunsat _ _ hsat _ => exact hsat.extended h hs hlatest.get hunsat

/-- `get_before_or_at_events` leaves no step to be pushed. -/
theorem EventsCases.extended (h : s.Extended) (hs : s.Sound) {pinnedTimes : List (Time T)}
    {t : Time T} {r : BeforeStatusEvents T} (hcases : EventsCases s pinnedTimes t r s') :
    s'.Extended := by
  cases hcases with
  | ready _ _ | saturating _ _ _ => exact h
  | @start j x _ _ _ hx _ hunsat hj _ _ hsat =>
    refine hsat.extended h hs ?_ hunsat
    rw [show j + 1 = s.steps.length - 1 by omega]
    exact hx

/-- A poll of a step that does not complete it. -/
theorem Extended.poll (h : s.Extended) (hs : s.Sound) {i fuel : ℕ} {step : Step T}
    {answers : List (Response T)} {p : StepPolled T} {result : StepPoll T}
    (hstep : s.steps[i]? = some step) (hp : step.poll fuel answers = .ok p)
    (hr : p.result = .ok result) (hne : result ≠ .ready) :
    (s.setStep i p.step).Extended := by
  obtain ⟨x, hx, hget, -⟩ := hs.exists_last
  by_cases hlast : i = s.steps.length - 1
  · subst hlast
    have hpolled := (polled hp hr).2.2 hne
    refine extended_of_not_saturated (x := p.step) ?_ ?_
    · rw [List.getLast?_eq_getElem?, length_setStep]
      exact getElem?_setStep_self hstep _
    · obtain ⟨f, a, ch, hst⟩ := Step.isSaturating_iff.mp hpolled
      simp only [Step.isSaturated, hst]
  · refine h.of_last hx ?_
    rw [List.getLast?_eq_getElem?, length_setStep]
    exact (getElem?_setStep_of_ne (Ne.symm hlast) _).trans hget

/-! ### What has not run to completion is later -/

/-- What has not run to completion is later than `t`: the last step, or the one that follows
    it. -/
def Ahead (s : Steps T) (t : Time T) : Prop :=
  ∃ x, s.steps.getLast? = some x ∧ (t < x.getTime ∨
    ∃ w, x.status = .saturated w ∧ ∀ k, w.metadata.getNextScheduledTime = some k → t < k.time)

/-- If what is incomplete is later once the next step is pushed, it was later before. -/
theorem Ahead.of_pushed {t : Time T} (hpushed : Pushed s s') (h : s'.Ahead t) : s.Ahead t := by
  cases hpushed with
  | none _ => exact h
  | @push last w k hlast hw hk =>
    obtain ⟨x, hx, hlater⟩ := h
    simp only [List.getLast?_concat, Option.some.injEq] at hx
    subst hx
    refine ⟨last, hlast, Or.inr ⟨w, hw, ?_⟩⟩
    intro k' hk'
    rw [hk, Option.some.injEq] at hk'
    subst hk'
    rcases hlater with hlt | ⟨w', hw', -⟩
    · exact hlt
    · cases hw'

/-- A move leaves what is incomplete later. -/
theorem Ahead.move {t : Time T} {pinnedTimes : List (Time T)} (h : s.Ahead t) (hs : s.Sound)
    (hmove : Move pinnedTimes s s') : s'.Ahead t := by
  obtain ⟨x, hx, hlater⟩ := h
  obtain ⟨a, x', hx', hmoved, -⟩ := hmove.last hx
  refine ⟨x', hx', ?_⟩
  cases hmoved with
  | same => exact hlater
  | @push w k hw hk =>
    -- the step that is pushed is later than the one that was the last
    refine Or.inl ?_
    show t < k.time
    rcases hlater with hlt | ⟨w', hw', hnext⟩
    · obtain ⟨y, hy, -, hlast⟩ := hs.exists_last
      rw [hx, Option.some.injEq] at hy
      subst hy
      simp only [LastStep, hw] at hlast
      exact hlt.trans (hlast.2.next_lt hk)
    · rw [hw, StepStatus.saturated.injEq] at hw'
      subst hw'
      exact hnext k hk
  | start f hu =>
    rcases hlater with hlt | ⟨w, hw, -⟩
    · exact Or.inl hlt
    · rw [hu] at hw
      cases hw
  | poll hsat hp =>
    rcases hlater with hlt | ⟨w, hw, -⟩
    · obtain ⟨f, b, ch, hst⟩ := Step.isSaturating_iff.mp hsat
      rw [Step.getTime_eq (Step.poll_run hst hp).1]
      exact Or.inl hlt
    · exact absurd hw (isSaturating_ne_saturated hsat w)

/-- So do several moves. -/
theorem Ahead.moves {t : Time T} {pinnedTimes : List (Time T)} (h : s.Ahead t) (hs : s.Sound)
    (hmoves : Relation.ReflTransGen (Move pinnedTimes) s s') : s'.Ahead t := by
  induction hmoves with
  | refl => exact h
  | tail hmoves hmove ih => exact ih.move (sound_of_moves hmoves hs) hmove

/-- When the last step before or at `t` has completed, so has everything up to `t`. -/
theorem LatestStep.ahead {t : Time T} {i : ℕ} {w : WrappedTransposer T} (hs : s.Sound)
    (h : s.Extended) (hlatest : s.LatestStep t i x) (hw : x.status = .saturated w) :
    s.Ahead t := by
  obtain ⟨y, hy, hget, -⟩ := hs.exists_last
  refine ⟨y, hy, ?_⟩
  by_cases hlt : t < y.getTime
  · exact Or.inl hlt
  · obtain ⟨-, rfl⟩ := hlatest.eq_last hget (not_lt.mp hlt)
    refine Or.inr ⟨w, hw, ?_⟩
    intro k hk
    rw [h x w hy hw] at hk
    cases hk

/-! ### What the two paths compute -/

/-- The time of the first step of the reference that has not run to completion, and none when
    all have. -/
structure FirstIncomplete (R : Reference T) (s : Steps T) (next : Option (Time T)) : Prop where
  some_iff : ∀ u, next = some u ↔
    ∃ n o f, R.Point n o u f ∧ ¬ s.RanToCompletion n ∧ ∀ m < n, s.RanToCompletion m
  none_iff : next = none ↔ ∀ n o u f, R.Point n o u f → s.RanToCompletion n

/-- It is the last step until that is saturated, and then there is none. -/
theorem firstIncomplete (hd : Deterministic T) {R : Reference T} (hs : s.Sound)
    (hline : OnLine R Follows s) (h : s.Extended) (hx : s.steps.getLast? = some x) :
    FirstIncomplete R s (if x.isSaturated then none else some x.getTime) := by
  have hpos := hs.length_pos
  have hran := fun n => hs.ranToCompletion_iff hx (n := n)
  have hget : s.steps[s.steps.length - 1]? = some x := by rw [← List.getLast?_eq_getElem?, hx]
  obtain ⟨o, f, hpoint, -, hfollows⟩ := hline _ x hget
  cases hsat : x.isSaturated with
  | true =>
    -- no step of the reference follows the last one
    obtain ⟨w, hw⟩ := Step.isSaturated_iff.mp hsat
    obtain ⟨os, hc⟩ := hfollows.saturated w hw
    have hall : ∀ n o' u f', R.Point n o' u f' → s.RanToCompletion n := by
      intro n o' u f' hn
      have hle := hpoint.le_of_completes hd hc (h x w hx hw) hn
      refine (hran n).mpr ?_
      by_cases hlt : n + 1 < s.numDeletedSteps + s.steps.length
      · exact Or.inl hlt
      · exact Or.inr ⟨by omega, hsat⟩
    refine ⟨?_, by simpa using hall⟩
    intro u
    refine ⟨fun hsome => by simp at hsome, ?_⟩
    rintro ⟨n, o', f', hn, hnot, -⟩
    exact absurd (hall n o' u f' hn) hnot
  | false =>
    have hfirst : ∀ n, s.RanToCompletion n ↔ n < s.numDeletedSteps + (s.steps.length - 1) := by
      intro n
      rw [hran n, hsat]
      simp only [Bool.false_eq_true, and_false, or_false]
      omega
    simp only [Bool.false_eq_true, if_false]
    refine ⟨?_, ?_⟩
    · intro u
      constructor
      · rintro hu
        cases hu
        refine ⟨_, o, f, hpoint, ?_, ?_⟩
        · rw [hfirst]
          exact Nat.lt_irrefl _
        · intro m hm
          exact (hfirst m).mpr hm
      · rintro ⟨n, o', f', hn, hnot, hbefore⟩
        rw [hfirst] at hnot
        obtain rfl : n = s.numDeletedSteps + (s.steps.length - 1) := by
          rcases Nat.lt_or_ge (s.numDeletedSteps + (s.steps.length - 1)) n with hlt | hge
          · exact absurd ((hfirst _).mp (hbefore _ hlt)) (Nat.lt_irrefl _)
          · omega
        obtain ⟨-, rfl, -⟩ := hpoint.unique hd hn
        rfl
    · refine ⟨fun hnone => by simp at hnone, ?_⟩
      intro hall
      exact absurd ((hfirst _).mp (hall _ o _ f hpoint)) (Nat.lt_irrefl _)

/-- There is one such time, whatever else there is to the steps. -/
theorem FirstIncomplete.unique {R : Reference T} {next next' : Option (Time T)}
    (h : FirstIncomplete R s next) (h' : FirstIncomplete R s' next')
    (hran : ∀ n, s.RanToCompletion n ↔ s'.RanToCompletion n) : next = next' := by
  cases next with
  | none =>
    refine (h'.none_iff.mpr ?_).symm
    intro n o u f hn
    exact (hran n).mp (h.none_iff.mp rfl n o u f hn)
  | some u =>
    obtain ⟨n, o, f, hn, hnot, hbefore⟩ := (h.some_iff u).mp rfl
    refine ((h'.some_iff u).mpr ⟨n, o, f, hn, ?_, ?_⟩).symm
    · rwa [← hran n]
    · intro m hm
      exact (hran m).mp (hbefore m hm)

end Steps

namespace NoInputTransposerSource

/-! ### Every round -/

variable {s s' : NoInputTransposerSource T} {time : Time T} {r : Round T}

/-- For every interpolation a channel waits for, what has not run to completion is later. -/
abbrev InterpolationsAhead (s : NoInputTransposerSource T) : Prop :=
  InterpolationsMeet (fun t _ => s.steps.Ahead t) s.channelStatuses

/-- What is incomplete stays later than the times of the interpolations, whatever is moved. -/
theorem InterpolationsAhead.moves (h : s.InterpolationsAhead) (hs : s.steps.Sound)
    {pinnedTimes : List (Time T)} {steps : Steps T}
    (hmoves : Relation.ReflTransGen (Steps.Move pinnedTimes) s.steps steps) :
    InterpolationsMeet (fun t _ => steps.Ahead t) s.channelStatuses :=
  h.imp fun _ _ _ hb i hi => (hb i hi).moves hs hmoves

/-- What happens to the stack wakers does not matter to the interpolations. -/
theorem InterpolationsAhead.afterWakerEvents (h : s.InterpolationsAhead)
    (events : List (ℕ × StackWakerEvent)) : (s.afterWakerEvents events).InterpolationsAhead :=
  h.of_eq (afterWakerEvents_blocked s events)

/-- A new interpolation starts when the last step before or at its time has completed. -/
theorem RoundCases.ahead {channel : ℕ} {o : Option (SourcePollOf T (OutputState T))}
    (hround : RoundCases time channel r s o s') (hs : s.steps.Sound)
    (h : s.InterpolationsAhead) : s'.InterpolationsAhead := by
  refine hround.interpolations (h.moves hs hround.moves) ?_ (fun _ _ _ hahead _ => hahead)
  intro steps i x w hpushed hlatest hw
  have hahead := hlatest.ahead (hpushed.sound hs) hpushed.extended hw
  exact (hahead.of_pushed hpushed).moves hs hround.moves

/-- **A completed last step is extended before a poll returns**: the round in which it completes
    leaves the channel free, so that the next round looks for the step again. -/
theorem RoundCases.extended {channel : ℕ} {o : Option (SourcePollOf T (OutputState T))}
    (hround : RoundCases time channel r s o s') (hs : s.steps.Sound)
    (h : s.steps.Extended ∨ s.channelStatuses.blockedCallerChannels.get channel = none) :
    s'.steps.Extended ∨
      o = none ∧ s'.channelStatuses.blockedCallerChannels.get channel = none := by
  have hwaits : ∀ {b}, s.channelStatuses.blockedCallerChannels.get channel = some b →
      s.steps.Extended := by
    intro b hb
    refine h.resolve_right ?_
    rw [hb]
    exact Option.some_ne_none b
  cases hround with
  | abandon hb _ | interpolationPending hb _ | interpolationReady hb _ | repeatWaits hb _ =>
    exact Or.inl (hwaits hb)
  | interpolate _ hpushed _ _ => exact Or.inl hpushed.extended
  | wait _ hpushed hcases _ => exact Or.inl (hcases.extended hpushed.extended (hpushed.sound hs))
  | originalEmitted hb hstep hp hr =>
    exact Or.inl ((hwaits hb).poll hs hstep hp hr (by simp))
  | originalPending hb hstep hp hr =>
    exact Or.inl ((hwaits hb).poll hs hstep hp hr (by simp))
  | repeatPending hb _ hstep _ hp hr =>
    exact Or.inl ((hwaits hb).poll hs hstep hp hr (by simp))
  | originalReady _ _ _ _ =>
    refine Or.inr ⟨rfl, ?_⟩
    simp [ChannelStatuses.vacate]
  | repeatReady _ _ _ hreg _ _ =>
    refine Or.inr ⟨rfl, ?_⟩
    rw [ChannelStatuses.abandon_registered hreg, OrdMap.get_remove, if_pos rfl]

section Build

variable [BuildProfile]

/-- A round of `poll_events` pushes the next step first. -/
theorem EventsRoundCases.extended {pinnedTimes : List (Time T)} {q : SourcePollOf T Unit}
    (hround : EventsRoundCases time pinnedTimes r s (some q) s') (hs : s.steps.Sound) :
    s'.steps.Extended := by
  cases hround with
  | ready hpushed _ _ => exact hpushed.extended
  | emitted hpushed hcases hstep hp hr | pending hpushed hcases hstep hp hr =>
    have hs₁ := hpushed.sound hs
    exact (hcases.extended hpushed.extended hs₁).poll
      (Steps.sound_of_moves hcases.moves hs₁) hstep hp hr (by simp)

end Build

/-! ### Every run -/

/-- What holds between two calls: a completed last step is extended, and what has not run to
    completion is later than the times of the interpolations. -/
structure NextInv (s : NoInputTransposerSource T) : Prop where
  sound : s.steps.Sound
  extended : s.steps.Extended
  ahead : s.InterpolationsAhead

/-- What holds between two rounds of a poll of a channel. -/
structure NextRoundInv (channel : ℕ) (s : NoInputTransposerSource T) : Prop where
  sound : s.steps.Sound
  extended : s.steps.Extended ∨ s.channelStatuses.blockedCallerChannels.get channel = none
  ahead : s.InterpolationsAhead

/-- A new source has one step, and no channel waits for an interpolation. -/
theorem NextInv.new (transposer : T) (startTime : Time T) (rngSeed : Seed T) :
    NextInv (.new transposer startTime rngSeed) where
  sound := .new transposer startTime rngSeed
  extended := Steps.extended_of_not_saturated rfl rfl
  ahead := .new

section Build

variable [BuildProfile]

/-- A round of `poll` keeps what holds between its rounds, and one that returns leaves what holds
    between calls. -/
theorem NextRoundInv.pollRound {channel : ℕ} {o : Option (SourcePollOf T (OutputState T))}
    (h : NextRoundInv channel s) (hround : pollRound time channel r s = .ok (o, s')) :
    NextRoundInv channel s' ∧ (o ≠ none → NextInv s') := by
  have hcases := pollRound_cases h.sound hround
  have hs : s'.steps.Sound := pollRound_sound h.sound hround
  have hahead := hcases.ahead h.sound (h.ahead.afterWakerEvents r.wakerEvents)
  have hext := hcases.extended h.sound (by
    rw [afterWakerEvents_blocked]
    exact h.extended)
  refine ⟨⟨hs, hext.imp_right And.right, hahead⟩, ?_⟩
  intro hne
  exact ⟨hs, hext.resolve_right fun hnone => hne hnone.1, hahead⟩

/-- The round in which a poll returns. -/
theorem NextInv.poll_last {channel : ℕ} {rounds : List (Round T)}
    {p : SourcePollOf T (OutputState T)} (h : NextInv s)
    (hp : s.poll time channel rounds = .ok (p, s')) :
    ∃ r u, NextRoundInv channel u ∧
      NoInputTransposerSource.pollRound time channel r u = .ok (some p, s') := by
  obtain ⟨r, u, hu, -, hround⟩ := Outcome.loop_ok (P := NextRoundInv channel) hp
    (.of_forall (fun _ _ => trivial) _ _) ⟨h.sound, Or.inl h.extended, h.ahead⟩
    (fun _ _ _ hu _ hr => (hu.pollRound hr).1)
  exact ⟨r, u, hu, hround⟩

/-- The round in which `poll_events` returns. -/
theorem NextInv.pollEvents_last {rounds : List (Round T)} {p : SourcePollOf T Unit}
    (h : NextInv s) (hp : s.pollEvents time rounds = .ok (p, s')) :
    ∃ pinnedTimes r u, u.steps.Sound ∧ u.InterpolationsAhead ∧
      EventsRoundCases time pinnedTimes r u (some p) s' := by
  obtain ⟨r, u, ⟨hu, hahead⟩, -, hround⟩ := Outcome.loop_ok
    (P := fun u => u.steps.Sound ∧ u.InterpolationsAhead) hp
    (.of_forall (fun _ _ => trivial) _ _) ⟨h.sound, h.ahead⟩ (by
      rintro r u u' ⟨hu, hahead⟩ - hr
      have hcases := pollEventsRound_cases hu hr
      refine ⟨pollEventsRound_sound hu hr, ?_⟩
      show InterpolationsMeet _ u'.channelStatuses
      rw [hcases.channelStatuses]
      exact hahead.moves hu hcases.moves)
  exact ⟨_, r, u, hu, hahead, pollEventsRound_cases hu hround⟩

/-- **Every call keeps what holds between calls.** -/
theorem NextInv.call (h : NextInv s) {c : Call T} {reply : Reply T}
    (hc : s.call c = .ok (reply, s')) : NextInv s' := by
  cases call_cases hc with
  | poll time channel rounds hp =>
    obtain ⟨r, u, hu, hround⟩ := h.poll_last hp
    exact (hu.pollRound hround).2 (by simp)
  | pollEvents time rounds hp =>
    obtain ⟨pinnedTimes, r, u, hu, hahead, hcases⟩ := h.pollEvents_last hp
    refine ⟨Steps.sound_of_moves hcases.moves hu, hcases.extended hu, ?_⟩
    show InterpolationsMeet _ s'.channelStatuses
    rw [hcases.channelStatuses]
    exact hahead.moves hu hcases.moves
  | releaseFree _ => exact h
  | release _ =>
    exact ⟨h.sound, h.extended, h.ahead.vacate ChannelStatuses.abandon_blocked⟩
  | @advance time q steps hq =>
    have hmoves := (Steps.Call.Does.deleteBefore _ hq).moves h.sound
    refine ⟨Steps.sound_of_moves hmoves h.sound, ?_, h.ahead.moves h.sound hmoves⟩
    obtain ⟨x, hx, -, -⟩ := h.sound.exists_last
    rcases Steps.deleteBefore_cases h.sound hq with ⟨-, rfl⟩ | ⟨-, i, y, hy, -, rfl, -⟩
    · exact h.extended
    · exact h.extended.of_last hx (Steps.last_forget time hy hx)

/-- It holds after every run. -/
theorem NextInv.reachable {meets : NoInputTransposerSource T → Call T → Prop} {transposer : T}
    {startTime : Time T} {rngSeed : Seed T} {history : List (Call T × Reply T)}
    (h : ReachableBy meets transposer startTime rngSeed history s) : NextInv s := by
  induction h with
  | new => exact .new transposer startTime rngSeed
  | call c _ _ hc ih => exact ih.call hc

end Build

/-! ### What a poll that is ready returns -/

/-- `get_scheduled_time` looks at the status of the last step. -/
theorem getScheduledTime_eq {steps : Steps T} {x : Step T} (hx : steps.steps.getLast? = some x) :
    steps.getScheduledTime = .ok (if x.isSaturated then none else some x.getTime) := by
  simp only [Steps.getScheduledTime, Steps.getLast_ok.mpr hx, Outcome.ok_bind, Outcome.pure_eq]

section Build

variable [BuildProfile]

/-- A round of `poll` that returns a state reads the next event time off the steps it found. -/
theorem pollRound_ready {channel : ℕ} {state : OutputState T} {next : Option (Time T)}
    (hs : s.steps.Sound)
    (hround : pollRound time channel r s = .ok (some (.ready state next), s')) :
    s'.steps = s.steps ∧ s.steps.getScheduledTime = .ok next ∧
      ∃ i, s.channelStatuses.blockedCallerChannels.get channel
        = some ⟨time, .interpolationFuture i⟩ := by
  cases pollRound_cases hs hround with
  | @interpolationReady i _ _ hb hi =>
    rw [afterWakerEvents_blocked] at hb
    refine ⟨rfl, ?_, i, hb⟩
    have hstatus : (s.afterWakerEvents r.wakerEvents).channelStatuses.getChannelStatus channel
        = .ok (.interpolationFuture time i) := by
      simp [ChannelStatuses.getChannelStatus, hb]
    simp only [pollRound, hstatus, Outcome.ok_bind, ne_eq, not_true_eq_false, if_false,
      pollInterpolationFuture, hi, Outcome.bind_eq_ok, Outcome.pure_eq, Outcome.ok.injEq,
      Prod.mk.injEq, Option.some.injEq] at hround
    obtain ⟨_, ⟨next', hnext, rfl⟩, heq, -⟩ := hround
    cases heq
    exact hnext

/-- `poll_events` has nothing to do before a last step that is extended: it returns, and leaves
    the source as it is. -/
theorem NextInv.pollEvents_ready (h : NextInv s) {x : Step T}
    (hx : s.steps.steps.getLast? = some x) (hlater : x.isSaturated = false → time < x.getTime)
    (rounds : List (Round T)) :
    s.pollEvents time (r :: rounds)
      = .ok (.ready () (if x.isSaturated then none else some x.getTime), s) := by
  have hpos := h.sound.length_pos
  have hpush : s.steps.tryNextScheduled = .ok s.steps :=
    (Steps.Pushed.none h.extended).tryNextScheduled h.sound
  have hlast := hx
  rw [List.getLast?_eq_getElem?] at hlast
  have hcan := (h.sound.last _ x hlast (by omega)).canProduceEvents
  have hcond : time < x.getTime ∨ x.canProduceEvents = false := by
    cases hsat : x.isSaturated with
    | true => exact Or.inr (by rw [hcan, hsat, Bool.not_true])
    | false => exact Or.inl (hlater hsat)
  have hget : s.steps.getBeforeOrAtEvents time s.channelStatuses.getPinnedTimes
      = .ok (.ready (if x.canProduceEvents then some x.getTime else none), s.steps) := by
    simp only [Steps.getBeforeOrAtEvents, h.sound.debugAssertions_returns, hpush,
      Steps.maxSequenceNumber, usizeSub_of_le (show 1 ≤ s.steps.numDeletedSteps
        + s.steps.steps.length by omega), Steps.getLast_ok.mpr hx, Outcome.ok_bind, if_pos hcond,
      Outcome.pure_eq]
  simp only [pollEvents, Outcome.loop, pollEventsRound, hget, Outcome.ok_bind, Outcome.pure_eq,
    hcan, Bool.not_eq_true']
  cases x.isSaturated <;> rfl

/-- What a poll for a time that is ready returns as the time of the next event: that of the first
    step that has not run to completion, which is later.  For any time before that `poll_events`
    returns the same at once. -/
structure ReportsNext (R : Reference T) (s : NoInputTransposerSource T) (time : Time T)
    (next : Option (Time T)) : Prop where
  first : Steps.FirstIncomplete R s.steps next
  later : ∀ u, next = some u → time < u
  again : ∀ time' r rounds, (∀ u, next = some u → time' < u) →
    s.pollEvents time' (r :: rounds) = .ok (.ready () next, s)

/-- It is what both paths make of the last step. -/
theorem NextInv.reportsNext (hd : Deterministic T) {R : Reference T} (h : NextInv s)
    (hline : OnLine R Follows s.steps) {x : Step T} (hx : s.steps.steps.getLast? = some x)
    (hlater : x.isSaturated = false → time < x.getTime) :
    ReportsNext R s time (if x.isSaturated then none else some x.getTime) where
  first := Steps.firstIncomplete hd h.sound hline h.extended hx
  later := by
    intro u hu
    cases hsat : x.isSaturated with
    | true => simp [hsat] at hu
    | false =>
      simp only [hsat, Bool.false_eq_true, if_false, Option.some.injEq] at hu
      exact hu ▸ hlater hsat
  again := by
    intro time' r rounds htime
    refine h.pollEvents_ready hx ?_ rounds
    intro hsat
    exact htime _ (by simp [hsat])

/-- `poll` reads the status of the last step, and so before that step has completed: the
    interpolation it resumes has been started with the steps before or at its time completed. -/
theorem NextInv.poll_reportsNext (hd : Deterministic T) {R : Reference T} (h : NextInv s)
    (hline : OnLine R Follows s'.steps) {channel : ℕ} {rounds : List (Round T)}
    {state : OutputState T} {next : Option (Time T)}
    (hp : s.poll time channel rounds = .ok (.ready state next, s')) :
    ReportsNext R s' time next := by
  obtain ⟨r, u, hu, hround⟩ := h.poll_last hp
  obtain ⟨hsteps, hnext, i, hb⟩ := pollRound_ready hu.sound hround
  obtain ⟨x, hx, hahead⟩ := hu.ahead _ _ hb i rfl
  rw [getScheduledTime_eq hx, Outcome.ok.injEq] at hnext
  subst hnext
  rw [← hsteps] at hx
  refine ((hu.pollRound hround).2 (by simp)).reportsNext hd hline hx ?_
  intro hunsat
  refine hahead.resolve_right ?_
  rintro ⟨w, hw, -⟩
  rw [Step.isSaturated_iff.mpr ⟨w, hw⟩] at hunsat
  cases hunsat

/-- `poll_events` reads the flag of the last step, which says the same as the status. -/
theorem NextInv.pollEvents_reportsNext (hd : Deterministic T) {R : Reference T} (h : NextInv s)
    (h' : NextInv s') (hline : OnLine R Follows s'.steps) {rounds : List (Round T)}
    {next : Option (Time T)} (hp : s.pollEvents time rounds = .ok (.ready () next, s')) :
    ReportsNext R s' time next := by
  obtain ⟨pinnedTimes, r, u, hu, -, hcases⟩ := h.pollEvents_last hp
  cases hcases with
  | @ready steps x hpushed hx hcond =>
    have hs := hpushed.sound hu
    have hpos := hs.length_pos
    have hcan := (hs.last _ x hx (by omega)).canProduceEvents
    have hlast : steps.steps.getLast? = some x := by rw [List.getLast?_eq_getElem?, hx]
    have hlater : x.isSaturated = false → time < x.getTime := by
      intro hunsat
      refine hcond.resolve_right ?_
      rw [hcan, hunsat]
      decide
    have hreports := h'.reportsNext hd hline hlast hlater
    rw [hcan]
    cases hsat : x.isSaturated <;> simpa [hsat] using hreports

/-- A call of some run, a poll of any channel or of the events, that is ready: the time it is for,
    the time of the next event it returns and the source it leaves behind. -/
inductive Ready (transposer : T) (startTime : Time T) (rngSeed : Seed T) :
    Time T → Option (Time T) → NoInputTransposerSource T → Prop where
  | poll {history s time channel rounds state next s'} :
      Reachable transposer startTime rngSeed history s →
      s.poll time channel rounds = .ok (.ready state next, s') →
      Ready transposer startTime rngSeed time next s'
  | pollEvents {history s time rounds next s'} :
      Reachable transposer startTime rngSeed history s →
      s.pollEvents time rounds = .ok (.ready () next, s') →
      Ready transposer startTime rngSeed time next s'

/-- A poll that is ready ends a run. -/
theorem Ready.reachable {transposer : T} {startTime : Time T} {rngSeed : Seed T}
    {next : Option (Time T)} (h : Ready transposer startTime rngSeed time next s) :
    ∃ history, Reachable transposer startTime rngSeed history s := by
  cases h with
  | @poll _ s₀ _ channel rounds state _ _ h hp =>
    have hc : s₀.call (.poll time channel rounds) = .ok (.poll (.ready state next), s) := by
      simp only [call, hp, Outcome.ok_bind, Outcome.pure_eq]
    exact ⟨_, h.call _ trivial hc⟩
  | @pollEvents _ s₀ _ rounds _ _ h hp =>
    have hc : s₀.call (.pollEvents time rounds) = .ok (.pollEvents (.ready () next), s) := by
      simp only [call, hp, Outcome.ok_bind, Outcome.pure_eq]
    exact ⟨_, h.call _ trivial hc⟩

/-- Whatever poll is ready, it reports the next event. -/
theorem Ready.reportsNext (hd : Deterministic T) {transposer : T} {startTime : Time T}
    {rngSeed : Seed T} {next : Option (Time T)}
    (h : Ready transposer startTime rngSeed time next s) :
    ReportsNext ⟨transposer, startTime, rngSeed⟩ s time next := by
  obtain ⟨history, hreach⟩ := h.reachable
  have hline := (StateInv.reachable hd hreach).line
  cases h with
  | poll h hp => exact (NextInv.reachable h).poll_reportsNext hd hline hp
  | pollEvents h hp =>
    exact (NextInv.reachable h).pollEvents_reportsNext hd (.reachable hreach) hline hp

end Build

end NoInputTransposerSource

open NoInputTransposerSource in
/-- **A poll that is ready returns the time of the first step that has not run to completion**,
    and this is later than the time of the poll.  So `poll` and `poll_events` return the same
    when the same steps have run to completion, whatever has happened before. -/
theorem next_event_at [BuildProfile] (hd : Deterministic T) (transposer : T)
    (startTime : Time T) (rngSeed : Seed T) :
    (∀ time next s, Ready transposer startTime rngSeed time next s →
      ReportsNext ⟨transposer, startTime, rngSeed⟩ s time next) ∧
    (∀ time next s time' next' s', Ready transposer startTime rngSeed time next s →
      Ready transposer startTime rngSeed time' next' s' →
      (∀ n, s.steps.RanToCompletion n ↔ s'.steps.RanToCompletion n) → next = next') := by
  refine ⟨fun _ _ _ hready => hready.reportsNext hd, ?_⟩
  intro time next s time' next' s' hready hready' hran
  exact (hready.reportsNext hd).first.unique (hready'.reportsNext hd).first hran

open NoInputTransposerSource in
/-- Events at 10 and 20.  After the events up to 12 have been polled, a poll at 7 asks the step at
    0 again; both calls return 20. -/
theorem next_event_at_script :
    let _ : BuildProfile := debugBuild
    let transposer : Script := ⟨[.schedule 10, .schedule 20], [], [], 0⟩
    ∃ s s', Ready transposer (0 : ℕ) () (12 : ℕ) (some (20 : ℕ)) s ∧
      Ready transposer (0 : ℕ) () (7 : ℕ) (some (20 : ℕ)) s' ∧
      ReportsNext ⟨transposer, (0 : ℕ), ()⟩ s (12 : ℕ) (some (20 : ℕ)) ∧
      ReportsNext ⟨transposer, (0 : ℕ), ()⟩ s' (7 : ℕ) (some (20 : ℕ)) := by
  intro _ transposer
  let round : Round Script := ⟨[], 20, []⟩
  have hnew := @ReachableBy.new Script _ _ (fun _ _ => True) transposer (0 : ℕ) ()
  have hevents := hnew.call (.pollEvents (12 : ℕ) [round, round, round]) trivial rfl
  have hready : Ready transposer (0 : ℕ) () (12 : ℕ) (some (20 : ℕ)) _ :=
    .pollEvents hnew
      (show NoInputTransposerSource.pollEvents _ (12 : ℕ) [round, round, round] = _ from rfl)
  have hready' : Ready transposer (0 : ℕ) () (7 : ℕ) (some (20 : ℕ)) _ :=
    .poll hevents (show NoInputTransposerSource.poll _ (7 : ℕ) 0 [round, round] = _ from rfl)
  have hreports := (next_event_at Script.deterministic transposer (0 : ℕ) ()).1
  exact ⟨_, _, hready, hready', hreports _ _ _ hready, hreports _ _ _ hready'⟩

end Cozal
