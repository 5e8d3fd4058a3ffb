import Cozal.Source.ForwardOnly
import Cozal.Transposer.Progress

namespace Cozal

open Transposer

/-!
# The events that are due can be got

The invariants of a source say that no wrong event is returned.  Here: every right one is.  When no
channel waits for a step, a poll of the events at a time returns the next event of the reference
that is due by then, once the handlers get the answers they wait for and the time to end.

* `Reference.Upcoming` — the due time of the next event, and what its future has emitted before.
* `Quiet` — the invariant of a source that no channel has left waiting for a step.
* `Quiet.next_round` — a round returns that event, or completes a step and so comes one due time
  closer to it.
* `Quiet.delivers` — some rounds of `poll_events` return it.
-/

variable {T : Type} [Transposer T]

/-! ### The next event of the reference -/

namespace Reference

variable {R : Reference T} {out : List (Time T × OutputEvent T)} {x : Time T × OutputEvent T}
  {n m : ℕ}

/-- Once `out` has been emitted the next event is `x`, at the `n`-th due time. -/
def Upcoming (R : Reference T) (out : List (Time T × OutputEvent T)) (x : Time T × OutputEvent T)
    (n : ℕ) : Prop :=
  ∃ o f os, R.Point n o x.1 f ∧ Emits f (os ++ [x.2]) ∧ out = o ++ os.map (x.1, ·)

/-- A due time after another one comes once that has ended. -/
theorem Point.completes_of_lt (hd : Deterministic T) {o o' : List (Time T × OutputEvent T)}
    {t t' : Time T} {f f' : SaturationFuture T} (h : R.Point n o t f) (h' : R.Point m o' t' f')
    (hlt : n < m) : ∃ os w, Completes f os w ∧ w.metadata.getNextScheduledTime ≠ none := by
  induction h' with
  | init => omega
  | @next m o' t' f' os w k h' hc hk ih =>
    rcases Nat.lt_or_ge n m with hnm | hge
    · exact ih hnm
    · obtain rfl : n = m := by omega
      obtain ⟨-, -, rfl⟩ := h.unique hd h'
      exact ⟨os, w, hc, by simp [hk]⟩

/-- The last event before a due time is the upcoming one of an earlier due time. -/
theorem Point.upcoming {o : List (Time T × OutputEvent T)} {t : Time T} {f : SaturationFuture T}
    (h : R.Point n o t f) (ho : o = out ++ [x]) : ∃ n, R.Upcoming out x n := by
  induction h with
  | init => simp at ho
  | @next n o t f os w k hpoint hc _ ih =>
    rcases List.eq_nil_or_concat os with rfl | ⟨os, e, rfl⟩
    · exact ih (by simpa using ho)
    · simp only [List.concat_eq_append, List.map_append, List.map_singleton,
        ← List.append_assoc] at ho
      obtain ⟨rfl, heq⟩ := List.append_inj' ho rfl
      obtain rfl := List.singleton_inj.mp heq
      exact ⟨n, o, f, os, hpoint, by simpa using hc.emits, rfl⟩

/-- What is emitted after `out` is upcoming. -/
theorem upcoming_of_outputs (h : R.Outputs (out ++ [x])) : ∃ n, R.Upcoming out x n := by
  obtain ⟨σ, hrun⟩ := h
  obtain ⟨n, o, os, f, hpoint, hf, heq⟩ := point_of_run hrun
  rcases List.eq_nil_or_concat os with rfl | ⟨os, e, rfl⟩
  · exact hpoint.upcoming (by simpa using heq.symm)
  · simp only [List.concat_eq_append, List.map_append, List.map_singleton,
      ← List.append_assoc] at heq hf
    obtain ⟨rfl, hx⟩ := List.append_inj' heq rfl
    obtain rfl := List.singleton_inj.mp hx
    exact ⟨n, o, f, os, hpoint, ⟨_, hf⟩, rfl⟩

/-- The due time that has emitted all of `out` is not after that of the upcoming event. -/
theorem Upcoming.le (hd : Deterministic T) (h : R.Upcoming out x n)
    {o : List (Time T × OutputEvent T)} {t : Time T} {f : SaturationFuture T}
    (hpoint : R.Point m o t f) (ho : o <+: out) : m ≤ n := by
  by_contra hlt
  obtain ⟨o', f', os, hpoint', he, rfl⟩ := h
  -- else the event would have been emitted before that due time
  obtain ⟨os', w, hc, -⟩ := hpoint'.completes_of_lt hd hpoint (Nat.lt_of_not_le hlt)
  have hlen := ((hpoint'.prefix_of_lt hd hc hpoint (Nat.lt_of_not_le hlt)).trans ho).length_le
  have hlen' := (hc.covers hd he).length_le
  simp only [List.length_append, List.length_map, List.length_singleton] at hlen hlen'
  omega

end Reference

/-! ### The last step -/

namespace Steps

variable {R : Reference T} {s s₁ s' : Steps T} {out : List (Time T × OutputEvent T)}
  {x : Time T × OutputEvent T} {y : Step T} {n : ℕ}

/-- The sequence number of the last step. -/
def lastNumber (s : Steps T) : ℕ := s.numDeletedSteps + (s.steps.length - 1)

/-- The last step `y` is the one whose next event is `x`, or it emits nothing more and the step of
    that event comes later. -/
inductive OnTheWay (s : Steps T) (x : Time T × OutputEvent T) (n : ℕ) (y : Step T) : Prop where
  | there {f e} : s.lastNumber = n → y.getTime = x.1 → Tracks f y e → Emits f (e ++ [x.2]) →
      OnTheWay s x n y
  | before {f e w} : s.lastNumber < n → y.getTime < x.1 → Tracks f y e → Completes f e w →
      w.metadata.getNextScheduledTime ≠ none → OnTheWay s x n y

/-- **The last step is on the way** to the upcoming event. -/
theorem Emitted.onTheWay (hd : Deterministic T) (h : Emitted R s out) (hx : R.Upcoming out x n)
    (hy : s.steps[s.steps.length - 1]? = some y) : s.OnTheWay x n y := by
  obtain ⟨y', o, f, e, hy', hpoint, he, hlen, hout⟩ := h.returned
  rw [hy, Option.some.injEq] at hy'
  subst hy'
  obtain ⟨o', f', hpoint', -, e', htracks⟩ := h.line _ y hy
  obtain ⟨rfl, -, rfl⟩ := hpoint.unique hd hpoint'
  obtain rfl := emitted_unique hd he htracks.emits (hlen.trans htracks.count)
  have hle := hx.le hd hpoint (hout ▸ List.prefix_append _ _)
  obtain ⟨o', f', os, hpointx, hex, houtx⟩ := hx
  rcases Nat.lt_or_eq_of_le hle with hlt | heq
  · -- all that the step emits has been emitted, as the upcoming event comes later
    obtain ⟨os', w, hc, hnext⟩ := hpoint.completes_of_lt hd hpointx hlt
    have hpre := hpoint.prefix_of_lt hd hc hpointx hlt
    have hlen' := (hpre.trans (houtx ▸ List.prefix_append _ _)).length_le
    rw [hout, List.length_append, List.length_append, List.length_map, List.length_map] at hlen'
    have hcovers := hc.covers hd he
    obtain rfl := hcovers.eq_of_length (Nat.le_antisymm hcovers.length_le (by omega))
    exact .before hlt (hpoint.time_lt hd hpointx hlt) htracks hc hnext
  · subst heq
    obtain ⟨rfl, htime, rfl⟩ := hpoint.unique hd hpointx
    rw [hout, ← htime] at houtx
    have hinj : Function.Injective fun e : OutputEvent T => (y.getTime, e) :=
      fun e e' hee => (Prod.mk.inj hee).2
    obtain rfl := List.map_injective_iff.mpr hinj (List.append_cancel_left houtx)
    exact .there rfl htime htracks hex

/-- A step on the way to an event is not later than the event. -/
theorem OnTheWay.le (h : s.OnTheWay x n y) : y.getTime ≤ x.1 := by
  cases h with
  | there _ htime _ _ => exact htime.le
  | before _ hlt _ _ _ => exact hlt.le

/-- A last step that is on the way has not ended, or else the next step would have been pushed. -/
theorem OnTheWay.canProduceEvents (hd : Deterministic T) (h : s.OnTheWay x n y) (hs : s.Sound)
    (hext : s.Extended) (hy : s.steps[s.steps.length - 1]? = some y) :
    y.canProduceEvents = true := by
  have hpos := hs.length_pos
  rw [(hs.last _ y hy (by omega)).canProduceEvents, Bool.not_eq_true', Bool.eq_false_iff]
  intro hsat
  obtain ⟨w, hw⟩ := Step.isSaturated_iff.mp hsat
  cases h with
  | there _ _ htracks he => exact (htracks.saturated w hw).emits_no_more hd _ he
  | before _ _ htracks hc hnext =>
    obtain ⟨-, heq⟩ := hc.unique hd (htracks.saturated w hw)
    exact hnext (heq ▸ hext y w (by rw [List.getLast?_eq_getElem?, hy]) hw)

/-- A poll of the events pushes no step of its own, so the last number stays. -/
theorem EventsCases.lastNumber {pinnedTimes : List (Time T)} {t : Time T}
    {r : BeforeStatusEvents T} (h : EventsCases s pinnedTimes t r s') (hs : s.Sound)
    (hs' : s'.Sound) : s'.lastNumber = s.lastNumber := by
  have hpos := hs.length_pos
  have hpos' := hs'.length_pos
  unfold Steps.lastNumber
  cases h with
  | ready _ _ | saturating _ _ _ => rfl
  | start _ _ _ _ _ _ hsaturate =>
    have htotal := hsaturate.total_eq
    omega

end Steps

/-! ### A round -/

namespace NoInputTransposerSource

variable {R : Reference T} {s s' : NoInputTransposerSource T} {now : Time T}
  {out : List (Time T × OutputEvent T)} {x : Time T × OutputEvent T} {n : ℕ}

/-- The events `out` have been returned, and no channel waits for a step. -/
structure Quiet (R : Reference T) (out : List (Time T × OutputEvent T))
    (s : NoInputTransposerSource T) : Prop where
  events : EventsInv R s out
  linked : s.steps.Linked
  unpinned : s.channelStatuses.getPinnedTimes = []

/-- A source that is only driven forward is quiet. -/
theorem Forward.quiet {clock : Option (Time T)} (h : Forward R clock out s) : Quiet R out s :=
  ⟨h.events, h.linked, h.unpinned⟩

/-- The steps keep their invariant. -/
theorem Quiet.sound (h : Quiet R out s) : s.steps.Sound := h.events.emitted.sound

namespace Quiet

variable [BuildProfile]

/-- After calls in any order a source is quiet when no channel waits for a step. -/
theorem of_reachable (hd : Deterministic T) (ha : AwaitsEmissions T)
    {history : List (Call T × Reply T)}
    (h : Reachable R.transposer R.startTime R.rngSeed history s)
    (hunpinned : s.channelStatuses.getPinnedTimes = []) : Quiet R (interrupts history) s where
  events := (EventsInv.reachable hd ha h).1
  linked := h.moves.linked (.new R.transposer R.startTime R.rngSeed)
  unpinned := hunpinned

/-- A round of `poll_events` pins no time. -/
theorem round (hd : Deterministic T) (ha : AwaitsEmissions T) (h : Quiet R out s) {r : Round T}
    {o : Option (SourcePollOf T Unit)} (hr : pollEventsRound now [] r s = .ok (o, s')) :
    Quiet R (out ++ roundInterrupts o) s' := by
  have hcases := pollEventsRound_cases h.sound hr
  exact ⟨h.events.eventsRound hd ha hcases, Steps.linked_of_moves hcases.moves h.linked,
    hcases.channelStatuses ▸ h.unpinned⟩

/-- A poll of the events pins no time. -/
theorem pollEvents (hd : Deterministic T) (ha : AwaitsEmissions T) (h : Quiet R out s)
    {rounds : List (Round T)} {p : SourcePollOf T Unit}
    (hp : s.pollEvents now rounds = .ok (p, s')) : Quiet R (out ++ p.interrupts) s' := by
  rw [NoInputTransposerSource.pollEvents, h.unpinned] at hp
  obtain ⟨r, u, hu, -, hr⟩ := Outcome.loop_ok (P := Quiet R out) hp
    (.of_forall (fun _ _ => trivial) _ _) h
    (fun r u u' hu _ hr => (List.append_nil out) ▸ hu.round hd ha hr)
  exact hu.round hd ha hr

/-- **A poll of the events does not panic.** -/
theorem pollEvents_ne_panic (hd : Deterministic T) (ha : AwaitsEmissions T) (h : Quiet R out s)
    (rounds : List (Round T)) (site : Panic) : s.pollEvents now rounds ≠ .panic site := by
  have havoids : (Outcome.loop (pollEventsRound now []) rounds s).Avoids fun _ => True := by
    refine Outcome.Avoids.loop (P := Quiet R out) (.of_forall (fun _ _ => trivial) _ _) h ?_ ?_
    · rintro r u u' hu - hr
      exact (List.append_nil out) ▸ hu.round hd ha hr
    · rintro r u hu -
      exact hu.events.pollEventsRound_avoids_any hd ha hu.linked now r
  rw [NoInputTransposerSource.pollEvents, h.unpinned]
  exact havoids site trivial

/-- The step that a poll of the events finds while an event is upcoming. -/
theorem search (hd : Deterministic T) (ha : AwaitsEmissions T) (h : Quiet R out s)
    (hx : R.Upcoming out x n) (hle : x.1 ≤ now) : ∃ steps₁ steps' m y,
      Steps.Pushed s.steps steps₁ ∧ steps'.lastNumber = steps₁.lastNumber ∧ steps'.Sound ∧
      s.steps.getBeforeOrAtEvents now [] = .ok (.saturating (steps'.steps.length - 1) m, steps') ∧
      steps'.steps[steps'.steps.length - 1]? = some y ∧ y.isSaturating = true ∧
      steps'.OnTheWay x n y := by
  obtain ⟨q, steps', hq⟩ := h.sound.getBeforeOrAtEvents_returns h.linked now
  obtain ⟨steps₁, -, hpushed, hcases⟩ := Steps.getBeforeOrAtEvents_cases h.sound hq
  have h₁ := h.events.emitted.pushed hd ha hpushed
  have h' := h₁.events hd ha hcases
  have hnumber := hcases.lastNumber h₁.sound h'.sound
  cases q with
  | ready next =>
    -- a poll is not ready before the event has been emitted
    cases hcases with
    | ready hy hcond =>
      have hway := h₁.onTheWay hd hx hy
      have hcan := hway.canProduceEvents hd h₁.sound hpushed.extended hy
      rw [hcan] at hcond
      exact absurd (hway.le.trans hle) (not_le.mpr (hcond.resolve_right Bool.noConfusion))
  | saturating i m =>
    obtain ⟨rfl, y, hy, hsat, -⟩ := hcases.last
    exact ⟨steps₁, steps', m, y, hpushed, hnumber, h'.sound, hq, hy, hsat, h'.onTheWay hd hx hy⟩

/-- **A round** returns the upcoming event, or completes a step and comes one due time closer. -/
theorem next_round (hd : Deterministic T) (ha : AwaitsEmissions T) (h : Quiet R out s)
    (hx : R.Upcoming out x n) (hle : x.1 ≤ now) :
    (∃ r s', pollEventsRound now [] r s = .ok (some (.interrupt x.1 (.finalizedEvent x.2)), s')) ∨
    ∃ r s' steps₁, pollEventsRound now [] r s = .ok (none, s') ∧ Steps.Pushed s.steps steps₁ ∧
      steps₁.lastNumber < n ∧
      ∀ steps₂, Steps.Pushed s'.steps steps₂ → steps₂.lastNumber = steps₁.lastNumber + 1 := by
  obtain ⟨steps₁, steps', m, y, hpushed, hnumber, hs', hq, hy, hsat, hway⟩ :=
    h.search hd ha hx hle
  cases hway with
  | there _ htime htracks he =>
    obtain ⟨fuel, answers, p, hp, hresult⟩ := htracks.emits_next hd ha hsat he
    refine Or.inl ⟨⟨[], fuel, answers⟩,
      { s with steps := steps'.setStep (steps'.steps.length - 1) p.step }, ?_⟩
    simp only [pollEventsRound, hq, Outcome.ok_bind, hy, Outcome.unwrap_some, hp, hresult,
      Outcome.expect_ok, htime, Outcome.pure_eq]
  | @before f e w hlt _ htracks hc hnext =>
    obtain ⟨fuel, answers, p, hp, hresult⟩ := htracks.completes_next hd hsat hc
    refine Or.inr ⟨⟨[], fuel, answers⟩,
      { s with steps := steps'.setStep (steps'.steps.length - 1) p.step }, steps₁, ?_,
      hpushed, hnumber ▸ hlt, ?_⟩
    · simp only [pollEventsRound, hq, Outcome.ok_bind, hy, Outcome.unwrap_some, hp, hresult,
        Outcome.expect_ok, Outcome.pure_eq]
    · intro steps₂ hpushed₂
      have hpos := hs'.length_pos
      have hlast : (steps'.setStep (steps'.steps.length - 1) p.step).steps.getLast?
          = some p.step := by
        rw [List.getLast?_eq_getElem?, Steps.length_setStep]
        exact Steps.getElem?_setStep_self hy _
      obtain ⟨w', hw'⟩ := Steps.completed hp hresult
      cases hpushed₂ with
      | push _ _ _ =>
        rw [← hnumber]
        simp only [Steps.lastNumber, List.length_append, List.length_singleton,
          Steps.length_setStep]
        show steps'.numDeletedSteps + (steps'.steps.length + 1 - 1) = _
        omega
      | none hnone =>
        -- the step that has just ended has a next one
        obtain ⟨f', a, ch, hst⟩ := Step.isSaturating_iff.mp hsat
        have hpoll := htracks.poll hd ha fuel answers hst
        rw [hp] at hpoll
        obtain ⟨result, hr, hpoll⟩ := hpoll
        obtain ⟨-, heq⟩ := hc.unique hd (hpoll.tracks.saturated w' hw')
        exact absurd (heq ▸ hnone p.step w' hlast hw') hnext

/-- **The next event is delivered.**  Whatever has been polled and stopped before, some rounds of
    `poll_events` return it once it is due. -/
theorem delivers (hd : Deterministic T) (ha : AwaitsEmissions T) (h : Quiet R out s)
    (hx : R.Outputs (out ++ [x])) (hle : x.1 ≤ now) :
    ∃ rounds s', s.pollEvents now rounds = .ok (.interrupt x.1 (.finalizedEvent x.2), s') := by
  obtain ⟨n, hn⟩ := Reference.upcoming_of_outputs hx
  -- by induction on how many due times are left before that of the event
  have hrounds : ∀ k (u : NoInputTransposerSource T), Quiet R out u →
      (∀ steps₁, Steps.Pushed u.steps steps₁ → n ≤ steps₁.lastNumber + k) →
      ∃ rounds s', Outcome.loop (pollEventsRound now []) rounds u
        = .ok (.interrupt x.1 (.finalizedEvent x.2), s') := by
    intro k
    induction k with
    | zero =>
      intro u hu hk
      rcases hu.next_round hd ha hn hle with ⟨r, s', hr⟩ | ⟨r, s', steps₁, -, hpushed, hlt, -⟩
      · exact ⟨[r], s', by rw [Outcome.loop, hr]; rfl⟩
      · exact absurd (hk steps₁ hpushed) (Nat.not_le_of_lt hlt)
    | succ k ih =>
      intro u hu hk
      rcases hu.next_round hd ha hn hle with ⟨r, s', hr⟩ | ⟨r, u', steps₁, hr, hpushed, -, hstep⟩
      · exact ⟨[r], s', by rw [Outcome.loop, hr]; rfl⟩
      · have hu' := hu.round hd ha hr
        rw [roundInterrupts, Option.elim_none, List.append_nil] at hu'
        obtain ⟨rounds, s', hrounds⟩ := ih u' hu' fun steps₂ hpushed₂ => by
          rw [hstep steps₂ hpushed₂]
          have := hk steps₁ hpushed
          omega
        exact ⟨r :: rounds, s', by rw [Outcome.loop, hr]; exact hrounds⟩
  obtain ⟨rounds, s', hloop⟩ := hrounds n s h fun _ _ => Nat.le_add_left _ _
  exact ⟨rounds, s', by rw [NoInputTransposerSource.pollEvents, h.unpinned]; exact hloop⟩

end Quiet

end NoInputTransposerSource

end Cozal
