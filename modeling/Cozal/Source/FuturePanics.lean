import Cozal.Source.Events
import Cozal.Source.Panics
import Cozal.Transposer.Expire

namespace Cozal

open Transposer Outcome

/-!
# The futures of the steps do not panic

A step is driven through a channel of one message and a one shot acknowledgement for each of
them, and its future removes from the schedule what the maps of expire handles say is there.  All
four places unwrap.  They are safe because a stored step is always at a point of the reference,
whatever has been evicted and run again.

* `SaturationFuture.Safe` — nothing the future can come to panics on the schedule.
* `Reference.Point.safe` — the future of a due time is safe, with any number of outputs to
  swallow.
* `Steps.Drives` — every stored step is driven without a panic; it holds on the line of the
  reference.
* `futures_never_panic` — no call panics there, in any reachable state.
-/

variable {T : Type} [Transposer T]

/-! ### What a future panics at -/

/-- A panic of a poll is one of the channel, or one the future has run into. -/
theorem pollFuture_panic {fuel : ℕ} {answers : List (Response T)} {f : SaturationFuture T}
    {a : Option ℕ} {ch : OutputChannel T} {site : Panic}
    (h : pollFuture fuel answers f a ch = .panic site) :
    site = .trySend ∨ site = .acknowledgement ∨
      ∃ ls g, Run LabelStep f ls g ∧ g.advance = .panic site := by
  induction fuel generalizing answers f a ch with
  | zero => cases a <;> cases h
  | succ fuel ih =>
    -- a piece of work before the panic belongs to the run that leads to it
    have hhead : ∀ {l : Label T} {f' : SaturationFuture T} {answers' : List (Response T)}
        {a' : Option ℕ} {ch' : OutputChannel T}, LabelStep f [l] f' →
        pollFuture fuel answers' f' a' ch' = .panic site →
        site = .trySend ∨ site = .acknowledgement ∨
          ∃ ls g, Run LabelStep f ls g ∧ g.advance = .panic site := by
      intro l f' answers' a' ch' hstep hpanic
      refine (ih hpanic).imp_right (Or.imp_right ?_)
      rintro ⟨ls, g, hrun, hg⟩
      exact ⟨_, g, .head hstep hrun, hg⟩
    cases a with
    | some i =>
      unfold pollFuture at h
      split at h
      · exact ih h
      · cases h
      · cases h
        exact Or.inr (Or.inl rfl)
    | none =>
      unfold pollFuture at h
      cases hadv : f.advance with
      | next l f' =>
        simp only [hadv, bind_eq_panic, pure_eq, reduceCtorEq, and_false, exists_false,
          or_false] at h
        exact hhead (.next hadv) h
      | emit e b f' =>
        simp only [hadv, bind_eq_panic, pure_eq, reduceCtorEq, and_false, exists_false,
          or_false] at h
        rcases h with hsend | ⟨ch', -, hpanic⟩
        · cases hq : ch.trySend e with
          | some ch' => simp [hq] at hsend
          | none =>
            simp only [hq, unwrap_none, Outcome.panic.injEq] at hsend
            exact Or.inl hsend.symm
        · exact hhead (.emit hadv) hpanic
      | await k =>
        cases answers with
        | nil => simp [hadv] at h
        | cons x answers =>
          simp only [hadv, bind_eq_panic, pure_eq, reduceCtorEq, and_false, exists_false,
            or_false] at h
          exact hhead (.await x hadv) h
      | ready w => simp [hadv] at h
      | panic site' =>
        simp only [hadv, Outcome.panic.injEq] at h
        subst h
        exact Or.inr (Or.inr ⟨[], f, .refl f, hadv⟩)

/-- While the maps of handles fit the schedule, a future does not panic: a handle in use has an
    event, and there is a first event when one is due. -/
theorem HandlesSound.advance_ne_panic {ls : List (Label T)} {f : SaturationFuture T}
    (h : HandlesSound ls f.cx.metadata) (site : Panic) : f.advance ≠ .panic site := by
  cases f with
  | running caller handler cx =>
    have h : HandlesSound ls cx.metadata := h
    show SaturationFuture.resumeHandler caller handler cx ≠ .panic site
    unfold SaturationFuture.resumeHandler
    cases hr : resume handler with
    | expireEvent e k =>
      simp only [SubStepUpdateContext.expireEvent]
      unfold TransposerMetaData.expireEvent
      cases hf : cx.metadata.expireHandlesForward.get e with
      | none => simp
      | some key =>
        obtain ⟨p, hp⟩ := h.scheduled key e ((h.inverse e key).mp hf)
        simp [hp]
    | scheduleEvent time payload k | scheduleEventExpireable time payload k =>
      simp only
      split <;> simp
    | emitEvent e b k =>
      simp only
      split <;> simp
    | done _ | currentTime _ | lastUpdatedTime _ | getRng _ | await _ => simp
  | inputs time rest t cx => cases rest <;> simp [SaturationFuture.advance]
  | draining time t cx =>
    simp only [SaturationFuture.advance]
    split
    · rename_i hdue
      cases hpop : cx.metadata.popFirstEvent with
      | some q => simp
      | none =>
        -- nothing can be popped from an empty schedule only, and then nothing is due
        unfold TransposerMetaData.popFirstEvent at hpop
        cases hfirst : cx.metadata.schedule.popFirst with
        | some q =>
          simp only [hfirst] at hpop
          split at hpop <;> cases hpop
        | none =>
          rw [OrdMap.popFirst, Option.map_eq_none_iff] at hfirst
          simp [TransposerMetaData.getNextScheduledTime, hfirst] at hdue
    · simp

/-! ### The futures of the due times -/

/-- A piece of work has a label. -/
theorem FutureStep.labelStep {f f' : SaturationFuture T} {o : List (OutputEvent T)}
    (h : FutureStep f o f') : ∃ ls, LabelStep f ls f' := by
  cases h with
  | next h => exact ⟨_, .next h⟩
  | emit h => exact ⟨_, .emit h⟩
  | await x h => exact ⟨_, .await x h⟩

/-- A run of a future of a chain stays in the chain. -/
theorem Reaches.futureRun {f g : SaturationFuture T} {o : List (OutputEvent T)}
    (hr : Run FutureStep f o g) {ls : List (Label T)} (h : Reaches ls f) :
    ∃ ls', Reaches ls' g := by
  induction hr generalizing ls with
  | refl => exact ⟨ls, h⟩
  | head hstep _ ih =>
    obtain ⟨ls', hlabel⟩ := hstep.labelStep
    exact ih (h.work hlabel)

/-- A future on the line of the reference is reached by the transposer. -/
theorem Reference.Point.reaches {R : Reference T} {n : ℕ} {o : List (Time T × OutputEvent T)}
    {t : Time T} {f : SaturationFuture T} (h : R.Point n o t f) : ∃ ls, Reaches ls f := by
  induction h with
  | init => exact ⟨[], .init _ _ _ 0⟩
  | next _ hc hk ih =>
    obtain ⟨ls, hreach⟩ := ih
    obtain ⟨g, hrun, hw⟩ := hc
    obtain ⟨ls', hg⟩ := hreach.futureRun hrun
    exact ⟨ls', hg.handleScheduled 0 hw hk⟩

/-- The number of outputs to swallow is no part of the metadata. -/
theorem cx_withSwallow (f : SaturationFuture T) (n : ℕ) :
    (f.withSwallow n).cx.metadata = f.cx.metadata := by
  cases f <;> rfl

/-- Nothing the future can come to panics on the schedule. -/
def SaturationFuture.Safe (f : SaturationFuture T) : Prop :=
  ∀ ls g site, Run LabelStep f ls g → g.advance ≠ .panic site

/-- **The future of a due time is safe**, wherever it is and whatever it still swallows. -/
theorem Reference.Point.safe {R : Reference T} {n : ℕ} {o : List (Time T × OutputEvent T)}
    {t : Time T} {start : SaturationFuture T} (h : R.Point n o t start)
    {e : List (OutputEvent T)} {g : SaturationFuture T} (hrun : Run FutureStep start e g)
    (hg : g.cx.outputsToSwallow = 0) (m : ℕ) : (g.withSwallow m).Safe := by
  intro ls f site hlabels
  obtain ⟨e', f', m', hrun', -, rfl⟩ := run_follows hlabels rfl hg
  obtain ⟨ls, hreach⟩ := h.reaches
  obtain ⟨ls', hreach'⟩ := hreach.futureRun (hrun.trans hrun')
  have hhandles : HandlesSound ls' (f'.withSwallow m').cx.metadata := by
    rw [cx_withSwallow]
    exact hreach'.handlesSound
  exact hhandles.advance_ne_panic site

/-! ### The stored steps -/

/-- A poll of the step does not panic in its future. -/
def Step.Driven (x : Step T) : Prop :=
  ∀ fuel answers, (x.poll fuel answers).Avoids Panic.inFuture

/-- **A step at its due time is driven without a panic.** -/
theorem Reference.Point.driven (hd : Deterministic T) (ha : AwaitsEmissions T) {R : Reference T}
    {n : ℕ} {o : List (Time T × OutputEvent T)} {t : Time T} {start : SaturationFuture T}
    (h : R.Point n o t start) {x : Step T} {e : List (OutputEvent T)}
    (htracks : Tracks start x e) : x.Driven := by
  intro fuel answers site hsite hpanic
  cases hst : x.status with
  | unsaturated | saturated w => simp [Step.poll, hst] at hpanic
  | saturating f a ch =>
    have hchannel := htracks.poll hd ha fuel answers hst
    rw [hpanic] at hchannel
    obtain ⟨-, o', g, hrun, hg, -, rfl⟩ := htracks.saturating f a ch hst
    -- the poll of the step adds no panic to that of its future
    simp only [Step.poll, hst, bind_eq_panic] at hpanic
    rcases hpanic with hpanic | ⟨p, -, hpanic⟩
    · rcases pollFuture_panic hpanic with hsend | hack | ⟨ls, g', hlabels, hg'⟩
      · exact hchannel.1 hsend
      · exact hchannel.2 hack
      · exact h.safe hrun hg _ ls g' site hlabels hg'
    · split at hpanic
      · cases hpanic
      · split at hpanic <;> cases hpanic

namespace Steps

/-- Every stored step is driven without a panic in its future. -/
def Drives (s : Steps T) : Prop := ∀ (i : ℕ) (x : Step T), s.steps[i]? = some x → x.Driven

/-- On the line of the reference every step is driven, as every future there is safe. -/
theorem drives_of_onLine (hd : Deterministic T) (ha : AwaitsEmissions T) {R : Reference T}
    {s : Steps T} (h : OnLine R Tracked s) : s.Drives := by
  intro i x hx
  obtain ⟨o, f, hpoint, -, e, htracks⟩ := h i x hx
  exact hpoint.driven hd ha htracks

/-- The last step is one of those that are stored. -/
theorem Drives.last {s : Steps T} (h : s.Drives) {x : Step T} (hx : s.getLast = .ok x) :
    x.Driven := by
  rw [getLast_ok, List.getLast?_eq_getElem?] at hx
  exact h _ x hx

/-- A step that is looked up by its number is stored. -/
theorem Drives.bySequenceNumber {s : Steps T} (h : s.Drives) {n : ℕ} {x : Step T}
    (hx : s.getBySequenceNumber n = some x) : x.Driven := by
  obtain ⟨i, -, hi⟩ := getBySequenceNumber_eq_some.mp hx
  exact h i x hi

end Steps

/-- The unwrap of the result of a poll is in no future. -/
theorem Step.Driven.roundAvoids {x : Step T} (h : x.Driven) (r : Round T) :
    x.RoundAvoids Panic.inFuture r :=
  ⟨h r.fuel r.answers, fun _ _ => .expect id _⟩

/-! ### The calls -/

namespace NoInputTransposerSource

variable {s : NoInputTransposerSource T}

/-- The status of a channel is looked up outside of the futures. -/
theorem getChannelStatus_avoids_future (c : ChannelStatuses T) (channel : ℕ) :
    (c.getChannelStatus channel).Avoids Panic.inFuture := by
  unfold ChannelStatuses.getChannelStatus
  split
  · exact .ok _
  · exact .ok _
  · exact (Avoids.unwrap id _).bind fun _ _ => .ok _
  · exact .ok _

section Build

variable [BuildProfile]

/-- A round of `poll` panics in no future when every stored step is driven. -/
theorem pollRound_avoids_future (h : s.steps.Drives) (time : Time T) (channel : ℕ) (r : Round T) :
    (pollRound time channel r s).Avoids Panic.inFuture := by
  refine pollRound_avoids_of_step Panic.inFuture.not_inArm rfl
    (getChannelStatus_avoids_future _ channel)
    ((Steps.getBeforeOrAt_avoids_outside _ _ _ _).mono Panic.inFuture.outsideSteps) ?_ ?_
  · intro p _ step hstep
    exact (h.last hstep).roundAvoids r
  · intro p stepId _
    exact ⟨.unwrap id _, fun step hget => (h.bySequenceNumber hget).roundAvoids r⟩

/-- The search of `poll_events` stays on the line, so the step it finds is driven as well. -/
theorem pollEventsRound_avoids_future (hd : Deterministic T) (ha : AwaitsEmissions T)
    {R : Reference T} (hs : s.steps.Sound) (hline : OnLine R Tracked s.steps) (time : Time T)
    (pinnedTimes : List (Time T)) (r : Round T) :
    (pollEventsRound time pinnedTimes r s).Avoids Panic.inFuture := by
  refine pollEventsRound_avoids_of_step Panic.inFuture.not_inArm
    ((s.steps.getBeforeOrAtEvents_avoids_outside time _).mono Panic.inFuture.outsideSteps) ?_
  intro i n steps step hq hstep
  obtain ⟨steps₁, -, hpushed, hcases⟩ := Steps.getBeforeOrAtEvents_cases hs hq
  have hmoves := (hpushed.moves pinnedTimes).trans hcases.moves
  have hline' := (hline.moves hd (tracked_invariant hd ha) hs hmoves).2
  exact (Steps.drives_of_onLine hd ha hline' i step hstep).roundAvoids r

/-- **No call panics in the future of a step.** -/
theorem EventsInv.call_avoids_future (hd : Deterministic T) (ha : AwaitsEmissions T)
    {R : Reference T} {out : List (Time T × OutputEvent T)} (h : EventsInv R s out) (c : Call T) :
    (s.call c).Avoids Panic.inFuture := by
  -- the loops go on from states that are on the line as well, with what has been returned
  let P (u : NoInputTransposerSource T) := ∃ out, EventsInv R u out
  have hs : P s := ⟨out, h⟩
  cases c with
  | poll time channel rounds =>
    refine Avoids.bind ?_ fun _ _ => .ok _
    refine Avoids.loop (P := P) (.of_forall (fun _ _ => trivial) _ _) hs ?_ ?_
    · rintro r u u' ⟨o, hu⟩ - hr
      have hcases := pollRound_cases hu.emitted.sound hr
      exact ⟨_, (hu.afterWakerEvents r.wakerEvents).round hd ha hcases⟩
    · rintro r u ⟨o, hu⟩ -
      have hdrives := Steps.drives_of_onLine hd ha hu.emitted.line
      exact pollRound_avoids_future hdrives time channel r
  | pollEvents time rounds =>
    refine Avoids.bind ?_ fun _ _ => .ok _
    refine Avoids.loop (P := P) (.of_forall (fun _ _ => trivial) _ _) hs ?_ ?_
    · rintro r u u' ⟨o, hu⟩ - hr
      exact ⟨_, hu.eventsRound hd ha (pollEventsRound_cases hu.emitted.sound hr)⟩
    · rintro r u ⟨o, hu⟩ -
      exact pollEventsRound_avoids_future hd ha hu.emitted.sound hu.emitted.line time _ r
  | releaseChannel channel =>
    refine Avoids.bind ?_ fun _ _ => .ok _
    exact (getChannelStatus_avoids_future _ channel).bind fun _ _ => .ok _
  | advance time =>
    refine Avoids.bind ?_ fun _ _ => .ok _
    refine Avoids.bind ?_ fun _ _ => .ok _
    exact (s.steps.deleteBefore_avoids_outside time).mono Panic.inFuture.outsideSteps

end Build

end NoInputTransposerSource

open NoInputTransposerSource in
/-- **The futures of the steps never panic.**  In every reachable state of a source whose handlers
    await their emissions, whatever steps have been evicted, taken, copied and run again, the next
    call panics neither at the channel of the emitted events nor at an acknowledgement, and not on
    the schedule either. -/
theorem futures_never_panic [BuildProfile] (hd : Deterministic T) (ha : AwaitsEmissions T)
    {transposer : T} {startTime : Time T} {rngSeed : Seed T} {history : List (Call T × Reply T)}
    {s : NoInputTransposerSource T} (h : Reachable transposer startTime rngSeed history s)
    (c : Call T) : ∀ site, site.inFuture → s.call c ≠ .panic site :=
  (EventsInv.reachable hd ha h).1.call_avoids_future hd ha c

open NoInputTransposerSource in
/-- A handler expires an event, schedules two and emits; the source is polled in between. -/
theorem futures_never_panic_script :
    ∃ (_ : BuildProfile) (s : NoInputTransposerSource Script),
      (s.call (.pollEvents (9 : ℕ) [⟨[], 30, []⟩])).Avoids Panic.inFuture ∧
      s.steps.steps.length = 2 := by
  let _ : BuildProfile := debugBuild
  let round : Round Script := ⟨[], 30, []⟩
  have hnew := @ReachableBy.new Script _ _ (fun _ _ => True)
    ⟨[.scheduleExpireable 4, .schedule 3], [.expire 0, .emit 7, .schedule 3], [], 0⟩ (0 : ℕ) ()
  have hready := hnew.call (.poll (2 : ℕ) 0 [round, round, round, round]) trivial rfl
  have hemits := hready.call (.pollEvents (5 : ℕ) [round, round]) trivial rfl
  exact ⟨inferInstance, _,
    futures_never_panic Script.deterministic Script.awaitsEmissions hemits _, rfl⟩

end Cozal
