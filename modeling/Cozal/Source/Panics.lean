import Cozal.Source.Rounds
import Cozal.Transposer.Emission

namespace Cozal

open Transposer Outcome

/-!
# Where a poll can panic

A poll of a channel that waits for a step unwraps the entry of the step, the step itself and the
result of its poll.  Nothing the poll calls on the way panics at one of these three sites, so a
poll that does not panic there in an arm of its own does not panic there at all.

* `Panic.atWait` — the three sites.
* `Step.poll_avoids` — a step panics only where its future does.
* `NoInputTransposerSource.pollRound_avoids`, `NoInputTransposerSource.pollEventsRound_avoids` — a
  round avoids what its lookups and the poll of its step avoid.
* `Steps.getBeforeOrAt_avoids`, `Steps.getBeforeOrAtEvents_avoids`, `Steps.deleteBefore_avoids` —
  the methods that a poll calls avoid the three sites.
-/

variable {T : Type} [Transposer T]

/-- The sites at which a poll panics when a channel and the step it waits for disagree. -/
def Panic.atWait : Panic → Prop
  | .stepPoll => True
  | .sequenceNumber => True
  | .repeatStepWakers => True
  | _ => False

/-- The sites at which the future of a step can panic. -/
def Panic.inFuture : Panic → Prop
  | .trySend => True
  | .acknowledgement => True
  | .expireEvent => True
  | .popFirstEvent => True
  | _ => False

/-- The sites that are in no method of the steps. -/
def Panic.outsideSteps : Panic → Prop
  | .initSaturated => False
  | .saturateTake => False
  | .saturateClone => False
  | .overflow => False
  | .assertion => False
  | .dequeIndex => False
  | .checkpoint => False
  | .nextUnsaturated => False
  | _ => True

/-- The sites of the waiting channels are in no method of the steps. -/
theorem Panic.atWait.outsideSteps (p : Panic) (h : p.atWait) : p.outsideSteps := by
  cases p <;> simp [Panic.atWait, Panic.outsideSteps] at h ⊢

/-- The sites of the futures are in no method of the steps. -/
theorem Panic.inFuture.outsideSteps (p : Panic) (h : p.inFuture) : p.outsideSteps := by
  cases p <;> simp [Panic.inFuture, Panic.outsideSteps] at h ⊢

/-! ### Steps and futures -/

section Futures

variable {sites : Panic → Prop} (hsites : ∀ {p : Panic}, sites p → ¬ p.inFuture)
include hsites

/-- To poll a future panics in the future only. -/
theorem pollFuture_avoids (fuel : ℕ) (answers : List (Response T)) (f : SaturationFuture T)
    (acknowledgement : Option ℕ) (ch : OutputChannel T) :
    (pollFuture fuel answers f acknowledgement ch).Avoids sites := by
  induction fuel generalizing answers f acknowledgement ch with
  | zero => exact .running
  | succ fuel ih =>
    cases acknowledgement with
    | some i =>
      unfold pollFuture
      split
      · exact ih answers f none ch
      · exact .ok _
      · exact .panic fun h => hsites h trivial
    | none =>
      unfold pollFuture
      cases hadv : f.advance with
      | next l f' => exact (ih answers f' none ch).bind fun _ _ => .ok _
      | emit e b f' =>
        refine (Avoids.unwrap (fun h => hsites (p := .trySend) h trivial) _).bind fun sent _ => ?_
        exact (ih answers f' _ sent).bind fun _ _ => .ok _
      | await k =>
        cases answers with
        | nil => exact .ok _
        | cons x answers => exact (ih answers (k x) none ch).bind fun _ _ => .ok _
      | ready w => exact .ok _
      | panic site =>
        refine .panic ?_
        rcases advance_panic hadv with rfl | rfl
        · exact fun h => hsites h trivial
        · exact fun h => hsites h trivial

/-- To poll a step panics in its future only. -/
theorem Step.poll_avoids (x : Step T) (fuel : ℕ) (answers : List (Response T)) :
    (x.poll fuel answers).Avoids sites := by
  unfold Step.poll
  split
  · exact .ok _
  · exact .ok _
  · refine (pollFuture_avoids hsites _ _ _ _ _).bind fun p _ => ?_
    split
    · exact .ok _
    · split
      · exact .ok _
      · exact .ok _

end Futures

/-- An interpolation does not panic. -/
theorem pollInterpolation_avoids {sites : Panic → Prop} (fuel : ℕ) (answers : List (Response T))
    (i : Interpolating T) : (pollInterpolation fuel answers i).Avoids sites := by
  induction fuel generalizing answers i with
  | zero => exact .running
  | succ fuel ih =>
    unfold pollInterpolation
    split
    · exact .ok _
    · exact ih answers _
    · cases answers with
      | nil => exact .ok _
      | cons x answers => exact ih answers _

/-- A step starts with an unwrap of its own. -/
theorem Step.saturate_avoids (x : Step T) (w : WrappedTransposer T) :
    (x.saturate w).Avoids Panic.outsideSteps :=
  (Avoids.unwrap id _).bind fun _ _ => .ok _

section Build

variable [BuildProfile]

/-- To take over from the step before panics in the steps only. -/
theorem Step.saturateTake_avoids (x prev : Step T) :
    (x.saturateTake prev).Avoids Panic.outsideSteps := by
  unfold Step.saturateTake
  split
  · exact .ok _
  · split
    · exact (Step.saturate_avoids _ _).bind fun _ _ => .ok _
    · exact .ok _

/-- To clone the step before panics in the steps only. -/
theorem Step.saturateClone_avoids (x prev : Step T) :
    (x.saturateClone prev).Avoids Panic.outsideSteps := by
  unfold Step.saturateClone
  split
  · exact .ok _
  · split
    · exact (Step.saturate_avoids _ _).bind fun _ _ => .ok _
    · exact .ok _

end Build

/-! ### The methods of the steps -/

namespace Steps

variable (s : Steps T)

/-- The last step is unwrapped in the steps. -/
theorem getLast_avoids : s.getLast.Avoids Panic.outsideSteps := Avoids.unwrap id _

/-- The next time is that of the last step. -/
theorem getScheduledTime_avoids : s.getScheduledTime.Avoids Panic.outsideSteps :=
  s.getLast_avoids.bind fun _ _ => .ok _

/-- To push the next step panics in the steps only. -/
theorem tryNextScheduled_avoids : s.tryNextScheduled.Avoids Panic.outsideSteps := by
  refine s.getLast_avoids.bind fun last _ => ?_
  split
  · refine (Avoids.expect id _).bind fun new _ => ?_
    split
    · exact .ok _
    · exact .ok _
  · exact .ok _

/-- Popping steps off an empty deque panics in the steps. -/
theorem popUnsaturated_avoids (steps : List (Step T)) (n : ℕ) :
    (ensureFirstStepIsNotUnsaturated.popUnsaturated steps n).Avoids Panic.outsideSteps := by
  induction steps generalizing n with
  | nil => exact .panic id
  | cons x rest ih =>
    unfold ensureFirstStepIsNotUnsaturated.popUnsaturated
    split
    · exact ih (n + 1)
    · exact .ok _

section Build

variable [BuildProfile]

/-- The debug assertions are those of the steps. -/
theorem debugAssertions_avoids : s.debugAssertions.Avoids Panic.outsideSteps := by
  unfold debugAssertions
  split
  · exact (Avoids.unwrap id _).bind fun _ _ => .assert id _
  · exact .ok _

/-- The lookup of a checkpoint panics in the steps only. -/
theorem getNotUnsaturatedBeforeOrAtTime_avoids (time : Time T) :
    (s.getNotUnsaturatedBeforeOrAtTime time).Avoids Panic.outsideSteps := by
  refine Avoids.bind ?_ fun _ _ => .unwrap id _
  unfold sequenceNumberBeforeOrAt
  split
  · exact .ok _
  · exact .ok _
  · split
    · exact .panic id
    · exact .ok _

/-- The lookups for the pinned times panic in the steps only. -/
theorem pinnedSteps_avoids (times : List (Time T)) :
    (s.pinnedSteps times).Avoids Panic.outsideSteps := by
  induction times with
  | nil => exact .ok _
  | cons t times ih =>
    exact (s.getNotUnsaturatedBeforeOrAtTime_avoids t).bind fun _ _ => ih.bind fun _ _ => .ok _

/-- The choice of the checkpoint to give up panics in the steps only. -/
theorem sequenceNumberToDelete_avoids (times : List (Time T)) (n : ℕ) :
    (s.sequenceNumberToDelete times n).Avoids Panic.outsideSteps := by
  refine (Avoids.unwrap id _).bind fun first _ => (Avoids.unwrap id _).bind fun front _ => ?_
  split
  · exact .ok _
  · split
    · exact .ok _
    · exact (Avoids.unwrap id _).bind fun _ _ => (s.pinnedSteps_avoids times).bind fun _ _ => .ok _

/-- To give up a checkpoint panics in the steps only. -/
theorem evict_avoids (d : Option ℕ) (n : ℕ) : (s.evict d n).Avoids Panic.outsideSteps := by
  cases d with
  | none => exact .ok _
  | some d =>
    refine (Avoids.usizeSub id _ _).bind fun previous _ => ?_
    split
    · exact .ok _
    · refine (Avoids.usizeSub id _ _).bind fun i _ => Avoids.bind ?_ fun _ _ => .ok _
      exact (Avoids.unwrap id _).bind fun _ _ => .ok _

/-- To start a step from its neighbour panics in the steps only. -/
theorem saturateAdjacent_avoids (i : ℕ) (take : Bool) :
    (s.saturateAdjacent i take).Avoids Panic.outsideSteps := by
  refine Avoids.bind ?_ ?_
  · unfold getStepAndPrev
    split
    · exact .panic id
    · exact (Avoids.unwrap id _).bind fun _ _ => (Avoids.unwrap id _).bind fun _ _ => .ok _
  · rintro ⟨prev, step⟩ -
    cases take with
    | true =>
      refine (Step.saturateTake_avoids step prev).bind fun r _ => ?_
      exact (Avoids.expect id _).bind fun _ _ => (Avoids.usizeSub id _ _).bind fun _ _ => .ok _
    | false =>
      refine (Step.saturateClone_avoids step prev).bind fun r _ => ?_
      exact (Avoids.expect id _).bind fun _ _ => .ok _

/-- `saturate` panics in the steps only. -/
theorem saturate_avoids (n : ℕ) (times : List (Time T)) :
    (s.saturate n times).Avoids Panic.outsideSteps := by
  refine (s.sequenceNumberToDelete_avoids times n).bind fun d _ => ?_
  refine (s.evict_avoids d n).bind fun q _ => (Avoids.usizeSub id _ _).bind fun i _ => ?_
  refine (q.1.saturateAdjacent_avoids i q.2).bind fun u _ => ?_
  exact (popUnsaturated_avoids _ _).bind fun _ _ => .ok _

/-- The search for the step to saturate panics in the steps only. -/
theorem walkBack_avoids (times : List (Time T)) (i fuel : ℕ) :
    (s.walkBack times i fuel).Avoids Panic.outsideSteps := by
  induction fuel with
  | zero => exact .running
  | succ fuel ih =>
    unfold walkBack
    split
    · exact .ok _
    · split
      · exact .ok _
      · split
        · exact (s.saturate_avoids _ times).bind fun _ _ => .ok _
        · split
          · exact .ok _
          · exact ih

/-- **`get_before_or_at`** panics at a site of its own methods only. -/
theorem getBeforeOrAt_avoids_outside (fuel : ℕ) (time : Time T) (times : List (Time T)) :
    (s.getBeforeOrAt fuel time times).Avoids Panic.outsideSteps := by
  refine s.debugAssertions_avoids.bind fun _ _ => Avoids.bind ?_ ?_
  · refine s.tryNextScheduled_avoids.bind fun u _ => ?_
    rw [if_neg Bool.false_ne_true]
    split
    · exact .ok _
    · split
      · exact .ok _
      · split
        · exact .ok _
        · split
          · exact .ok _
          · exact u.walkBack_avoids times _ fuel
  · rintro ⟨r, u⟩ -
    rcases r with ⟨⟩ | i | i | -
    · exact .ok _
    · exact u.getScheduledTime_avoids.bind fun _ _ => (Avoids.unwrap id _).bind fun _ _ => .ok _
    · exact (Avoids.unwrap id _).bind fun _ _ => .ok _
    · exact .panic id

/-- **`get_before_or_at_events`** does, too. -/
theorem getBeforeOrAtEvents_avoids_outside (time : Time T) (times : List (Time T)) :
    (s.getBeforeOrAtEvents time times).Avoids Panic.outsideSteps := by
  refine s.debugAssertions_avoids.bind fun _ _ => s.tryNextScheduled_avoids.bind fun u _ => ?_
  refine (Avoids.usizeSub id _ _).bind fun n _ => u.getLast_avoids.bind fun last _ => ?_
  split
  · exact .ok _
  · split
    · exact (u.saturate_avoids n times).bind fun _ _ => .ok _
    · exact .ok _

/-- **`delete_before`** does, too. -/
theorem deleteBefore_avoids_outside (time : Time T) :
    (s.deleteBefore time).Avoids Panic.outsideSteps := by
  refine s.debugAssertions_avoids.bind fun _ _ => ?_
  split
  · exact .ok _
  · refine (getNotUnsaturatedBeforeOrAtTime_avoids _ time).bind fun n _ => ?_
    exact (Avoids.usizeSub id _ _).bind fun _ _ => (Avoids.assert id _).bind fun _ _ => .ok _

/-- So none of the three panics where a poll waits. -/
theorem getBeforeOrAt_avoids (fuel : ℕ) (time : Time T) (times : List (Time T)) :
    (s.getBeforeOrAt fuel time times).Avoids Panic.atWait :=
  (s.getBeforeOrAt_avoids_outside fuel time times).mono Panic.atWait.outsideSteps

/-- `get_before_or_at_events` avoids the sites of the waiting channels. -/
theorem getBeforeOrAtEvents_avoids (time : Time T) (times : List (Time T)) :
    (s.getBeforeOrAtEvents time times).Avoids Panic.atWait :=
  (s.getBeforeOrAtEvents_avoids_outside time times).mono Panic.atWait.outsideSteps

/-- `delete_before` avoids the sites of the waiting channels. -/
theorem deleteBefore_avoids (time : Time T) : (s.deleteBefore time).Avoids Panic.atWait :=
  (s.deleteBefore_avoids_outside time).mono Panic.atWait.outsideSteps

end Build

end Steps

/-! ### A round of `poll` -/

/-- The sites of the arms of a round of `poll` that are no lookup, and those of the futures. -/
def Panic.inRound : Panic → Prop
  | .answer => True
  | .dequeIndex => True
  | .interpolate => True
  | .repeatStepEmitted => True
  | p => p.inFuture

/-- The sites of the arms alone. -/
def Panic.inArm : Panic → Prop
  | .answer => True
  | .dequeIndex => True
  | .interpolate => True
  | .repeatStepEmitted => True
  | _ => False

/-- The sites of the arms are among those of a round. -/
theorem Panic.inArm.inRound {p : Panic} (h : p.inArm) : p.inRound := by
  cases p <;> simp [Panic.inArm, Panic.inRound] at h ⊢

/-- The sites of the futures are in no arm. -/
theorem Panic.inFuture.not_inArm {p : Panic} (h : p.inFuture) : ¬ p.inArm := by
  cases p <;> simp [Panic.inFuture, Panic.inArm] at h ⊢

/-- The sites of the futures are among those of a round. -/
theorem Panic.inFuture.inRound {p : Panic} (h : p.inFuture) : p.inRound := by
  cases p <;> simp [Panic.inFuture, Panic.inRound] at h ⊢

/-- The sites of the waiting channels are not among those of a round. -/
theorem Panic.atWait.not_inRound {p : Panic} (h : p.atWait) : ¬ p.inRound := by
  cases p <;> simp [Panic.atWait, Panic.inRound, Panic.inFuture] at h ⊢

/-- The poll of a step in a round avoids the sites, and so does the unwrap of its result. -/
structure Step.RoundAvoids (sites : Panic → Prop) (r : Round T) (x : Step T) : Prop where
  poll : (x.poll r.fuel r.answers).Avoids sites
  result : ∀ p, x.poll r.fuel r.answers = .ok p →
    (Outcome.expect .stepPoll p.result).Avoids sites

/-- What is in no round is in no future, so only the result of the poll is left. -/
theorem Step.RoundAvoids.of_result {sites : Panic → Prop}
    (hsites : ∀ {p : Panic}, sites p → ¬ p.inRound) {r : Round T} {x : Step T}
    (hresult : ∀ p, x.poll r.fuel r.answers = .ok p →
      (Outcome.expect .stepPoll p.result).Avoids sites) : x.RoundAvoids sites r :=
  ⟨Step.poll_avoids (fun h hp => hsites h hp.inRound) _ _ _, hresult⟩

namespace NoInputTransposerSource

section Round

variable {sites : Panic → Prop} (hsites : ∀ {p : Panic}, sites p → ¬ p.inArm)
  {s : NoInputTransposerSource T}
include hsites

/-- The arm of an interpolation panics at the sites of the arms only. -/
theorem pollInterpolationFuture_avoids (time : Time T) (channel : ℕ) (i : Interpolating T)
    (r : Round T) : (s.pollInterpolationFuture time channel i r).Avoids sites := by
  have hdeque : ¬ sites .dequeIndex := fun h => hsites h trivial
  refine (pollInterpolation_avoids _ _ _).bind fun q _ => ?_
  split
  · exact .ok _
  · refine Avoids.bind ?_ fun _ _ => .ok _
    exact (Avoids.unwrap hdeque _).bind fun _ _ => .ok _

/-- The arm of the last step panics where the poll of that step does. -/
theorem pollOriginalStepFuture_avoids (channel : ℕ) (r : Round T)
    (hlast : ∀ step, s.steps.getLast = .ok step → step.RoundAvoids sites r) :
    (s.pollOriginalStepFuture channel r).Avoids sites := by
  have hdeque : ¬ sites .dequeIndex := fun h => hsites h trivial
  refine (Avoids.unwrap hdeque _).bind fun step hstep => ?_
  obtain ⟨hpoll, hresult⟩ := hlast step hstep
  refine hpoll.bind fun p hp => (hresult p hp).bind fun result _ => ?_
  split <;> exact .ok _

/-- The arm of a step that is run again panics where its lookup or its poll does. -/
theorem pollRepeatStepFuture_avoids (time : Time T) (channel stepId : ℕ) (r : Round T)
    (hstep : (Outcome.unwrap .sequenceNumber (s.steps.getBySequenceNumber stepId)).Avoids sites)
    (hfound : ∀ step, s.steps.getBySequenceNumber stepId = some step →
      step.RoundAvoids sites r) :
    (s.pollRepeatStepFuture time channel stepId r).Avoids sites := by
  refine hstep.bind fun step hget => ?_
  rw [Outcome.unwrap_eq_ok] at hget
  obtain ⟨⟨polls, statuses⟩, hreg⟩ : ∃ q, s.channelStatuses.registerWaker channel stepId = q :=
    ⟨_, rfl⟩
  rw [hreg]
  cases polls with
  | false => exact .ok _
  | true =>
    obtain ⟨hpoll, hresult⟩ := hfound step hget
    refine hpoll.bind fun p hp => (hresult p hp).bind fun result _ => ?_
    cases result with
    -- a step that repeats swallows its events, and `todo!()` stands for one that does not
    | emitted e => exact .panic fun h => hsites h trivial
    | pending | ready => exact .ok _

variable [BuildProfile]

/-- The arm of a free channel panics where the search does. -/
theorem pollFree_avoids (time : Time T) (channel fuel : ℕ)
    (hfind : (s.steps.getBeforeOrAt fuel time s.channelStatuses.getPinnedTimes).Avoids sites) :
    (s.pollFree time channel fuel).Avoids sites := by
  have hanswer : ¬ sites .answer := fun h => hsites h trivial
  have hdeque : ¬ sites .dequeIndex := fun h => hsites h trivial
  have hinterpolate : ¬ sites .interpolate := fun h => hsites h trivial
  refine hfind.bind fun q _ => ?_
  refine (Avoids.expect hanswer _).bind fun status _ => ?_
  cases status with
  | saturated i next =>
    refine (Avoids.unwrap hdeque _).bind fun step _ => ?_
    exact (Avoids.expect hinterpolate _).bind fun _ _ => .ok _
  | saturating i n =>
    refine (Avoids.unwrap hdeque _).bind fun step _ => ?_
    split
    · exact .ok _
    · exact .ok _

/-- **A round of `poll` avoids** what the lookup of its status and its search avoid, and what the
    lookup and the poll of the step its channel waits for avoid. -/
theorem pollRound_avoids_of_step {time : Time T} {channel : ℕ} {r : Round T}
    {u : NoInputTransposerSource T} (hu : s.afterWakerEvents r.wakerEvents = u)
    (hstatus : (u.channelStatuses.getChannelStatus channel).Avoids sites)
    (hfind : (u.steps.getBeforeOrAt r.fuel time u.channelStatuses.getPinnedTimes).Avoids sites)
    (horiginal : ∀ p, u.channelStatuses.blockedCallerChannels.get channel
        = some ⟨p, .originalStep⟩ →
      ∀ step, u.steps.getLast = .ok step → step.RoundAvoids sites r)
    (hrepeat : ∀ p stepId, u.channelStatuses.blockedCallerChannels.get channel
        = some ⟨p, .repeatStep stepId⟩ →
      (Outcome.unwrap .sequenceNumber (u.steps.getBySequenceNumber stepId)).Avoids sites ∧
      ∀ step, u.steps.getBySequenceNumber stepId = some step → step.RoundAvoids sites r) :
    (pollRound time channel r s).Avoids sites := by
  unfold pollRound
  rw [hu]
  refine hstatus.bind fun status hstatus => ?_
  rcases ChannelStatuses.getChannelStatus_cases hstatus with ⟨-, rfl⟩ | ⟨⟨p, inner⟩, hb, rfl⟩
  · exact (pollFree_avoids hsites time channel r.fuel hfind).bind fun _ _ => .ok _
  cases inner with
  | interpolationFuture i =>
    show Avoids _ (if p ≠ time then _ else _)
    split
    · exact .ok _
    · exact (pollInterpolationFuture_avoids hsites _ _ _ _).bind fun _ _ => .ok _
  | originalStep =>
    show Avoids _ (if p ≠ time then _ else _)
    split
    · exact .ok _
    · exact pollOriginalStepFuture_avoids hsites channel r (horiginal p hb)
  | repeatStep stepId =>
    obtain ⟨hstep, hresult⟩ := hrepeat p stepId hb
    show Avoids _ (if p ≠ time then _ else _)
    split
    · exact .ok _
    · exact pollRepeatStepFuture_avoids hsites _ _ _ r hstep hresult

/-- **A round of `poll_events` avoids** what its search and the poll of the step it finds avoid. -/
theorem pollEventsRound_avoids_of_step {time : Time T} {pinnedTimes : List (Time T)} {r : Round T}
    (hfind : (s.steps.getBeforeOrAtEvents time pinnedTimes).Avoids sites)
    (hfound : ∀ i n steps step,
      s.steps.getBeforeOrAtEvents time pinnedTimes = .ok (.saturating i n, steps) →
      steps.steps[i]? = some step → step.RoundAvoids sites r) :
    (pollEventsRound time pinnedTimes r s).Avoids sites := by
  have hdeque : ¬ sites .dequeIndex := fun h => hsites h trivial
  refine hfind.bind ?_
  rintro ⟨status, steps⟩ hq
  cases status with
  | ready next => exact .ok _
  | saturating i n =>
    refine (Avoids.unwrap hdeque _).bind fun step hstep => ?_
    rw [Outcome.unwrap_eq_ok] at hstep
    obtain ⟨hpoll, hresult⟩ := hfound i n steps step hq hstep
    refine hpoll.bind fun p hp => (hresult p hp).bind fun result _ => ?_
    split <;> exact .ok _

end Round

/-! For the sites that are in no future either, the poll of a step is left out. -/

section Round

variable [BuildProfile] {sites : Panic → Prop} (hsites : ∀ {p : Panic}, sites p → ¬ p.inRound)
  {s : NoInputTransposerSource T}
include hsites

/-- A round of `poll` avoids what its lookups, its search and the results of its steps avoid. -/
theorem pollRound_avoids {time : Time T} {channel : ℕ} {r : Round T}
    {u : NoInputTransposerSource T} (hu : s.afterWakerEvents r.wakerEvents = u)
    (hstatus : (u.channelStatuses.getChannelStatus channel).Avoids sites)
    (hfind : (u.steps.getBeforeOrAt r.fuel time u.channelStatuses.getPinnedTimes).Avoids sites)
    (horiginal : ∀ p, u.channelStatuses.blockedCallerChannels.get channel
        = some ⟨p, .originalStep⟩ →
      ∀ step p, u.steps.getLast = .ok step → step.poll r.fuel r.answers = .ok p →
        (Outcome.expect .stepPoll p.result).Avoids sites)
    (hrepeat : ∀ p stepId, u.channelStatuses.blockedCallerChannels.get channel
        = some ⟨p, .repeatStep stepId⟩ →
      (Outcome.unwrap .sequenceNumber (u.steps.getBySequenceNumber stepId)).Avoids sites ∧
      ∀ step p, u.steps.getBySequenceNumber stepId = some step →
        step.poll r.fuel r.answers = .ok p → (Outcome.expect .stepPoll p.result).Avoids sites) :
    (pollRound time channel r s).Avoids sites := by
  refine pollRound_avoids_of_step (fun h ha => hsites h ha.inRound) hu hstatus hfind ?_ ?_
  · intro p hb step hstep
    exact .of_result hsites fun q hq => horiginal p hb step q hstep hq
  · intro p stepId hb
    obtain ⟨hstep, hresult⟩ := hrepeat p stepId hb
    exact ⟨hstep, fun step hget => .of_result hsites fun q hq => hresult step q hget hq⟩

/-- A round of `poll_events` avoids what its search and the result of its step avoid. -/
theorem pollEventsRound_avoids {time : Time T} {pinnedTimes : List (Time T)} {r : Round T}
    (hfind : (s.steps.getBeforeOrAtEvents time pinnedTimes).Avoids sites)
    (hresult : ∀ i n steps step p,
      s.steps.getBeforeOrAtEvents time pinnedTimes = .ok (.saturating i n, steps) →
      steps.steps[i]? = some step → step.poll r.fuel r.answers = .ok p →
      (Outcome.expect .stepPoll p.result).Avoids sites) :
    (pollEventsRound time pinnedTimes r s).Avoids sites := by
  refine pollEventsRound_avoids_of_step (fun h ha => hsites h ha.inRound) hfind ?_
  intro i n steps step hq hstep
  exact .of_result hsites fun p hp => hresult i n steps step p hq hstep hp

end Round

end NoInputTransposerSource

end Cozal
