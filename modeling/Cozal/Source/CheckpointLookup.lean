import Cozal.Source.Evictions
import Cozal.Source.Panics
import Cozal.Source.Rounds
import Cozal.Source.WalkBack

namespace Cozal

open Transposer

/-!
# Whether the lookup of a checkpoint is total

`get_not_unsaturated_before_or_at_time` subtracts one from the index of the first step after the
time, and unwraps the last checkpoint up to there.  Both fail for a time before the first step.
`advance` does not check that, and the first step moves past a pinned time when `advance` drops
steps or the second step consumes the first one.

* `Panic.atLookup` — the sites of the subtraction and of the unwrap.
* `Steps.KeepsPinned`, `Steps.SparesPinned` — what an `advance` and a round of a poll must not do.
* `NoInputTransposerSource.KeepsLookups` — the calls that do not.
* `NoInputTransposerSource.ReachableBy.inReach` — after such calls every pinned time is at or after
  the first step.
* `NoInputTransposerSource.LooksUpInReach`, `NoInputTransposerSource.InReach.call_looksUp` — so is
  every time that the next one looks up, and nothing underflows, whatever the build.
* `NoInputTransposerSource.InReach.call_avoids` — and it does not fail there.
-/

variable {T : Type} [Transposer T]

/-- The sites at which the lookup of a checkpoint fails. -/
def Panic.atLookup : Panic → Prop
  | .overflow => True
  | .checkpoint => True
  | _ => False

/-- A lookup does not fail at a site inside a round. -/
theorem Panic.atLookup.not_inRound {p : Panic} (h : p.atLookup) : ¬ p.inRound := by
  cases p <;> simp [Panic.atLookup, Panic.inRound, Panic.inFuture] at h ⊢

namespace Steps

variable {s s' s₁ : Steps T} {t : Time T}

/-! ### Times at or after the first step -/

/-- The first stored step is at or before the time. -/
def InReach (s : Steps T) (t : Time T) : Prop :=
  ∃ front, s.steps[0]? = some front ∧ front.getTime ≤ t

/-- A time in reach is not before the steps that are searched. -/
theorem InReach.searchable [BuildProfile] (h : s.InReach t) : s.Searchable t := by
  obtain ⟨front, hfront, hle⟩ := h
  exact Or.inl ⟨front, by rw [List.head?_eq_getElem?, hfront], hle⟩

/-- A time that a step is found for is in reach. -/
theorem LatestStep.inReach {i : ℕ} {x : Step T} (hx : s.LatestStep t i x) (hs : s.Sound) :
    s.InReach t := by
  obtain ⟨front, hhead, hfront, -⟩ := hs.exists_first
  refine ⟨front, hfront, ?_⟩
  exact (hs.front_le hhead (List.mem_of_getElem? hx.get)).trans hx.le

/-- The first step stays, at its time. -/
theorem InReach.of_front (h : s.InReach t) (hfront : ∀ x, s.steps[0]? = some x →
    ∃ x', s'.steps[0]? = some x' ∧ x'.getTime = x.getTime) : s'.InReach t := by
  obtain ⟨front, hf, hle⟩ := h
  obtain ⟨front', hf', ht⟩ := hfront front hf
  exact ⟨front', hf', ht.le.trans hle⟩

/-- Pushing the next step leaves the first one. -/
theorem InReach.pushed (h : s.InReach t) (hpushed : Pushed s s₁) : s₁.InReach t := by
  cases hpushed with
  | none _ => exact h
  | push _ _ _ => exact h.of_front fun x hx => ⟨x, getElem?_push hx _, rfl⟩

/-- Polling a step leaves the times in reach. -/
theorem InReach.polled (h : s.InReach t) {i fuel : ℕ} {step : Step T}
    {answers : List (Response T)} {p : StepPolled T} (hstep : s.steps[i]? = some step)
    (hsat : step.isSaturating = true) (hp : step.poll fuel answers = .ok p) :
    (s.setStep i p.step).InReach t := by
  obtain ⟨f, a, ch, hst⟩ := Step.isSaturating_iff.mp hsat
  have hdata := (Step.poll_run hst hp).1
  refine h.of_front ?_
  intro x hx
  by_cases hi : 0 = i
  · subst hi
    rw [hx, Option.some.injEq] at hstep
    subst hstep
    exact ⟨p.step, getElem?_setStep_self hx _, Step.getTime_eq hdata⟩
  · exact ⟨x, (getElem?_setStep_of_ne hi _).trans hx, rfl⟩

/-- A step that is saturated leaves the time in reach, unless it consumes the first one and is
    later than the time. -/
theorem SaturateCases.inReach_iff {pinnedTimes : List (Time T)} {j : ℕ} {step : Step T}
    {w : WrappedTransposer T} (h : SaturateCases s pinnedTimes j step w s')
    (hstep : s.steps[j + 1]? = some step) (ht : s.InReach t) :
    s'.InReach t ↔ (s.ConsumesFront j → step.getTime ≤ t) := by
  cases h with
  | saturate d _ hd hkeep =>
    have hd0 : d ≠ some 0 := fun hd0 => (hd 0 hd0).ne_zero rfl
    refine iff_of_true ?_ ?_
    · exact ht.of_front fun x hx =>
        ⟨x, (getElem?_saturatedAt_of_ne hstep (by omega) hd0).trans hx, rfl⟩
    · rintro ⟨hj, front, b, hfront, hb, hlt⟩
      exact absurd hlt (not_lt.mpr (hkeep hj b front hb hfront))
  | @consume front rest f b hj heq _ hb hlt =>
    rw [imp_iff_right ⟨hj, front, b, by rw [heq]; rfl, hb, hlt⟩]
    constructor
    · rintro ⟨first, hfirst, hle⟩
      obtain rfl := Option.some.inj hfirst
      exact hle
    · intro hle
      exact ⟨step.started f, rfl, hle⟩

/-- When the first steps are forgotten, the first one that is kept decides. -/
theorem inReach_forget_iff {i : ℕ} {x : Step T} (time : Time T) (hx : s.steps[i]? = some x) :
    (s.forget i time).InReach t ↔ x.getTime ≤ t := by
  rw [InReach, Steps.forget, List.getElem?_drop, Nat.add_zero, hx]
  simp only [Option.some.injEq, exists_eq_left']

/-! ### What the calls must not do -/

/-- A poll of the state at `t` does not consume the first step while a pinned time lies before the
    second one. -/
def SparesPinned (s : Steps T) (t : Time T) (pinnedTimes : List (Time T)) : Prop :=
  ∀ s₁ step, s.tryNextScheduled = .ok s₁ → s₁.ToStart t 0 → s₁.ConsumesFront 0 →
    s₁.steps[1]? = some step → ∀ p ∈ pinnedTimes, step.getTime ≤ p

/-- Nor does a poll of the events, which starts the last step only. -/
def SparesPinnedEvents (s : Steps T) (t : Time T) (pinnedTimes : List (Time T)) : Prop :=
  (∀ s₁, s.tryNextScheduled = .ok s₁ → s₁.steps.length = 2) → s.SparesPinned t pinnedTimes

/-- **A poll that spares the pinned times** keeps them in reach, and its own time. -/
theorem BeforeCases.inReach {pinnedTimes : List (Time T)} {i n : ℕ}
    (h : s₁.BeforeCases pinnedTimes t (.ok (.saturating i n)) s') (hs : s.Sound)
    (hpushed : Pushed s s₁) (hspares : s.SparesPinned t pinnedTimes) :
    s'.InReach t ∧ ∀ p ∈ pinnedTimes, s.InReach p → s'.InReach p := by
  have h₁ := hpushed.sound hs
  cases h with
  | saturating hx _ | previous hx _ _ _ =>
    exact ⟨hx.inReach h₁, fun p _ hp => hp.pushed hpushed⟩
  | @start j x prev w _ _ hx hunsat hprev hw hsaturate _ =>
    refine ⟨(hsaturate.inReach_iff hx.get (hx.inReach h₁)).mpr fun _ => hx.le, ?_⟩
    intro p hmem hp
    refine (hsaturate.inReach_iff hx.get (hp.pushed hpushed)).mpr ?_
    intro hconsumes
    obtain rfl := hconsumes.1
    exact hspares s₁ x (hpushed.tryNextScheduled hs)
      ⟨prev, x, hprev, Step.isSaturated_iff.mpr ⟨w, hw⟩, hx, Step.isUnsaturated_iff.mpr hunsat⟩
      hconsumes hx.get p hmem

/-- **A poll of the events that spares the pinned times** keeps them in reach. -/
theorem EventsCases.inReach {pinnedTimes : List (Time T)} {q : BeforeStatusEvents T}
    (h : s₁.EventsCases pinnedTimes t q s') (hs : s.Sound) (hpushed : Pushed s s₁)
    (hspares : s.SparesPinnedEvents t pinnedTimes) :
    ∀ p ∈ pinnedTimes, s.InReach p → s'.InReach p := by
  intro p hmem hp
  have hreach := hp.pushed hpushed
  cases h with
  | ready _ _ | saturating _ _ _ => exact hreach
  | @start j x prev w _ hx hle hunsat hj hprev hw hsaturate =>
    rw [show s₁.steps.length - 1 = j + 1 by omega] at hx
    have hlatest : s₁.LatestStep t (j + 1) x := .of_last hx hj hle
    refine (hsaturate.inReach_iff hx hreach).mpr ?_
    intro hconsumes
    obtain rfl := hconsumes.1
    have hpush := hpushed.tryNextScheduled hs
    refine hspares ?_ s₁ x hpush ⟨prev, x, hprev, Step.isSaturated_iff.mpr ⟨w, hw⟩, hlatest,
      Step.isUnsaturated_iff.mpr hunsat⟩ hconsumes hx p hmem
    intro s₂ hpush'
    obtain rfl := Outcome.ok.inj (hpush.symm.trans hpush')
    exact hj.symm

/-- `delete_before` ignores the time; or it finds a checkpoint before or at it that no pinned time
    comes before. -/
def KeepsPinned (s : Steps T) (t : Time T) (pinnedTimes : List (Time T)) : Prop :=
  (∃ b, s.deletedBefore = some b ∧ t ≤ b) ∨
  ∃ i x, s.LatestCheckpoint t i x ∧ ∀ p ∈ pinnedTimes, x.getTime ≤ p

/-- **An advance that keeps the pinned times** keeps them in reach, and deletes nothing when its
    time is before every step. -/
theorem KeepsPinned.inReach [BuildProfile] {pinnedTimes : List (Time T)} {r : Option (Time T)}
    (h : s.KeepsPinned t pinnedTimes) (hs : s.Sound) (hr : s.deleteBefore t = .ok (r, s')) :
    (∀ p ∈ pinnedTimes, s.InReach p → s'.InReach p) ∧
      ((∀ x ∈ s.steps, t < x.getTime) → s'.steps = s.steps) := by
  rcases deleteBefore_cases hs hr with ⟨-, rfl⟩ | ⟨hlt, i, x, hx, hxu, rfl, -, hcase⟩
  · exact ⟨fun _ _ hp => hp, fun _ => rfl⟩
  · rcases h with ⟨b, hb, hle⟩ | ⟨k, y, hy, hpinned⟩
    · exact absurd (hlt b hb) (not_lt.mpr hle)
    · have hnot : ¬ ∀ z ∈ s.steps, t < z.getTime := fun hbefore =>
        absurd hy.le (not_le.mpr (hbefore y (List.mem_of_getElem? hy.get)))
      refine ⟨?_, fun hbefore => absurd hbefore hnot⟩
      intro p hmem _
      obtain rfl := (hcase.resolve_right hnot).unique hy
      exact (inReach_forget_iff t hy.get).mpr (hpinned p hmem)

/-- **An advance that keeps the pinned times** is ignored, or looks for a time in reach. -/
theorem KeepsPinned.looksUp {pinnedTimes : List (Time T)} (h : s.KeepsPinned t pinnedTimes)
    (hs : s.Sound) : (∃ b, s.deletedBefore = some b ∧ t ≤ b) ∨ s.InReach t := by
  refine h.imp_right ?_
  rintro ⟨i, x, hx, -⟩
  obtain ⟨front, hhead, hfront, -⟩ := hs.exists_first
  exact ⟨front, hfront, (hs.front_le hhead (List.mem_of_getElem? hx.get)).trans hx.le⟩

/-! ### Where the calls do not fail -/

section Build

variable [BuildProfile]

/-- A step is saturated when the steps of all pinned times are found. -/
theorem Sound.saturate_avoids (h : s.Sound) (hlinked : s.Linked) {pinnedTimes : List (Time T)}
    (hpinned : ∀ p ∈ pinnedTimes, s.Searchable p) {j : ℕ} {prev step : Step T}
    (hprev : s.steps[j]? = some prev) (hsat : prev.isSaturated = true)
    (hstep : s.steps[j + 1]? = some step) (hunsat : step.isUnsaturated = true) :
    (s.saturate (s.numDeletedSteps + (j + 1)) pinnedTimes).Avoids Panic.atLookup := by
  obtain ⟨s', hs'⟩ := (saturate_returns_iff h hlinked hprev hsat hstep hunsat).mpr
    (Or.inr (Or.inr hpinned))
  rw [hs']
  exact .ok s'

/-- The search for the step to saturate looks up pinned times only, which can be searched for. -/
theorem Sound.walkBack_avoids (h : s.Sound) (hlinked : s.Linked) {pinnedTimes : List (Time T)}
    (hpinned : ∀ p ∈ pinnedTimes, s.Searchable p) {i : ℕ} {x : Step T}
    (hx : s.steps[i]? = some x) (hunsat : x.isUnsaturated = true) (fuel : ℕ) :
    (s.walkBack pinnedTimes i fuel).Avoids Panic.atLookup := by
  induction fuel with
  | zero => exact .running
  | succ fuel ih =>
    obtain ⟨j, prev, rfl, hprev⟩ := h.exists_prev hx hunsat
    rw [walkBack]
    simp only [hprev]
    split
    · rename_i hsat
      rw [Nat.add_comm]
      exact (h.saturate_avoids hlinked hpinned hprev hsat hx hunsat).bind fun _ _ => .ok _
    · split
      · exact .ok _
      · exact ih

/-- **`get_before_or_at`** does not fail at the lookup when every pinned time is found. -/
theorem Sound.getBeforeOrAt_avoids (h : s.Sound) (hlinked : s.Linked)
    {pinnedTimes : List (Time T)} (hpinned : ∀ p ∈ pinnedTimes, s.InReach p) (fuel : ℕ)
    (time : Time T) : (s.getBeforeOrAt fuel time pinnedTimes).Avoids Panic.atLookup := by
  unfold getBeforeOrAt
  rw [h.debugAssertions_returns, Outcome.ok_bind]
  refine Outcome.Avoids.bind ?_ ?_
  · obtain ⟨s₁, hpush⟩ := h.tryNextScheduled_returns
    have hpushed := tryNextScheduled_cases hpush
    have h₁ := hpushed.sound h
    unfold getBeforeOrAtInternal
    rw [hpush, Outcome.ok_bind, if_neg Bool.false_ne_true]
    split
    · exact .ok _
    · split
      · exact .ok _
      · rename_i i x hx
        split
        · exact .ok _
        · rename_i hnsat
          split
          · exact .ok _
          · rename_i hnsat'
            -- the one arm of the search that looks pinned times up
            rw [Bool.not_eq_true] at hnsat hnsat'
            exact h₁.walkBack_avoids (hpushed.linked hlinked)
              (fun p hp => ((hpinned p hp).pushed hpushed).searchable) hx
              (isUnsaturated_of_neither hnsat hnsat') fuel
  · rintro ⟨r, u⟩ -
    rcases r with ⟨⟩ | i | i | -
    · exact .ok _
    · refine Outcome.Avoids.bind ?_ fun _ _ => (Outcome.Avoids.unwrap id _).bind fun _ _ => .ok _
      exact (Outcome.Avoids.unwrap id _).bind fun _ _ => .ok _
    · exact (Outcome.Avoids.unwrap id _).bind fun _ _ => .ok _
    · exact .panic id

/-- **`get_before_or_at_events`** does not either. -/
theorem Sound.getBeforeOrAtEvents_avoids (h : s.Sound) (hlinked : s.Linked)
    {pinnedTimes : List (Time T)} (hpinned : ∀ p ∈ pinnedTimes, s.InReach p) (time : Time T) :
    (s.getBeforeOrAtEvents time pinnedTimes).Avoids Panic.atLookup := by
  obtain ⟨s₁, hpush⟩ := h.tryNextScheduled_returns
  have hpushed := tryNextScheduled_cases hpush
  have h₁ := hpushed.sound h
  have hpos := h₁.length_pos
  unfold getBeforeOrAtEvents
  rw [h.debugAssertions_returns, Outcome.ok_bind, hpush, Outcome.ok_bind, maxSequenceNumber,
    usizeSub_of_le (by omega), Outcome.ok_bind]
  refine (Outcome.Avoids.unwrap id _).bind fun last hlast => ?_
  rw [Outcome.unwrap_eq_ok, List.getLast?_eq_getElem?] at hlast
  split
  · exact .ok _
  · split
    · rename_i hunsat
      have hend := h₁.last _ last hlast (by omega)
      -- an unsaturated last step comes after a saturated one, so `saturate` gets past its checks
      simp only [LastStep, Step.isUnsaturated_iff.mp hunsat] at hend
      obtain ⟨-, j, prev, w, k, hj, hprev, hw, -, -⟩ := hend
      rw [show s₁.steps.length - 1 = j + 1 by omega] at hlast
      rw [show s₁.numDeletedSteps + s₁.steps.length - 1 = s₁.numDeletedSteps + (j + 1) by omega]
      exact (h₁.saturate_avoids (hpushed.linked hlinked)
        (fun p hp => ((hpinned p hp).pushed hpushed).searchable) hprev
        (Step.isSaturated_iff.mpr ⟨w, hw⟩) hlast hunsat).bind fun _ _ => .ok _
    · exact .ok _

/-- **`delete_before`** returns exactly when it ignores the time, or finds a checkpoint for it. -/
theorem deleteBefore_returns_iff (h : s.Sound) {time : Time T} :
    (∃ r s', s.deleteBefore time = .ok (r, s')) ↔
      (∃ b, s.deletedBefore = some b ∧ time ≤ b) ∨ s.Searchable time := by
  constructor
  · rintro ⟨r, s', hr⟩
    rcases deleteBefore_cases h hr with ⟨hb, -⟩ | ⟨-, i, -, -, -, -, hn, -⟩
    · exact Or.inl hb
    · exact Or.inr ((lookup_returns_iff (h.withDeletedBefore (some time))).mp ⟨_, hn⟩)
  · intro htime
    unfold deleteBefore
    rw [h.debugAssertions_returns, Outcome.ok_bind]
    split
    · exact ⟨_, s, rfl⟩
    · rename_i hnot
      have hsound := h.withDeletedBefore (some time)
      have hsearch : Searchable { s with deletedBefore := some time } time :=
        htime.resolve_left hnot
      obtain ⟨n, hn⟩ := (lookup_returns_iff hsound).mpr hsearch
      obtain ⟨i, x, rfl, hx⟩ : ∃ i x, n = s.numDeletedSteps + i ∧ s.steps[i]? = some x := by
        rcases latestCheckpoint_of_ok hsound hn with ⟨i, x, hi, hx⟩ | ⟨-, hmem⟩
        · exact ⟨i, x, hi, hx.get⟩
        · obtain ⟨i, x, hi, hx, -⟩ := hsound.exists_of_checkpoint hmem
          exact ⟨i, x, hi, hx⟩
      have hi := (List.getElem?_eq_some_iff.mp hx).1
      dsimp only
      rw [hn, Outcome.ok_bind, usizeSub_add_left, Outcome.ok_bind, Outcome.assert, if_pos hi.le]
      exact ⟨_, _, rfl⟩

end Build

end Steps

namespace NoInputTransposerSource

variable {s s' : NoInputTransposerSource T} {time : Time T} {r : Round T}

/-- The steps are in order, and the first one is not later than a time that a blocked channel
    pins. -/
structure InReach (s : NoInputTransposerSource T) : Prop where
  sound : s.steps.Sound
  linked : s.steps.Linked
  pinned : s.channelStatuses.All fun b => ∀ t, b.getPinnedTime = some t → s.steps.InReach t

/-- At first no channel is blocked. -/
theorem InReach.new (transposer : T) (startTime : Time T) (rngSeed : Seed T) :
    InReach (.new transposer startTime rngSeed) :=
  ⟨.new transposer startTime rngSeed, .new transposer startTime rngSeed, .new⟩

/-- A pinned time is that of a blocked channel, so it is in reach. -/
theorem InReach.of_mem (h : s.InReach) {p : Time T}
    (hp : p ∈ s.channelStatuses.getPinnedTimes) : s.steps.InReach p := by
  obtain ⟨channel, b, hb, ht⟩ := ChannelStatuses.mem_getPinnedTimes.mp hp
  exact h.pinned channel b hb p ht

/-- What happens to the stack wakers pins no time. -/
@[simp] theorem afterWakerEvents_getPinnedTimes (s : NoInputTransposerSource T)
    (events : List (ℕ × StackWakerEvent)) :
    (s.afterWakerEvents events).channelStatuses.getPinnedTimes
      = s.channelStatuses.getPinnedTimes := by
  simp only [ChannelStatuses.getPinnedTimes, afterWakerEvents_blocked]

/-- What happens to the stack wakers changes neither steps nor blocked channels. -/
theorem InReach.afterWakerEvents (h : s.InReach) (events : List (ℕ × StackWakerEvent)) :
    (s.afterWakerEvents events).InReach :=
  ⟨h.sound, h.linked, h.pinned.of_eq (afterWakerEvents_blocked s events)⟩

/-- **A round of `poll` that spares the pinned times** keeps them in reach. -/
theorem RoundCases.inReach {channel : ℕ} {o : Option (SourcePollOf T (OutputState T))}
    (h : RoundCases time channel r s o s') (hs : s.InReach)
    (hspares : s.channelStatuses.blockedCallerChannels.get channel = none →
      s.steps.SparesPinned time s.channelStatuses.getPinnedTimes) : s'.InReach := by
  refine ⟨Steps.sound_of_moves h.moves hs.sound, Steps.linked_of_moves h.moves hs.linked, ?_⟩
  -- the times that stay pinned stay in reach
  have hkept : ∀ {steps : Steps T}, (∀ p ∈ s.channelStatuses.getPinnedTimes,
      s.steps.InReach p → steps.InReach p) → s.channelStatuses.All fun b => ∀ t,
      b.getPinnedTime = some t → steps.InReach t := by
    intro steps hsteps
    refine hs.pinned.imp ?_
    intro channel b hb hreach t ht
    exact hsteps t (ChannelStatuses.mem_getPinnedTimes.mpr ⟨channel, b, hb, ht⟩) (hreach t ht)
  cases h with
  | abandon _ _ => exact hs.pinned.vacate ChannelStatuses.abandon_blocked
  | interpolate _ hpushed _ _ =>
    exact (hkept fun p _ hp => hp.pushed hpushed).occupy rfl (by intro t ht; cases ht)
  | @wait steps i n steps' step hfree hpushed hcases _ =>
    obtain ⟨hown, hothers⟩ := hcases.inReach hs.sound hpushed (hspares hfree)
    have hall := hkept hothers
    show ChannelStatuses.All _ (if _ then _ else _)
    split
    · exact hall.occupy rfl (by intro t ht; cases ht; exact hown)
    · exact hall.occupy rfl (by intro t ht; cases ht; exact hown)
  | interpolationPending _ _ => exact hs.pinned.occupy rfl (by intro t ht; cases ht)
  | interpolationReady _ _ => exact hs.pinned.vacate rfl
  | originalEmitted _ hstep hp hr | originalPending _ hstep hp hr =>
    exact hkept fun p _ hreach => hreach.polled hstep (Step.isSaturating_of_poll hp hr) hp
  | originalReady _ hstep hp hr =>
    exact (hkept fun p _ hreach =>
      hreach.polled hstep (Step.isSaturating_of_poll hp hr) hp).vacate rfl
  | repeatWaits _ hreg =>
    exact hs.pinned.of_eq (ChannelStatuses.blocked_of_registerWaker hreg)
  | repeatPending _ _ hstep hreg hp hr =>
    exact (hkept fun p _ hreach => hreach.polled hstep (Step.isSaturating_of_poll hp hr) hp).of_eq
      (ChannelStatuses.blocked_of_registerWaker hreg)
  | repeatReady _ _ hstep hreg hp hr =>
    exact (hkept fun p _ hreach =>
      hreach.polled hstep (Step.isSaturating_of_poll hp hr) hp).vacate
        (ChannelStatuses.abandon_registered hreg time)

/-- The status of a channel is found without a lookup. -/
theorem getChannelStatus_avoids_lookup (c : ChannelStatuses T) (channel : ℕ) :
    (c.getChannelStatus channel).Avoids Panic.atLookup := by
  unfold ChannelStatuses.getChannelStatus
  split
  · exact .ok _
  · exact .ok _
  · exact (Outcome.Avoids.unwrap id _).bind fun _ _ => .ok _
  · exact .ok _

section Build

variable [BuildProfile]

/-- **A round of `poll_events` that spares the pinned times** keeps them in reach. -/
theorem EventsRoundCases.inReach {o : Option (SourcePollOf T Unit)}
    (h : EventsRoundCases time s.channelStatuses.getPinnedTimes r s o s') (hs : s.InReach)
    (hspares : s.steps.SparesPinnedEvents time s.channelStatuses.getPinnedTimes) :
    s'.InReach := by
  have hkept : ∀ p ∈ s.channelStatuses.getPinnedTimes, s'.steps.InReach p := by
    intro p hmem
    have hp := hs.of_mem hmem
    cases h with
    | ready hpushed _ _ => exact hp.pushed hpushed
    | emitted hpushed hcases hstep hpoll hr | pending hpushed hcases hstep hpoll hr
    | completed _ hpushed hcases hstep hpoll hr =>
      exact (hcases.inReach hs.sound hpushed hspares p hmem hp).polled hstep
        (Step.isSaturating_of_poll hpoll hr) hpoll
  refine ⟨Steps.sound_of_moves h.moves hs.sound, Steps.linked_of_moves h.moves hs.linked, ?_⟩
  rw [h.channelStatuses]
  intro channel b hb t ht
  exact hkept t (ChannelStatuses.mem_getPinnedTimes.mpr ⟨channel, b, hb, ht⟩)

/-! ### Rounds and calls -/

/-- The call keeps every pinned time in reach: no round of a poll consumes the first step while a
    pinned time lies before the second one, and `advance` drops no step that one needs. -/
def KeepsLookups (s : NoInputTransposerSource T) : Call T → Prop
  | .poll time channel rounds =>
      Outcome.AllRounds (pollRound time channel) (fun _ u =>
        u.channelStatuses.blockedCallerChannels.get channel = none →
          u.steps.SparesPinned time u.channelStatuses.getPinnedTimes) rounds s
  | .pollEvents time rounds =>
      Outcome.AllRounds (pollEventsRound time s.channelStatuses.getPinnedTimes) (fun _ u =>
        u.steps.SparesPinnedEvents time s.channelStatuses.getPinnedTimes) rounds s
  | .releaseChannel _ => True
  | .advance time => s.steps.KeepsPinned time s.channelStatuses.getPinnedTimes

/-- Every time that the call looks up is at or after the first step, where it is looked up.  A round
    of a poll looks up the pinned times once it has pushed the next step; `advance` looks up its own
    time, unless it is ignored. -/
def LooksUpInReach (s : NoInputTransposerSource T) : Call T → Prop
  | .poll time channel rounds =>
      Outcome.AllRounds (pollRound time channel) (fun _ u =>
        ∀ steps, u.steps.tryNextScheduled = .ok steps →
          ∀ p ∈ u.channelStatuses.getPinnedTimes, steps.InReach p) rounds s
  | .pollEvents time rounds =>
      Outcome.AllRounds (pollEventsRound time s.channelStatuses.getPinnedTimes) (fun _ u =>
        ∀ steps, u.steps.tryNextScheduled = .ok steps →
          ∀ p ∈ s.channelStatuses.getPinnedTimes, steps.InReach p) rounds s
  | .releaseChannel _ => True
  | .advance time => (∃ b, s.steps.deletedBefore = some b ∧ time ≤ b) ∨ s.steps.InReach time

/-- A round of `poll` that spares the pinned times keeps them in reach. -/
theorem InReach.pollRound (h : s.InReach) {channel : ℕ}
    {o : Option (SourcePollOf T (OutputState T))}
    (hr : pollRound time channel r s = .ok (o, s'))
    (hspares : s.channelStatuses.blockedCallerChannels.get channel = none →
      s.steps.SparesPinned time s.channelStatuses.getPinnedTimes) : s'.InReach := by
  refine (pollRound_cases h.sound hr).inReach (h.afterWakerEvents r.wakerEvents) ?_
  rw [afterWakerEvents_getPinnedTimes, afterWakerEvents_blocked]
  exact hspares

/-- A round of `poll_events` that spares the pinned times keeps them in reach. -/
theorem InReach.pollEventsRound {u : NoInputTransposerSource T} (h : s.InReach)
    (heq : s.channelStatuses = u.channelStatuses) {o : Option (SourcePollOf T Unit)}
    (hr : NoInputTransposerSource.pollEventsRound time u.channelStatuses.getPinnedTimes r s =
      .ok (o, s'))
    (hspares : s.steps.SparesPinnedEvents time u.channelStatuses.getPinnedTimes) :
    s'.InReach ∧ s'.channelStatuses = u.channelStatuses := by
  rw [← heq] at hr hspares ⊢
  have hcases := pollEventsRound_cases h.sound hr
  exact ⟨hcases.inReach h hspares, hcases.channelStatuses⟩

/-- **A round of `poll` does not fail at a lookup.** -/
theorem InReach.pollRound_avoids (h : s.InReach) (channel : ℕ) (r : Round T) :
    (NoInputTransposerSource.pollRound time channel r s).Avoids Panic.atLookup := by
  obtain ⟨u, hu⟩ : ∃ u, s.afterWakerEvents r.wakerEvents = u := ⟨_, rfl⟩
  have hwoken := h.afterWakerEvents r.wakerEvents
  rw [hu] at hwoken
  refine NoInputTransposerSource.pollRound_avoids Panic.atLookup.not_inRound hu
    (getChannelStatus_avoids_lookup u.channelStatuses channel)
    (hwoken.sound.getBeforeOrAt_avoids hwoken.linked (fun p hp => hwoken.of_mem hp) r.fuel time)
    ?_ ?_
  · intro _ _ _ _ _ _
    exact .expect id _
  · intro _ _ _
    exact ⟨.unwrap id _, fun _ _ _ _ => .expect id _⟩

/-- **A round of `poll_events` does not either.** -/
theorem InReach.pollEventsRound_avoids (h : s.InReach) {pinnedTimes : List (Time T)}
    (hpinned : ∀ p ∈ pinnedTimes, s.steps.InReach p) (r : Round T) :
    (NoInputTransposerSource.pollEventsRound time pinnedTimes r s).Avoids Panic.atLookup :=
  NoInputTransposerSource.pollEventsRound_avoids Panic.atLookup.not_inRound
    (h.sound.getBeforeOrAtEvents_avoids h.linked hpinned time) fun _ _ _ _ _ _ _ _ =>
      .expect id _

/-- **A call that keeps every pinned time in reach** leaves them so. -/
theorem InReach.call (h : s.InReach) {c : Call T} {reply : Reply T} (hkeeps : KeepsLookups s c)
    (hc : s.call c = .ok (reply, s')) : s'.InReach := by
  cases call_cases hc with
  | poll time channel rounds hp =>
    obtain ⟨r, u, hu, hmeets, hr⟩ := Outcome.loop_ok (P := InReach) hp hkeeps h
      (fun _ _ _ hu hmeets hr => hu.pollRound hr hmeets)
    exact hu.pollRound hr hmeets
  | pollEvents time rounds hp =>
    obtain ⟨r, u, ⟨hu, heq⟩, hmeets, hr⟩ := Outcome.loop_ok
      (P := fun u => u.InReach ∧ u.channelStatuses = s.channelStatuses) hp hkeeps ⟨h, rfl⟩
      (fun _ _ _ hu hmeets hr => hu.1.pollEventsRound hu.2 hr hmeets)
    exact (hu.pollEventsRound heq hr hmeets).1
  | releaseFree _ => exact h
  | release _ => exact ⟨h.sound, h.linked, h.pinned.vacate ChannelStatuses.abandon_blocked⟩
  | @advance time _ steps hq =>
    have hmoves := (Steps.Call.Does.deleteBefore time hq).moves h.sound
    obtain ⟨hreach, -⟩ := Steps.KeepsPinned.inReach hkeeps h.sound hq
    refine ⟨Steps.sound_of_moves hmoves h.sound, Steps.linked_of_moves hmoves h.linked, ?_⟩
    intro channel b hb t ht
    have hmem := ChannelStatuses.mem_getPinnedTimes.mpr ⟨channel, b, hb, ht⟩
    exact hreach t hmem (h.of_mem hmem)

/-- **Every lookup of such a call is in reach**, so that nothing underflows there in any build. -/
theorem InReach.call_looksUp (h : s.InReach) {c : Call T} (hkeeps : KeepsLookups s c) :
    LooksUpInReach s c := by
  cases c with
  | poll time channel rounds =>
    refine Outcome.AllRounds.imp hkeeps (P := InReach) h ?_ ?_
    · exact fun _ _ _ hu hmeets hr => hu.pollRound hr hmeets
    · intro r u hu _ steps hpush p hp
      exact (hu.of_mem hp).pushed (Steps.tryNextScheduled_cases hpush)
  | pollEvents time rounds =>
    refine Outcome.AllRounds.imp hkeeps
      (P := fun u => u.InReach ∧ u.channelStatuses = s.channelStatuses) ⟨h, rfl⟩ ?_ ?_
    · exact fun _ _ _ hu hmeets hr => hu.1.pollEventsRound hu.2 hr hmeets
    · -- the times the first round has pinned are still those of the channels
      rintro r u ⟨hu, heq⟩ - steps hpush p hp
      rw [← heq] at hp
      exact (hu.of_mem hp).pushed (Steps.tryNextScheduled_cases hpush)
  | releaseChannel channel => trivial
  | advance time => exact Steps.KeepsPinned.looksUp hkeeps h.sound

/-- **Nor does it fail at a lookup.** -/
theorem InReach.call_avoids (h : s.InReach) {c : Call T} (hkeeps : KeepsLookups s c) :
    (s.call c).Avoids Panic.atLookup := by
  cases c with
  | poll time channel rounds =>
    refine Outcome.Avoids.bind ?_ fun _ _ => .ok _
    exact Outcome.Avoids.loop (P := InReach) hkeeps h
      (fun _ _ _ hu hmeets hr => hu.pollRound hr hmeets)
      (fun r _ hu _ => hu.pollRound_avoids channel r)
  | pollEvents time rounds =>
    refine Outcome.Avoids.bind ?_ fun _ _ => .ok _
    refine Outcome.Avoids.loop (P := fun u => u.InReach ∧ u.channelStatuses = s.channelStatuses)
      hkeeps ⟨h, rfl⟩ (fun _ _ _ hu hmeets hr => hu.1.pollEventsRound hu.2 hr hmeets) ?_
    -- the times the first round has pinned are still those of the channels
    rintro r u ⟨hu, heq⟩ -
    exact hu.pollEventsRound_avoids (fun p hp => hu.of_mem (by rw [heq]; exact hp)) r
  | releaseChannel channel =>
    refine Outcome.Avoids.bind ?_ fun _ _ => .ok _
    exact (getChannelStatus_avoids_lookup s.channelStatuses channel).bind fun _ _ => .ok _
  | advance time =>
    refine Outcome.Avoids.bind ?_ fun _ _ => .ok _
    refine Outcome.Avoids.bind ?_ fun _ _ => .ok _
    obtain ⟨r, steps, hr⟩ := (Steps.deleteBefore_returns_iff h.sound).mpr
      ((Steps.KeepsPinned.looksUp hkeeps h.sound).imp_right Steps.InReach.searchable)
    rw [hr]
    exact .ok _

/-- **Every pinned time stays in reach** in a run of such calls. -/
theorem ReachableBy.inReach {transposer : T} {startTime : Time T} {rngSeed : Seed T}
    {history : List (Call T × Reply T)}
    (h : ReachableBy KeepsLookups transposer startTime rngSeed history s) : s.InReach := by
  induction h with
  | new => exact .new transposer startTime rngSeed
  | call c _ hkeeps hc ih => exact ih.call hkeeps hc

/-- Before any advance no call consumes the first step. -/
theorem keepsLookups_of_never_advanced (hs : s.steps.Sound) (hd : s.steps.deletedBefore = none)
    (channel : ℕ) (rounds : List (Round T)) : KeepsLookups s (.poll time channel rounds) := by
  refine Outcome.AllRounds.of_invariant
    (P := fun u => u.steps.Sound ∧ u.steps.deletedBefore = none) ?_ ?_ rounds ⟨hs, hd⟩
  · rintro r u ⟨-, hd⟩ - s₁ step hpush - ⟨-, front, b, -, hb, -⟩
    rw [(Steps.tryNextScheduled_cases hpush).deletedBefore, hd] at hb
    cases hb
  · rintro r u u' ⟨hu, hd⟩ hr
    exact ⟨pollRound_sound hu hr, (pollRound_cases hu hr).deletedBefore.trans hd⟩

end Build

end NoInputTransposerSource

open NoInputTransposerSource in
/-- **The lookup of a checkpoint.**  In a run of calls that keep the pinned times in reach, every
    time that a blocked channel pins is at or after the first step, in every state that is reached,
    so that its lookup returns and does not underflow.  The same holds of every time that the next
    such call looks up, in any of its rounds, and it fails neither at the subtraction nor at the
    unwrap; and an `advance` to a time before every step deletes none. -/
theorem checkpoint_lookup_total [BuildProfile] {transposer : T} {startTime : Time T}
    {rngSeed : Seed T} {history : List (Call T × Reply T)} {s : NoInputTransposerSource T}
    (h : ReachableBy KeepsLookups transposer startTime rngSeed history s) :
    (∀ p ∈ s.channelStatuses.getPinnedTimes, s.steps.InReach p ∧
      ∃ n, s.steps.getNotUnsaturatedBeforeOrAtTime p = .ok n) ∧
    (∀ c, KeepsLookups s c → LooksUpInReach s c ∧
      ∀ site, site.atLookup → s.call c ≠ .panic site) ∧
    ∀ t reply s', KeepsLookups s (.advance t) → (∀ x ∈ s.steps.steps, t < x.getTime) →
      s.call (.advance t) = .ok (reply, s') → s'.steps.steps = s.steps.steps := by
  have hreach := h.inReach
  refine ⟨?_, ?_, ?_⟩
  · intro p hp
    exact ⟨hreach.of_mem hp,
      (Steps.lookup_returns_iff hreach.sound).mpr (hreach.of_mem hp).searchable⟩
  · exact fun c hkeeps => ⟨hreach.call_looksUp hkeeps, hreach.call_avoids hkeeps⟩
  · intro t reply s' hkeeps hbefore hc
    cases call_cases hc with
    | advance hq => exact (Steps.KeepsPinned.inReach hkeeps hreach.sound hq).2 hbefore

open NoInputTransposerSource in
/-- A channel waits at 4 for the step at 3, when the source is advanced to 10. -/
theorem checkpoint_lookup_total_script :
    ∃ (_ : BuildProfile) (s : NoInputTransposerSource Script),
      s.steps.deletedBefore = some (10 : ℕ) ∧ s.channelStatuses.getPinnedTimes = [(4 : ℕ)] ∧
      ∃ n, s.steps.getNotUnsaturatedBeforeOrAtTime (4 : ℕ) = .ok n := by
  let _ : BuildProfile := debugBuild
  let round : Round Script := ⟨[], 30, []⟩
  have hnew := @ReachableBy.new Script _ _ KeepsLookups ⟨[.schedule 3], [.wait], [], 0⟩ (0 : ℕ) ()
  have hstate := hnew.call (.poll (0 : ℕ) 1 [round, round, round, round])
    (keepsLookups_of_never_advanced hnew.sound rfl 1 _) rfl
  have hwaits := hstate.call (.poll (4 : ℕ) 1 [round, round])
    (keepsLookups_of_never_advanced hstate.sound rfl 1 _) rfl
  have hadvance := hwaits.call (.advance (10 : ℕ))
    (Or.inr ⟨1, _, ⟨rfl, rfl, by decide, ?_⟩, ?_⟩) rfl
  · exact ⟨inferInstance, _, rfl, rfl,
      ((checkpoint_lookup_total hadvance).1 (4 : ℕ) List.mem_cons_self).2⟩
  · intro j y hj hy
    exact absurd (List.getElem?_eq_some_iff.mp hy).1 (not_lt.mpr hj)
  · intro p hp
    obtain rfl := List.mem_singleton.mp hp
    show (3 : ℕ) ≤ 4
    decide

open NoInputTransposerSource in
/-- A source that starts at 5 fails at the subtraction when it is advanced to 3.  A channel that
    waits at 4 for the step at 3 is left behind by an `advance(10)`, which drops that step: the
    subtraction fails for the time it pins. -/
theorem checkpoint_lookup_total_fails :
    ∃ (_ : BuildProfile) (history history' : List (Call Script × Reply Script))
      (s s' : NoInputTransposerSource Script),
      Reachable ⟨[], [], [], 0⟩ (5 : ℕ) () history s ∧
      s.call (.advance (3 : ℕ)) = .panic .overflow ∧
      Reachable ⟨[.schedule 3, .schedule 6], [.wait], [], 0⟩ (0 : ℕ) () history' s' ∧
      (4 : ℕ) ∈ s'.channelStatuses.getPinnedTimes ∧
      s'.steps.getNotUnsaturatedBeforeOrAtTime (4 : ℕ) = .panic .overflow := by
  let _ : BuildProfile := debugBuild
  let round : Round Script := ⟨[], 30, []⟩
  have hstart := @ReachableBy.new Script _ _ (fun _ _ => True) ⟨[], [], [], 0⟩ (5 : ℕ) ()
  have hnew := @ReachableBy.new Script _ _ (fun _ _ => True)
    ⟨[.schedule 3, .schedule 6], [.wait], [], 0⟩ (0 : ℕ) ()
  have hstate := hnew.call (.poll (0 : ℕ) 1 [round, round, round, round]) trivial rfl
  have hwaits := hstate.call (.poll (4 : ℕ) 1 [round, round]) trivial rfl
  have hevents := hwaits.call (.pollEvents (10 : ℕ) [⟨[], 30, [()]⟩, round]) trivial rfl
  have hadvance := hevents.call (.advance (10 : ℕ)) trivial rfl
  exact ⟨inferInstance, _, _, _, _, hstart, rfl, hadvance, List.mem_cons_self,
    by decide +kernel⟩

end Cozal
