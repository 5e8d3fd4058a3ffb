import Cozal.Source.Rounds
import Cozal.Source.WalkBack

namespace Cozal

open Transposer

/-!
# Polls before the start or after an advance

`Source::advance` says that a poll before the time should result in `PollAfterAdvance`, and
`SourcePollErr` has `PollBeforeDefault` next to it.  Nothing constructs either of them: a poll
compares its time with the stored steps only.

* `NoInputTransposerSource.tryPoll` — the `Result` of a poll.
* `NoInputTransposerSource.ReachableBy.beforeAdvance_iff` — the times before an advance are those
  before `deletedBefore`, so the steps know them.
* `NoInputTransposerSource.poll_before_front` — a free channel that is polled before every stored
  step panics.
-/

variable {T : Type} [Transposer T]

namespace Steps

variable {s s₁ : Steps T}

/-- The step that is pushed does not come before the others. -/
theorem Pushed.before (hpushed : Pushed s s₁) (hs : s.Sound) {t : Time T}
    (hbefore : ∀ x ∈ s.steps, t < x.getTime) : ∀ x ∈ s₁.steps, t < x.getTime := by
  have hsorted := (hpushed.sound hs).sorted
  cases hpushed with
  | none _ => exact hbefore
  | @push last w k hlast _ _ =>
    intro x hx
    rcases List.mem_append.mp hx with hx | hx
    · exact hbefore x hx
    · have hmem := List.mem_of_getLast? hlast
      have hlt := (List.pairwise_append.mp hsorted).2.2 last hmem x hx
      exact (hbefore last hmem).trans hlt

section Build

variable [BuildProfile]

/-- Before every stored step nothing is found. -/
theorem getBeforeOrAt_before (h : s.Sound) {t : Time T} (hbefore : ∀ x ∈ s.steps, t < x.getTime)
    (fuel : ℕ) (pinnedTimes : List (Time T)) :
    ∃ s₁, s.getBeforeOrAt fuel t pinnedTimes = .ok (.error (), s₁) := by
  obtain ⟨s₁, hpush⟩ := h.tryNextScheduled_returns
  have hpushed := tryNextScheduled_cases hpush
  have hsearch : s₁.searchBeforeOrAt t = .error () := by
    rcases searchBeforeOrAt_cases (hpushed.sound h) t with ⟨i, x, -, hx⟩ | ⟨hi, -⟩
    · have hlt := hpushed.before h hbefore x (List.mem_of_getElem? hx.get)
      exact absurd hx.le (not_le.mpr hlt)
    · exact hi
  refine ⟨s₁, ?_⟩
  simp [getBeforeOrAt, getBeforeOrAtInternal, h.debugAssertions_returns, hpush, hsearch]

end Build

end Steps

namespace NoInputTransposerSource

variable {s s' : NoInputTransposerSource T} {time : Time T}

/-! ### The times that were passed to `advance` -/

/-- The time passed to `advance`. -/
def Call.advanced : Call T → Option (Time T)
  | .advance time => some time
  | .poll _ _ _ => none
  | .pollEvents _ _ => none
  | .releaseChannel _ => none

/-- The time lies before the largest time that was passed to `advance`. -/
def BeforeAdvance (history : List (Call T × Reply T)) (time : Time T) : Prop :=
  ∃ h ∈ history, ∃ a, h.1.advanced = some a ∧ time < a

/-- One more call is one more time that may have been advanced to. -/
theorem beforeAdvance_append {history : List (Call T × Reply T)} {c : Call T} {reply : Reply T} :
    BeforeAdvance (history ++ [(c, reply)]) time ↔
      BeforeAdvance history time ∨ ∃ a, c.advanced = some a ∧ time < a := by
  unfold BeforeAdvance
  constructor
  · rintro ⟨h, hmem, hlt⟩
    rcases List.mem_append.mp hmem with hmem | hmem
    · exact Or.inl ⟨h, hmem, hlt⟩
    · obtain rfl := List.mem_singleton.mp hmem
      exact Or.inr hlt
  · rintro (⟨h, hmem, hlt⟩ | hlt)
    · exact ⟨h, List.mem_append_left _ hmem, hlt⟩
    · exact ⟨_, List.mem_append_right _ List.mem_cons_self, hlt⟩

section Build

variable [BuildProfile]

/-- A round of `poll_events` lets no time be deleted. -/
theorem EventsRoundCases.deletedBefore {pinnedTimes : List (Time T)} {r : Round T}
    {o : Option (SourcePollOf T Unit)} (h : EventsRoundCases time pinnedTimes r s o s') :
    s'.steps.deletedBefore = s.steps.deletedBefore := by
  have hstart : ∀ {steps steps' : Steps T} {q : BeforeStatusEvents T},
      Steps.EventsCases steps pinnedTimes time q steps' →
      steps'.deletedBefore = steps.deletedBefore := by
    intro steps steps' q hcases
    cases hcases with
    | ready _ _ | saturating _ _ _ => rfl
    | start _ _ _ _ _ _ hsaturate => cases hsaturate <;> rfl
  cases h with
  | ready hpushed _ _ => exact hpushed.deletedBefore
  | emitted hpushed hcases _ _ _ | pending hpushed hcases _ _ _
  | completed _ hpushed hcases _ _ _ => exact (hstart hcases).trans hpushed.deletedBefore

/-- Only `advance` lets times be deleted. -/
theorem call_deletedBefore (hs : s.steps.Sound) {c : Call T} {reply : Reply T}
    (h : s.call c = .ok (reply, s')) (hc : c.advanced = none) :
    s'.steps.deletedBefore = s.steps.deletedBefore := by
  cases call_cases h with
  | poll time channel rounds hp =>
    obtain ⟨r, u, ⟨hu, hdel⟩, -, hr⟩ := Outcome.loop_ok
      (P := fun u => u.steps.Sound ∧ u.steps.deletedBefore = s.steps.deletedBefore) hp
      (.of_forall (fun _ _ => trivial) _ _) ⟨hs, rfl⟩ (fun _ _ _ hu _ hr =>
        ⟨pollRound_sound hu.1 hr, (pollRound_cases hu.1 hr).deletedBefore.trans hu.2⟩)
    exact (pollRound_cases hu hr).deletedBefore.trans hdel
  | pollEvents time rounds hp =>
    obtain ⟨r, u, ⟨hu, hdel⟩, -, hr⟩ := Outcome.loop_ok
      (P := fun u => u.steps.Sound ∧ u.steps.deletedBefore = s.steps.deletedBefore) hp
      (.of_forall (fun _ _ => trivial) _ _) ⟨hs, rfl⟩ (fun _ _ _ hu _ hr =>
        ⟨pollEventsRound_sound hu.1 hr, (pollEventsRound_cases hu.1 hr).deletedBefore.trans hu.2⟩)
    exact (pollEventsRound_cases hu hr).deletedBefore.trans hdel
  | releaseFree _ | release _ => rfl
  | advance _ => cases hc

/-- **The times before an advance** are those before `deletedBefore`. -/
theorem ReachableBy.beforeAdvance_iff {meets : NoInputTransposerSource T → Call T → Prop}
    {transposer : T} {startTime : Time T} {rngSeed : Seed T}
    {history : List (Call T × Reply T)}
    (h : ReachableBy meets transposer startTime rngSeed history s) (t : Time T) :
    BeforeAdvance history t ↔ ∃ b, s.steps.deletedBefore = some b ∧ t < b := by
  induction h with
  | new =>
    refine iff_of_false ?_ ?_
    · rintro ⟨_, hmem, -⟩
      cases hmem
    · rintro ⟨b, hb, -⟩
      cases hb
  | @call history s reply s' c hreach _ hc ih =>
    rw [beforeAdvance_append, ih]
    cases ha : c.advanced with
    | none =>
      rw [call_deletedBefore hreach.sound hc ha]
      simp
    | some a =>
      cases c with
      | poll _ _ _ | pollEvents _ _ | releaseChannel _ => cases ha
      | advance time =>
        obtain rfl := Option.some.inj ha
        cases call_cases hc with
        | advance hq =>
          rcases Steps.deleteBefore_cases hreach.sound hq with
            ⟨⟨b, hb, hle⟩, rfl⟩ | ⟨hlt, i, x, -, -, rfl, -⟩
          · -- an earlier time changes nothing
            simp only [hb, Option.some.injEq, exists_eq_left']
            exact or_iff_left_of_imp fun hta => hta.trans_le hle
          -- a later one takes the place of the one before
          · simp only [Steps.forget, Option.some.injEq, exists_eq_left']
            refine or_iff_right_of_imp ?_
            rintro ⟨b, hb, htb⟩
            exact htb.trans (hlt b hb)

/-! ### The errors of a poll -/

/-- The `Result` of `poll`: every return of it is an `Ok`. -/
def tryPoll (s : NoInputTransposerSource T) (time : Time T) (channel : ℕ)
    (rounds : List (Round T)) :
    Outcome (TrySourcePoll (Time T) (OutputEvent T) (OutputState T) Unit ×
      NoInputTransposerSource T) := do
  let (p, s) ← s.poll time channel rounds
  return (.ok p, s)

/-- What the documentation asks of a poll: before a time passed to `advance` it returns
    `PollAfterAdvance`, before the start it returns `PollBeforeDefault`, both without a change, and
    at any other time neither of them. -/
structure ReportsTime (startTime : Time T) (history : List (Call T × Reply T))
    (s : NoInputTransposerSource T) (time : Time T) (channel : ℕ) (rounds : List (Round T)) :
    Prop where
  after_advance : BeforeAdvance history time →
    ∃ a, s.tryPoll time channel rounds = .ok (.error (.pollAfterAdvance a), s)
  before_default : ¬ BeforeAdvance history time → time < startTime →
    s.tryPoll time channel rounds = .ok (.error .pollBeforeDefault, s)
  otherwise : ¬ BeforeAdvance history time → startTime ≤ time → ∀ e s',
    s.tryPoll time channel rounds = .ok (.error e, s') →
    (∀ a, e ≠ .pollAfterAdvance a) ∧ e ≠ .pollBeforeDefault

/-- A poll returns no error. -/
theorem tryPoll_ne_error {channel : ℕ} {rounds : List (Round T)} {e : SourcePollErr (Time T) Unit} :
    s.tryPoll time channel rounds ≠ .ok (.error e, s') := by
  intro h
  obtain ⟨⟨p, s₁⟩, -, hp⟩ := Outcome.bind_eq_ok.mp h
  cases hp

/-- **A free channel that is polled before every stored step panics**, whether the time lies
    before the start or the steps before an advance are gone. -/
theorem poll_before_front (hs : s.steps.Sound) {channel : ℕ}
    (hbefore : ∀ x ∈ s.steps.steps, time < x.getTime)
    (hfree : s.channelStatuses.blockedCallerChannels.get channel = none) (r : Round T)
    (rounds : List (Round T)) : s.poll time channel (r :: rounds) = .panic .answer := by
  have hfree' : (s.afterWakerEvents r.wakerEvents).channelStatuses.blockedCallerChannels.get
      channel = none := by
    rw [afterWakerEvents_blocked, hfree]
  obtain ⟨steps, hq⟩ := Steps.getBeforeOrAt_before hs hbefore r.fuel
    (s.afterWakerEvents r.wakerEvents).channelStatuses.getPinnedTimes
  have hround : pollRound time channel r s = .panic .answer := by
    simp only [pollRound, ChannelStatuses.getChannelStatus, hfree', Outcome.pure_eq,
      Outcome.ok_bind, pollFree]
    simp only [afterWakerEvents] at hq ⊢
    rw [hq]
    rfl
  simp only [poll, Outcome.loop, hround]
  rfl

end Build

end NoInputTransposerSource

open NoInputTransposerSource in
/-- **The errors of a poll.**  After any sequence of calls, a poll reports a time that lies before
    an advance or before the start, and no other, exactly when it is given no such time.  Given one
    that lies before every stored step, a free channel panics. -/
theorem poll_reports_time [BuildProfile] {transposer : T} {startTime : Time T}
    {rngSeed : Seed T} {history : List (Call T × Reply T)} {s : NoInputTransposerSource T}
    (h : Reachable transposer startTime rngSeed history s) (time : Time T) (channel : ℕ)
    (rounds : List (Round T)) :
    (s.ReportsTime startTime history time channel rounds ↔
      (∀ b, s.steps.deletedBefore = some b → b ≤ time) ∧ startTime ≤ time) ∧
    ((∀ x ∈ s.steps.steps, time < x.getTime) →
      s.channelStatuses.blockedCallerChannels.get channel = none →
      ∀ r, s.poll time channel (r :: rounds) = .panic .answer) := by
  refine ⟨?_, fun hbefore hfree r => poll_before_front h.sound hbefore hfree r rounds⟩
  have hadvance : ¬ BeforeAdvance history time ↔
      ∀ b, s.steps.deletedBefore = some b → b ≤ time := by
    rw [h.beforeAdvance_iff time]
    push Not
    rfl
  rw [← hadvance]
  constructor
  · intro hreports
    have hnot : ¬ BeforeAdvance history time := by
      intro hbefore
      obtain ⟨a, ha⟩ := hreports.after_advance hbefore
      exact tryPoll_ne_error ha
    refine ⟨hnot, ?_⟩
    by_contra hlt
    exact tryPoll_ne_error (hreports.before_default hnot (not_le.mp hlt))
  · rintro ⟨hnot, hle⟩
    exact {
      after_advance := fun hbefore => absurd hbefore hnot
      before_default := fun _ hlt => absurd hle (not_le.mpr hlt)
      otherwise := fun _ _ _ _ he => absurd he tryPoll_ne_error }

open NoInputTransposerSource in
/-- A source that starts at 5 is polled at 7 and at 3. -/
theorem poll_reports_time_script :
    ∃ (_ : BuildProfile) (s : NoInputTransposerSource Script) (r : Round Script),
      s.ReportsTime (5 : ℕ) [] (7 : ℕ) 1 [r] ∧ s.poll (3 : ℕ) 1 [r] = .panic .answer := by
  let _ : BuildProfile := debugBuild
  let round : Round Script := ⟨[], 30, []⟩
  have hnew := @ReachableBy.new Script _ _ (fun _ _ => True) ⟨[], [], [], 0⟩ (5 : ℕ) ()
  refine ⟨inferInstance, _, round, (poll_reports_time hnew (7 : ℕ) 1 [round]).1.mpr ⟨?_, ?_⟩,
    (poll_reports_time hnew (3 : ℕ) 1 []).2 ?_ rfl round⟩
  · intro b hb
    cases hb
  · show (5 : ℕ) ≤ 7
    decide
  · intro x hx
    obtain rfl := List.mem_singleton.mp hx
    show (3 : ℕ) < 5
    decide

open NoInputTransposerSource in
/-- After `advance(10)` a poll at 5 returns a state, for the step at 0 is still there.  A poll of a
    source that starts at 5 panics at 3. -/
theorem poll_reports_time_fails :
    ∃ (_ : BuildProfile) (history : List (Call Script × Reply Script))
      (s s' : NoInputTransposerSource Script) (r : Round Script) (state : ℕ × ℕ),
      Reachable ⟨[], [], [], 0⟩ (0 : ℕ) () history s ∧ BeforeAdvance history (5 : ℕ) ∧
      s.tryPoll (5 : ℕ) 1 [r, r] = .ok (.ok (.ready state none), s') ∧
      ¬ s.ReportsTime (0 : ℕ) history (5 : ℕ) 1 [r, r] ∧
      ¬ (new (⟨[], [], [], 0⟩ : Script) (5 : ℕ) ()).ReportsTime (5 : ℕ) [] (3 : ℕ) 1 [r] := by
  let _ : BuildProfile := debugBuild
  let round : Round Script := ⟨[], 30, []⟩
  have hnew := @ReachableBy.new Script _ _ (fun _ _ => True) ⟨[], [], [], 0⟩ (0 : ℕ) ()
  have hstate := hnew.call (.poll (0 : ℕ) 1 [round, round, round, round]) trivial rfl
  have hadvance := hstate.call (.advance (10 : ℕ)) trivial rfl
  have hbefore := (hadvance.beforeAdvance_iff (5 : ℕ)).mpr ⟨(10 : ℕ), rfl, by decide⟩
  refine ⟨inferInstance, _, _, _, round, _, hadvance, hbefore, rfl, ?_, ?_⟩
  · intro hreports
    obtain ⟨a, ha⟩ := hreports.after_advance hbefore
    cases ha
  · intro hreports
    have hpanic := hreports.before_default (by rintro ⟨_, hmem, -⟩; cases hmem) (by decide)
    cases hpanic

end Cozal
