import Cozal.Lib.Timetable
import Cozal.Source.CheckpointLookup
import Cozal.Source.FuturePanics
import Cozal.Source.NextEvent

namespace Cozal

open Transposer

/-!
# A source that is only driven forward

A source may be advanced to the present and polled for its events there, over and over, and never
polled for a state.  Then every step takes the state of the one before it, so at most two steps
are kept; nothing panics; and the events come out as the reference has them.

* `Reference.timetable` — the events of the reference, and its due times.
* `Steps.Sound.getBeforeOrAtEvents_returns` — without pinned times the search always returns.
* `Steps.Emitted.roundAvoids` — a saturating step on the line of the reference can be polled.
* `Steps.Forward` — at most two steps are kept, and the second one has not started.
* `NoInputTransposerSource.Forward` — the invariant of a source that is only driven forward, with
  what `advance` (`Forward.advance`) and a round of `poll_events` (`Forward.round`) do to it.
* `NoInputTransposerSource.Forward.nextDue` — when a poll is ready it says when the next step of
  the reference is due.
-/

variable {T : Type} [Transposer T]

/-! ### The timetable of the reference -/

/-- A future that has run to its end leaves nothing to do at its time. -/
theorem Completes.drained {t : Time T} {f : SaturationFuture T} {o : List (OutputEvent T)}
    {w : WrappedTransposer T} (h : Completes f o w) (hf : InTime t f) : Drained t w := by
  obtain ⟨g, hrun, hw⟩ := h
  refine InTime.drained ?_ hw
  refine hrun.preserves (P := InTime t) ?_ hf
  intro f o f' hstep hin
  obtain ⟨l, hwork⟩ := hstep.work
  exact hin.work hwork

namespace Reference

variable {R : Reference T}

/-- **The due times increase.** -/
theorem Point.time_lt (hd : Deterministic T) {n m : ℕ} {o o' : List (Time T × OutputEvent T)}
    {t t' : Time T} {f f' : SaturationFuture T} (h : R.Point n o t f) (h' : R.Point m o' t' f')
    (hlt : n < m) : t < t' := by
  induction h' with
  | init => omega
  | @next m o' t' f' os w k h' hc hk ih =>
    have hnext : t' < k.time := (hc.drained h'.inTime).next_lt hk
    rcases Nat.lt_or_ge n m with hnm | hge
    · exact (ih hnm).trans hnext
    · obtain rfl : n = m := by omega
      obtain ⟨-, rfl, -⟩ := h.unique hd h'
      exact hnext

/-- A time that is due after the last due time but one is due at the last one at the earliest. -/
theorem Point.le_of_prev_lt (hd : Deterministic T) {n m : ℕ}
    {o o' o'' : List (Time T × OutputEvent T)} {t u v : Time T} {f f' f'' : SaturationFuture T}
    (h : R.Point n o t f) (h' : R.Point (n + 1) o' u f') (h'' : R.Point m o'' v f'')
    (hlt : t < v) : u ≤ v := by
  rcases lt_trichotomy m (n + 1) with hm | rfl | hm
  · -- an earlier one is not after the last but one
    rcases Nat.lt_or_ge m n with hmn | hge
    · exact absurd hlt (not_lt.mpr (h''.time_lt hd h hmn).le)
    · obtain rfl : m = n := by omega
      obtain ⟨-, rfl, -⟩ := h.unique hd h''
      exact absurd hlt (lt_irrefl _)
  · obtain ⟨-, rfl, -⟩ := h'.unique hd h''
    exact le_rfl
  · exact (h'.time_lt hd h'' hm).le

/-- Wherever the run of the reference is, it is in the future of a due time. -/
theorem point_of_run {o : List (Time T × OutputEvent T)} {σ : RefState T}
    (h : Run RefStep R.start o σ) : ∃ n o' os f, R.Point n o' σ.1 f ∧
      Run FutureStep f os σ.2 ∧ o = o' ++ os.map (σ.1, ·) := by
  -- the run goes on from the future of a due time
  have hfrom : ∀ {σ σ' : RefState T} {o : List (Time T × OutputEvent T)}, Run RefStep σ o σ' →
      ∀ {n : ℕ} {o₀ : List (Time T × OutputEvent T)} {os : List (OutputEvent T)}
        {f : SaturationFuture T}, R.Point n o₀ σ.1 f → Run FutureStep f os σ.2 →
      ∃ n o' os' f, R.Point n o' σ'.1 f ∧ Run FutureStep f os' σ'.2 ∧
        o₀ ++ os.map (σ.1, ·) ++ o = o' ++ os'.map (σ'.1, ·) := by
    intro σ σ' o hrun
    induction hrun with
    | refl σ =>
      intro n o₀ os f hpoint hf
      exact ⟨n, o₀, os, f, hpoint, hf, List.append_nil _⟩
    | @head σ σ₁ σ' o os' hstep _ ih =>
      intro n o₀ os f hpoint hf
      cases hstep with
      | @work t g e g' hg =>
        obtain ⟨n', o', os'', f', hpoint', hf', heq⟩ := ih hpoint (hf.tail hg)
        refine ⟨n', o', os'', f', hpoint', hf', ?_⟩
        rw [← heq, List.map_append, ← List.append_assoc, ← List.append_assoc]
      | @next t g w k hw hk =>
        obtain ⟨n', o', os'', f', hpoint', hf', heq⟩ :=
          ih (hpoint.next ⟨g, hf, hw⟩ hk) (.refl _)
        refine ⟨n', o', os'', f', hpoint', hf', ?_⟩
        rw [← heq, List.map_nil, List.append_nil, List.nil_append]
  obtain ⟨n, o', os, f, hpoint, hrun, heq⟩ := hfrom h .init (.refl _)
  exact ⟨n, o', os, f, hpoint, hrun, by simpa using heq⟩

/-- Every event of the reference happens at a due time. -/
theorem Point.due_of_mem {n : ℕ} {o : List (Time T × OutputEvent T)} {t : Time T}
    {f : SaturationFuture T} (h : R.Point n o t f) {x : Time T × OutputEvent T} (hx : x ∈ o) :
    ∃ m o' f', R.Point m o' x.1 f' := by
  induction h with
  | init => cases hx
  | @next n o t f os w k h _ _ ih =>
    rcases List.mem_append.mp hx with hx | hx
    · exact ih hx
    · obtain ⟨e, -, rfl⟩ := List.mem_map.mp hx
      exact ⟨n, o, f, h⟩

/-- A piece of work of the reference emits one event at most. -/
theorem refStep_length_le {σ σ' : RefState T} {o : List (Time T × OutputEvent T)}
    (h : RefStep σ o σ') : o.length ≤ 1 := by
  cases h with
  | work hf => cases hf <;> simp
  | next _ _ => exact Nat.zero_le 1

/-- What is emitted up to a point is emitted. -/
theorem Outputs.of_append {out more : List (Time T × OutputEvent T)}
    (h : R.Outputs (out ++ more)) : R.Outputs out := by
  obtain ⟨σ, hrun⟩ := h
  obtain ⟨u, hu, -⟩ := hrun.split refStep_length_le
  exact ⟨u, hu⟩

/-- The events of the reference, and its due times. -/
def timetable (R : Reference T) : Timetable (Time T) (OutputEvent T) where
  Outputs := R.Outputs
  Due t := ∃ n o f, R.Point n o t f
  of_append h := h.of_append
  due_of_mem := by
    rintro out x ⟨σ, hrun⟩ hx
    obtain ⟨n, o', os, f, hpoint, -, rfl⟩ := point_of_run hrun
    rcases List.mem_append.mp hx with hx | hx
    · exact hpoint.due_of_mem hx
    · obtain ⟨e, -, rfl⟩ := List.mem_map.mp hx
      exact ⟨n, o', f, hpoint⟩

end Reference

/-! ### The steps -/

namespace Steps

variable {s s' s₁ : Steps T} {b : Time T}

section Build

variable [BuildProfile]

/-- **Without pinned times** the search for the events always returns. -/
theorem Sound.getBeforeOrAtEvents_returns (h : s.Sound) (hlinked : s.Linked) (time : Time T) :
    ∃ r s', s.getBeforeOrAtEvents time [] = .ok (r, s') := by
  obtain ⟨s₁, hpush⟩ := h.tryNextScheduled_returns
  have hpushed := tryNextScheduled_cases hpush
  have h₁ := hpushed.sound h
  have hpos := h₁.length_pos
  obtain ⟨last, hlast, hget, hend⟩ := h₁.exists_last
  unfold getBeforeOrAtEvents
  rw [h.debugAssertions_returns, Outcome.ok_bind, hpush, Outcome.ok_bind, maxSequenceNumber,
    usizeSub_of_le (by omega), Outcome.ok_bind, getLast_ok.mpr hlast, Outcome.ok_bind]
  split
  · exact ⟨_, _, rfl⟩
  · split
    · rename_i hunsat
      -- an unsaturated last step comes after a saturated one
      simp only [LastStep, Step.isUnsaturated_iff.mp hunsat] at hend
      obtain ⟨-, j, prev, w, k, hj, hprev, hw, -, -⟩ := hend
      rw [show s₁.steps.length - 1 = j + 1 by omega] at hget
      rw [show s₁.numDeletedSteps + s₁.steps.length - 1 = s₁.numDeletedSteps + (j + 1) by omega]
      have hroom : s₁.MakesRoom [] := Or.inr (by simp)
      obtain ⟨s', hs'⟩ := (saturate_returns_iff h₁ (hpushed.linked hlinked) hprev
        (Step.isSaturated_iff.mpr ⟨w, hw⟩) hget hunsat).mpr (Or.inr hroom)
      rw [hs', Outcome.ok_bind]
      exact ⟨_, _, rfl⟩
    · exact ⟨_, _, rfl⟩

end Build

/-- At most two steps are kept.  The first one has started, not after `b`; the second one, if there
    is one, has not. -/
structure Forward (b : Time T) (s : Steps T) : Prop where
  started : ∀ x ∈ s.steps, x.isUnsaturated = false → x.getTime ≤ b
  second : ∀ i x, s.steps[i + 1]? = some x → i = 0 ∧ x.isUnsaturated = true

/-- At most two steps are kept. -/
theorem Forward.length_le (h : s.Forward b) : s.steps.length ≤ 2 := by
  by_contra hlen
  obtain ⟨hi, -⟩ := h.second 1 s.steps[2] (List.getElem?_eq_getElem (by omega))
  cases hi

/-- The bound may be moved on. -/
theorem Forward.mono {b' : Time T} (h : s.Forward b) (hle : b ≤ b') : s.Forward b' :=
  ⟨fun x hx hu => (h.started x hx hu).trans hle, h.second⟩

/-- One step that has started. -/
theorem Forward.single {x : Step T} (hsteps : s.steps = [x]) (ht : x.getTime ≤ b) :
    s.Forward b := by
  refine ⟨?_, ?_⟩
  · intro y hy _
    rw [hsteps] at hy
    obtain rfl := List.mem_singleton.mp hy
    exact ht
  · intro i y hy
    rw [hsteps] at hy
    cases hy

/-- A step that has started is the only one but for one behind it that has not. -/
theorem Forward.of_last_started (h : s.Forward b) {x : Step T}
    (hx : s.steps[s.steps.length - 1]? = some x) (hu : x.isUnsaturated = false) :
    s.steps = [x] := by
  have hlt := (List.getElem?_eq_some_iff.mp hx).1
  cases hlen : s.steps.length - 1 with
  | succ i =>
    rw [hlen] at hx
    rw [(h.second i x hx).2] at hu
    cases hu
  | zero =>
    rw [hlen] at hx
    obtain ⟨y, hy⟩ := List.length_eq_one_iff.mp (show s.steps.length = 1 by omega)
    rw [hy] at hx ⊢
    rw [List.getElem?_cons_zero, Option.some.injEq] at hx
    rw [hx]

/-- A pushed step is the second one, which has not started. -/
theorem Forward.pushed (h : s.Forward b) (hpushed : Pushed s s₁) : s₁.Forward b := by
  cases hpushed with
  | none _ => exact h
  | @push last w k hlast hw hk =>
    rw [List.getLast?_eq_getElem?] at hlast
    have hone := h.of_last_started hlast (isUnsaturated_of_saturated hw)
    refine ⟨?_, ?_⟩
    · intro x hx hu
      rcases List.mem_append.mp hx with hx | hx
      · exact h.started x hx hu
      · rw [List.mem_singleton.mp hx] at hu
        cases hu
    · intro i x hx
      simp only [hone, List.cons_append, List.nil_append, List.getElem?_cons_succ] at hx
      cases i with
      | zero =>
        obtain rfl := Option.some.inj hx
        exact ⟨rfl, rfl⟩
      | succ i => cases hx

/-- The search for the events leaves the deleted time alone. -/
theorem EventsCases.deletedBefore {pinnedTimes : List (Time T)} {t : Time T}
    {r : BeforeStatusEvents T} (h : EventsCases s pinnedTimes t r s') :
    s'.deletedBefore = s.deletedBefore := by
  cases h with
  | ready _ _ | saturating _ _ _ => rfl
  | start _ _ _ _ _ _ hsaturate => cases hsaturate <;> rfl

/-- The step that a poll of the events at the last deleted time is to poll is the only one that is
    kept: the one before it has given up its state. -/
theorem Forward.found (h : s₁.Forward b) (hs : s₁.Sound) (hb : s₁.deletedBefore = some b)
    {i n : ℕ} (hcases : s₁.EventsCases [] b (.saturating i n) s') :
    i = 0 ∧ ∃ x, s'.steps = [x] ∧ x.isSaturating = true ∧ x.getTime ≤ b := by
  cases hcases with
  | @saturating x hx hle hsat =>
    have hone := h.of_last_started hx (isSaturating_not_unsaturated hsat)
    exact ⟨by rw [hone]; rfl, x, hone, hsat, hle⟩
  | @start j x prev w s' hx hle hunsat hj hprev hw hsaturate =>
    have hlen := h.length_le
    obtain rfl : j = 0 := by omega
    rw [show s₁.steps.length - 1 = 1 by omega] at hx
    cases hsaturate with
    | saturate d _ _ hkeep =>
      -- the first step lies before the deleted time, as the second one does not lie after it
      have hlt := hs.sorted.lt hprev hx Nat.zero_lt_one
      have hle' := hkeep rfl b prev hb (by rw [List.head?_eq_getElem?, hprev])
      exact absurd (hlt.trans_le hle) (not_lt.mpr hle')
    | @consume front rest f b' _ heq _ _ _ =>
      have hrest : rest = [] := by
        rw [heq] at hlen
        exact List.length_eq_zero_iff.mp (by simpa using hlen)
      subst hrest
      exact ⟨rfl, x.started f, rfl, rfl, hle⟩

/-- No step is forgotten: only the first one has started. -/
theorem Forward.forget (h : s.Forward b) {i : ℕ} {x : Step T} {t : Time T}
    (hx : s.steps[i]? = some x) (hu : x.isUnsaturated = false) :
    (s.forget i t).steps = s.steps := by
  cases i with
  | zero => exact List.drop_zero
  | succ i =>
    rw [(h.second i x hx).2] at hu
    cases hu

/-- A saturating step on the line of the reference can be polled: this neither panics nor is it
    refused. -/
theorem Emitted.roundAvoids (hd : Deterministic T) (ha : AwaitsEmissions T) {R : Reference T}
    {out : List (Time T × OutputEvent T)} (h : Emitted R s out) {i : ℕ} {x : Step T}
    (hx : s.steps[i]? = some x) (hsat : x.isSaturating = true) (r : Round T) :
    x.RoundAvoids (fun _ => True) r := by
  obtain ⟨o, f, hpoint, -, e, htracks⟩ := h.line i x hx
  have hdriven := hpoint.driven hd ha htracks r.fuel r.answers
  have helse : (x.poll r.fuel r.answers).Avoids fun site => ¬ site.inFuture :=
    Step.poll_avoids (fun hp => hp) x r.fuel r.answers
  refine ⟨?_, ?_⟩
  · intro site _
    by_cases hsite : site.inFuture
    · exact hdriven site hsite
    · exact helse site hsite
  · intro p hp
    obtain ⟨f', a, ch, hst⟩ := Step.isSaturating_iff.mp hsat
    have hpoll := htracks.poll hd ha r.fuel r.answers hst
    rw [hp] at hpoll
    obtain ⟨result, hr, -⟩ := hpoll
    rw [hr, Outcome.expect_ok]
    exact .ok _

end Steps

/-! ### The source -/

namespace NoInputTransposerSource

variable {R : Reference T} {s s' : NoInputTransposerSource T} {now : Time T}
  {out : List (Time T × OutputEvent T)} {clock : Option (Time T)}

/-- **Without pinned times** a round of `poll_events` does not panic, wherever the steps are. -/
theorem EventsInv.pollEventsRound_avoids_any [BuildProfile] (hd : Deterministic T)
    (ha : AwaitsEmissions T) (h : EventsInv R s out) (hlinked : s.steps.Linked) (time : Time T)
    (r : Round T) : (pollEventsRound time [] r s).Avoids fun _ => True := by
  obtain ⟨q, steps', hq⟩ := h.emitted.sound.getBeforeOrAtEvents_returns hlinked time
  obtain ⟨steps, -, hpushed, hcases⟩ := Steps.getBeforeOrAtEvents_cases h.emitted.sound hq
  rw [pollEventsRound, hq, Outcome.ok_bind]
  cases q with
  | ready next => exact .ok _
  | saturating i n =>
    obtain ⟨-, x, hx, hsat, -⟩ := hcases.last
    have h' := (h.emitted.pushed hd ha hpushed).events hd ha hcases
    obtain ⟨hpoll, hresult⟩ := h'.roundAvoids hd ha hx hsat r
    simp only [hx, Outcome.unwrap_some, Outcome.ok_bind]
    refine hpoll.bind fun p hp => (hresult p hp).bind fun result _ => ?_
    cases result <;> exact .ok _

/-- The source has been advanced to `clock`, and its events `out` have been returned.  No channel
    has ever been polled. -/
structure Forward (R : Reference T) (clock : Option (Time T))
    (out : List (Time T × OutputEvent T)) (s : NoInputTransposerSource T) : Prop where
  events : EventsInv R s out
  linked : s.steps.Linked
  unpinned : s.channelStatuses.getPinnedTimes = []
  deleted : s.steps.deletedBefore = clock
  steps : s.steps.Forward (clock.getD R.startTime)

/-- The source is in the middle of a step. -/
def Busy (s : NoInputTransposerSource T) : Prop :=
  ∃ x, s.steps.steps.getLast? = some x ∧ x.isSaturating = true

namespace Forward

/-- A new source has not been advanced, and keeps its first step only. -/
theorem new (transposer : T) (startTime : Time T) (rngSeed : Seed T) :
    Forward ⟨transposer, startTime, rngSeed⟩ none [] (.new transposer startTime rngSeed) where
  events := .new transposer startTime rngSeed
  linked := .new transposer startTime rngSeed
  unpinned := rfl
  deleted := rfl
  steps := .single rfl le_rfl

/-- What has been returned is a prefix of the events of the reference. -/
theorem outputs (h : Forward R clock out s) : R.timetable.Outputs out := h.events.emitted.outputs

/-- The steps keep their invariant. -/
theorem sound (h : Forward R clock out s) : s.steps.Sound := h.events.emitted.sound

/-- **What is due next.**  A round that is ready returns the first due time after the present. -/
theorem nextDue (hd : Deterministic T) (ha : AwaitsEmissions T) (h : Forward R (some now) out s)
    {steps : Steps T} {x : Step T} (hpushed : Steps.Pushed s.steps steps)
    (hx : steps.steps[steps.steps.length - 1]? = some x)
    (hcond : now < x.getTime ∨ x.canProduceEvents = false) :
    R.timetable.NextDue now (if x.canProduceEvents then some x.getTime else none) := by
  have hforward : steps.Forward now := h.steps.pushed hpushed
  have hemitted := h.events.emitted.pushed hd ha hpushed
  have hpos := hemitted.sound.length_pos
  have hlast := hemitted.sound.last _ x hx (by omega)
  obtain ⟨o, f, hpoint, -, e, htracks⟩ := hemitted.line _ x hx
  cases hunsat : x.isUnsaturated with
  | true =>
    -- the step has yet to start, and the one before it has been started in time
    simp only [Steps.LastStep, Step.isUnsaturated_iff.mp hunsat] at hlast
    obtain ⟨hcan, j, prev, w, k, hj, hprev, hw, -, -⟩ := hlast
    rw [hcan] at hcond ⊢
    have hlt := hcond.resolve_right Bool.noConfusion
    obtain ⟨o', f', hpoint', -⟩ := hemitted.line j prev hprev
    have hle := hforward.started prev (List.mem_of_getElem? hprev)
      (Steps.isUnsaturated_of_saturated hw)
    rw [show steps.numDeletedSteps + (steps.steps.length - 1)
      = steps.numDeletedSteps + j + 1 by omega] at hpoint
    refine .some ⟨⟨⟨_, o, f, hpoint⟩, hlt⟩, ?_⟩
    rintro v ⟨⟨m, o'', f'', hv⟩, hnow⟩
    exact hpoint'.le_of_prev_lt hd hpoint hv (hle.trans_lt hnow)
  | false =>
    -- the step has started in time, so it is ready because it has ended, and nothing follows it
    have hle := hforward.started x (List.mem_of_getElem? hx) hunsat
    have hend := hcond.resolve_left (not_lt.mpr hle)
    have hsat : x.isSaturated = true := by
      rw [hlast.canProduceEvents, Bool.not_eq_false'] at hend
      exact hend
    obtain ⟨w, hw⟩ := Step.isSaturated_iff.mp hsat
    have hnone := hpushed.extended x w (by rw [List.getLast?_eq_getElem?, hx]) hw
    rw [hend]
    refine .none ?_
    rintro v ⟨m, o', f', hv⟩
    have hm := hpoint.le_of_completes hd (htracks.saturated w hw) hnone hv
    rcases Nat.lt_or_eq_of_le hm with hlt | rfl
    · exact (hv.time_lt hd hpoint hlt).le.trans hle
    · obtain ⟨-, rfl, -⟩ := hpoint.unique hd hv
      exact hle

section Build

variable [BuildProfile]

/-- **An advance** to the present returns. -/
theorem advance (hd : Deterministic T) (ha : AwaitsEmissions T) (h : Forward R clock out s)
    (hstart : R.startTime ≤ now) (hclock : ∀ t ∈ clock, t ≤ now) :
    ∃ s', s.advance now = .ok s' ∧ Forward R (some now) out s' := by
  have hle : clock.getD R.startTime ≤ now := by
    cases clock with
    | none => exact hstart
    | some t => exact hclock t rfl
  -- the first step has started, so it is in reach
  obtain ⟨front, hhead, hfront, hu⟩ := h.sound.exists_first
  have hreach := (h.steps.started front (List.mem_of_getElem? hfront) hu).trans hle
  obtain ⟨r, steps, hr⟩ := (Steps.deleteBefore_returns_iff h.sound).mpr
    (Or.inr (Or.inl ⟨front, hhead, hreach⟩))
  refine ⟨{ s with steps }, by rw [NoInputTransposerSource.advance, hr]; rfl, ?_⟩
  have hcall : s.call (.advance now) = .ok (.done, { s with steps }) := by
    rw [NoInputTransposerSource.call, NoInputTransposerSource.advance, hr]
    rfl
  have hevents := (h.events.call hd ha hcall).1
  rw [Reply.interrupts, List.append_nil] at hevents
  have hlinked := Steps.linked_of_moves
    ((Steps.Call.Does.deleteBefore now hr).moves h.sound) h.linked
  rcases Steps.deleteBefore_cases h.sound hr with ⟨⟨t, ht, hnow⟩, rfl⟩ | ⟨-, i, x, hx, hxu, rfl, -⟩
  · have heq : some now = clock := by
      rw [h.deleted] at ht
      rw [ht, le_antisymm hnow (hclock t ht)]
    exact ⟨hevents, hlinked, h.unpinned, heq ▸ h.deleted, h.steps.mono hle⟩
  · have hsteps := h.steps.forget (t := now) hx hxu
    refine ⟨hevents, hlinked, h.unpinned, rfl, ?_⟩
    have hforward := h.steps.mono hle
    exact ⟨by rw [hsteps]; exact hforward.started, by rw [hsteps]; exact hforward.second⟩

/-- **A round of `poll_events`** in the present keeps the invariant, with the event it returns. -/
theorem round (hd : Deterministic T) (ha : AwaitsEmissions T) (h : Forward R (some now) out s)
    {r : Round T} {o : Option (SourcePollOf T Unit)} (hround : EventsRoundCases now [] r s o s') :
    Forward R (some now) (out ++ roundInterrupts o) s' := by
  have hevents := h.events.eventsRound hd ha hround
  have hlinked := Steps.linked_of_moves hround.moves h.linked
  have hunpinned : s'.channelStatuses.getPinnedTimes = [] := by
    rw [hround.channelStatuses]
    exact h.unpinned
  have hpolled : ∀ {steps₁ steps' : Steps T} {i n : ℕ} {x : Step T} {p : StepPolled T}
      {result : StepPoll T}, Steps.Pushed s.steps steps₁ →
      steps₁.EventsCases [] now (.saturating i n) steps' → steps'.steps[i]? = some x →
      x.poll r.fuel r.answers = .ok p → p.result = .ok result →
      (steps'.setStep i p.step).deletedBefore = some now ∧
        (steps'.setStep i p.step).Forward now := by
    intro steps₁ steps' i n x p result hpushed hcases hx hp hr
    have hdel : steps₁.deletedBefore = some now := hpushed.deletedBefore.trans h.deleted
    obtain ⟨rfl, y, hone, -, hle⟩ :=
      (h.steps.pushed hpushed).found (hpushed.sound h.sound) hdel hcases
    rw [hone] at hx
    obtain rfl := Option.some.inj hx
    have hset : (steps'.setStep 0 p.step).steps = [p.step] := by
      show steps'.steps.set 0 p.step = [p.step]
      rw [hone]
      rfl
    exact ⟨hcases.deletedBefore.trans hdel, .single hset ((Steps.polled hp hr).1.trans_le hle)⟩
  cases hround with
  | ready hpushed _ _ =>
    exact ⟨hevents, hlinked, hunpinned, hpushed.deletedBefore.trans h.deleted,
      h.steps.pushed hpushed⟩
  | emitted hpushed hcases hx hp hr | pending hpushed hcases hx hp hr
  | completed _ hpushed hcases hx hp hr =>
    obtain ⟨hdel, hforward⟩ := hpolled hpushed hcases hx hp hr
    exact ⟨hevents, hlinked, hunpinned, hdel, hforward⟩

/-- **A round of `poll_events` does not panic.** -/
theorem pollEventsRound_ne_panic (hd : Deterministic T) (ha : AwaitsEmissions T)
    (h : Forward R (some now) out s) (r : Round T) (site : Panic) :
    pollEventsRound now [] r s ≠ .panic site :=
  h.events.pollEventsRound_avoids_any hd ha h.linked now r site trivial

end Build

end Forward

end NoInputTransposerSource

end Cozal
