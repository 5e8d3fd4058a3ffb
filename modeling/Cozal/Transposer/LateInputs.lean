import Cozal.Transposer.Chain
import Cozal.Transposer.Script
import Mathlib.Data.List.Chain

namespace Cozal

open Transposer

/-!
# Inputs that come too late

The step after a saturated one can be made from inputs.  Debug builds have an error for inputs
that are not later than the step, and `Step.nextUnsaturated` never returns it.

* `OfferChain` — a chain of steps with the inputs it is offered, each of which meets a condition.
* `SaturationFuture.AfterUpdate` — the current time is not before the time of the last update.
* `Reaches.afterUpdate` — so it is in a chain that is offered no late input.
* `late_inputs_refused_iff` — what late inputs are, and what holds without them.
-/

variable {T : Type} [Transposer T]

/-- A chain whose steps are offered inputs that meet a condition: the finished steps and the
    last one. -/
inductive OfferChain [BuildProfile] (meets : Step T → StepInputs T → Prop) :
    List (Step T) → Step T → Prop where
  | newInit (uuid : ℕ) (transposer : T) (startTime : Time T) (rngSeed : Seed T) :
      OfferChain meets [] (Step.newInit uuid transposer startTime rngSeed)
  | poll {past s p} (fuel : ℕ) (answers : List (Response T)) :
      OfferChain meets past s → s.poll fuel answers = .ok p → OfferChain meets past p.step
  | saturateTake {past prev s s' prev' rest} (uuid : ℕ) (inputs : Option (StepInputs T)) :
      OfferChain meets past prev → (∀ i, inputs = some i → meets prev i) →
      prev.nextUnsaturated uuid inputs = .ok (some s, rest) →
      s.saturateTake prev = .ok (.ok (), s', prev') → OfferChain meets (past ++ [prev]) s'
  | saturateClone {past prev s s' rest} (uuid : ℕ) (inputs : Option (StepInputs T)) :
      OfferChain meets past prev → (∀ i, inputs = some i → meets prev i) →
      prev.nextUnsaturated uuid inputs = .ok (some s, rest) →
      s.saturateClone prev = .ok (.ok (), s') → OfferChain meets (past ++ [prev]) s'

/-- The inputs are later than the step they are offered to. -/
def OffersLater (s : Step T) (i : StepInputs T) : Prop := s.getTime < i.time

/-- Inputs that are not later than the step are refused. -/
def Step.RefusesLate (s : Step T) (i : StepInputs T) : Prop :=
  i.time ≤ s.getTime → ∀ uuid, s.nextUnsaturated uuid (some i) = .error .inputPastOrPresent

/-! ### No handler runs before the last update -/

/-- The current time is not before the time of the last update. -/
def SaturationFuture.AfterUpdate (f : SaturationFuture T) : Prop :=
  f.cx.metadata.lastUpdated.time ≤ f.cx.time.time

/-- A piece of work of a future that is in time keeps the current time after the last update. -/
theorem SaturationFuture.AfterUpdate.work {t : Time T} {f f' : SaturationFuture T} {l : Label T}
    (h : f.AfterUpdate) (hin : InTime t f) (hw : FutureWork f l f') : f'.AfterUpdate := by
  obtain ⟨hcur, -, hpos⟩ := hin
  cases hw with
  | call hcx =>
    obtain ⟨htime, hlast⟩ := hcx.times
    show _ ≤ _
    rw [SaturationFuture.cx, htime, hlast]
    exact h
  | @done caller h' t' cx =>
    cases caller with
    | init start =>
      exact (le_of_eq (hpos.2.trans hpos.1.symm) : cx.metadata.lastUpdated.time ≤ start)
    | input time rest => exact (le_of_eq (hpos.trans hcur.symm) : time.time ≤ cx.time.time)
    | scheduled time => exact (le_of_eq (hpos.trans hcur.symm) : time.time ≤ cx.time.time)
  | inputsDone => exact le_refl _
  | input => exact h
  | @pop time t' h' cx key payload metadata hkey hpop =>
    obtain ⟨-, -, hlast, -⟩ := TransposerMetaData.popFirstEvent_cases hpop
    show metadata.lastUpdated.time ≤ cx.time.time
    rw [hlast]
    exact h

/-- **No handler of a chain runs before the last update**: a step that is due later finds the
    update of the step before it. -/
theorem Reaches.afterUpdate {ls : List (Label T)} {f : SaturationFuture T} (h : Reaches ls f) :
    f.AfterUpdate := by
  induction h with
  | init transposer rngSeed startTime n => exact le_refl startTime
  | work hreach hstep ih =>
    obtain ⟨l, -, hw⟩ := hstep.work
    exact ih.work hreach.inTime hw
  | @handleScheduled ls f w k n hreach hready hk _ =>
    have hdrained := hreach.drained hready
    show w.metadata.lastUpdated.time ≤ k.time
    rw [hdrained.lastUpdated]
    exact (hdrained.next_lt hk).le
  | @handleInput ls f w i n hreach hready hlt _ _ =>
    show w.metadata.lastUpdated.time ≤ i.time
    rw [(hreach.drained hready).lastUpdated]
    exact hlt.le

/-! ### Chains without late inputs -/

/-- The step after one that has left nothing behind is later, unless it is that of a late input. -/
theorem Step.nextUnsaturated_later {prev s : Step T} {w : WrappedTransposer T} {uuid : ℕ}
    {inputs rest : Option (StepInputs T)} (hprev : prev.status = .saturated w)
    (hdrained : Drained prev.getTime w) (hinputs : ∀ i, inputs = some i → OffersLater prev i)
    (h : prev.nextUnsaturated uuid inputs = .ok (some s, rest)) : prev.getTime < s.getTime := by
  obtain ⟨-, ⟨i, hi, -, hdata, -⟩ | ⟨k, hk, -, hdata, -⟩⟩ := Step.nextUnsaturated_cases hprev h
  · rw [show s.getTime = i.time by rw [Step.getTime, hdata]]
    exact hinputs i hi
  · rw [show s.getTime = k.time by rw [Step.getTime, hdata]]
    exact hdrained.next_lt hk

/-- A saturated step accepts every input. -/
theorem Step.nextUnsaturated_accepts {prev : Step T} {w : WrappedTransposer T}
    (hprev : prev.status = .saturated w) (uuid : ℕ) (i : StepInputs T) :
    ∃ q, prev.nextUnsaturated uuid (some i) = .ok q := by
  cases hq : prev.nextUnsaturated uuid (some i) with
  | ok q => exact ⟨q, rfl⟩
  | error e =>
    simp only [Step.nextUnsaturated, hprev] at hq
    split at hq
    · cases hq
    · cases hq
    · cases hq
    · split at hq <;> cases hq

/-- So it refuses late inputs only when there are none. -/
theorem Step.refusesLate_iff {prev : Step T} {w : WrappedTransposer T}
    (hprev : prev.status = .saturated w) (i : StepInputs T) :
    prev.RefusesLate i ↔ OffersLater prev i := by
  constructor
  · intro h
    by_contra hlate
    obtain ⟨q, hq⟩ := Step.nextUnsaturated_accepts hprev 0 i
    rw [h (not_lt.mp hlate) 0] at hq
    cases hq
  · intro hlater hle
    exact absurd hlater (not_lt.mpr hle)

/-- A late input is taken at once: whatever is scheduled comes after the step. -/
theorem Step.nextUnsaturated_late {prev : Step T} {w : WrappedTransposer T} {i : StepInputs T}
    (hprev : prev.status = .saturated w) (hdrained : Drained prev.getTime w)
    (hi : i.time ≤ prev.getTime) (uuid : ℕ) :
    ∃ s, prev.nextUnsaturated uuid (some i) = .ok (some s, none) ∧ s.getTime = i.time := by
  refine ⟨⟨.input i, .unsaturated, 0, true, uuid, some prev.uuidSelf⟩, ?_, rfl⟩
  simp only [Step.nextUnsaturated, hprev]
  cases hk : w.metadata.getNextScheduledTime with
  | none => rfl
  | some k =>
    have hle : i.time ≤ k.time := hi.trans (hdrained.next_lt hk).le
    simp only [gt_iff_lt, if_neg (not_lt.mpr hle)]

/-- The step after is later for every input exactly when the input is. -/
theorem Step.nextUnsaturated_later_iff {prev : Step T} {w : WrappedTransposer T}
    (hprev : prev.status = .saturated w) (hdrained : Drained prev.getTime w) (i : StepInputs T) :
    (∀ uuid s rest, prev.nextUnsaturated uuid (some i) = .ok (some s, rest) →
      prev.getTime < s.getTime) ↔ OffersLater prev i := by
  constructor
  · intro h
    by_contra hlate
    obtain ⟨s, hs, htime⟩ := Step.nextUnsaturated_late hprev hdrained (not_lt.mp hlate) 0
    have hlt := h 0 s none hs
    rw [htime] at hlt
    exact hlate hlt
  · intro hlater uuid s rest h
    refine Step.nextUnsaturated_later hprev hdrained ?_ h
    intro i' hi'
    exact Option.some.inj hi' ▸ hlater

/-- A poll does not change what a step is about. -/
theorem Step.poll_data {s : Step T} {fuel : ℕ} {answers : List (Response T)} {p : StepPolled T}
    (h : s.poll fuel answers = .ok p) : p.step.data = s.data := by
  cases hst : s.status with
  | saturating f a ch => exact (Step.poll_run hst h).1
  | unsaturated | saturated w =>
    rw [(Step.poll_refused (by simp [Step.isSaturating, hst]) h).1]

/-- A saturated step of a chain has left nothing behind. -/
theorem Step.Reached.drained {ls : List (Label T)} {s : Step T} {w : WrappedTransposer T}
    (h : s.Reached ls) (hs : s.status = .saturated w) : Drained s.getTime w := by
  simp only [Step.Reached, hs] at h
  obtain ⟨f, hreach, hready, htime⟩ := h
  exact htime ▸ hreach.drained hready

namespace OfferChain

variable [BuildProfile] {past : List (Step T)} {s : Step T}

/-- A chain that is offered no late input is a chain. -/
theorem chain (h : OfferChain OffersLater past s) : ∃ ls, Chain ls s := by
  induction h with
  | newInit uuid transposer startTime rngSeed =>
    exact ⟨[], .newInit uuid transposer startTime rngSeed⟩
  | poll fuel answers _ hp ih =>
    obtain ⟨ls, hchain⟩ := ih
    exact ⟨_, .poll fuel answers hchain hp⟩
  | saturateTake uuid inputs _ hinputs hnext htake ih =>
    obtain ⟨ls, hchain⟩ := ih
    exact ⟨ls, .saturateTake uuid inputs hchain hinputs hnext htake⟩
  | saturateClone uuid inputs _ hinputs hnext hclone ih =>
    obtain ⟨ls, hchain⟩ := ih
    exact ⟨ls, .saturateClone uuid inputs hchain hinputs hnext hclone⟩

omit [BuildProfile] in
/-- One more step, which is later than the last one. -/
theorem increasing_snoc {s' : Step T} {past : List (Step T)}
    (h : (past ++ [s]).IsChain (fun a b => a.getTime < b.getTime)) (hlt : s.getTime < s'.getTime) :
    (past ++ [s] ++ [s']).IsChain (fun a b => a.getTime < b.getTime) := by
  rw [List.isChain_append]
  refine ⟨h, List.isChain_singleton _, ?_⟩
  intro a ha b hb
  rw [List.getLast?_append, List.getLast?_singleton, Option.some_or, Option.mem_some_iff] at ha
  rw [List.head?_cons, Option.mem_some_iff] at hb
  exact ha ▸ hb ▸ hlt

/-- **The times of a chain that is offered no late input increase.** -/
theorem increasing (h : OfferChain OffersLater past s) :
    (past ++ [s]).IsChain (fun a b => a.getTime < b.getTime) := by
  -- the next step is later, and saturating it keeps its time
  have hnext : ∀ {past : List (Step T)} {prev s s' : Step T} {w rest uuid inputs},
      OfferChain OffersLater past prev →
      (past ++ [prev]).IsChain (fun a b => a.getTime < b.getTime) →
      (∀ i, inputs = some i → OffersLater prev i) →
      prev.nextUnsaturated uuid inputs = .ok (some s, rest) → prev.status = .saturated w →
      s.saturate w = .ok s' →
      (past ++ [prev] ++ [s']).IsChain (fun a b => a.getTime < b.getTime) := by
    intro past prev s s' w rest uuid inputs hprev hpast hinputs hnext hw hs
    obtain ⟨ls, hchain⟩ := hprev.chain
    obtain ⟨f, -, rfl⟩ := Step.saturate_ok hs
    have hlt : prev.getTime < s.getTime :=
      Step.nextUnsaturated_later hw (hchain.reached.drained hw) hinputs hnext
    exact increasing_snoc hpast hlt
  induction h with
  | newInit uuid transposer startTime rngSeed => exact List.isChain_singleton _
  | @poll past s p fuel answers hprev hp ih =>
    have htime : p.step.getTime = s.getTime := Step.getTime_eq (Step.poll_data hp)
    rw [List.isChain_append] at ih ⊢
    refine ⟨ih.1, List.isChain_singleton _, ?_⟩
    intro a ha b hb
    rw [List.head?_cons, Option.mem_some_iff] at hb
    rw [← hb, htime]
    exact ih.2.2 a ha s (by simp)
  | saturateTake uuid inputs hprev hinputs hsucc htake ih =>
    obtain ⟨w, hw, hs, -⟩ := Step.saturateTake_ok htake
    exact hnext hprev ih hinputs hsucc hw hs
  | saturateClone uuid inputs hprev hinputs hsucc hclone ih =>
    obtain ⟨w, hw, hs⟩ := Step.saturateClone_ok hclone
    exact hnext hprev ih hinputs hsucc hw hs

end OfferChain

/-- **Late inputs.**  A saturated step refuses a late input exactly when it is not offered one;
    a step of a chain makes a later step from an input exactly when the input is not late.  In
    every chain that is offered no late input the times of the steps increase, and no handler
    runs before the time of the last update. -/
theorem late_inputs_refused_iff [BuildProfile] :
    (∀ (s : Step T) w i, s.status = .saturated w → (s.RefusesLate i ↔ OffersLater s i)) ∧
    ∀ (past : List (Step T)) s, OfferChain OffersLater past s →
      (past ++ [s]).IsChain (fun a b => a.getTime < b.getTime) ∧
      (∀ w i, s.status = .saturated w →
        ((∀ uuid new rest, s.nextUnsaturated uuid (some i) = .ok (some new, rest) →
          s.getTime < new.getTime) ↔ OffersLater s i)) ∧
      ∀ f a ch ls g, s.status = .saturating f a ch → Run LabelStep f ls g → g.AfterUpdate := by
  refine ⟨fun s w i hs => Step.refusesLate_iff hs i, ?_⟩
  intro past s h
  obtain ⟨ls, hchain⟩ := h.chain
  refine ⟨h.increasing, ?_, ?_⟩
  · intro w i hs
    exact Step.nextUnsaturated_later_iff hs (hchain.reached.drained hs) i
  · intro f a ch ls' g hs hr
    have hreached := hchain.reached
    simp only [Step.Reached, hs] at hreached
    exact (hreached.1.run hr).afterUpdate

/-- A step at 10 is offered an input at 5 and takes it; the handler of the input runs at 5,
    though the last update was at 10. -/
theorem late_inputs_refused_fails :
    ∃ (_ : BuildProfile) (past : List (Step Script)) (s new running : Step Script)
      (i : StepInputs Script) (f g : SaturationFuture Script),
      OfferChain (fun _ _ => True) past s ∧ i.time < s.getTime ∧
      s.nextUnsaturated 2 (some i) = .ok (some new, none) ∧ ¬ s.RefusesLate i ∧
      OfferChain (fun _ _ => True) (past ++ [s]) running ∧ ¬ s.getTime < running.getTime ∧
      running.status = .saturating f none .new ∧
      Run LabelStep f [.handleInput ⟨(), (3 : ℕ)⟩ (5 : ℕ)] g ∧ ¬ g.AfterUpdate := by
  let _ : BuildProfile := debugBuild
  let script : Script := ⟨[.schedule 10], [], [], 0⟩
  let input : StepInputs Script := ⟨(5 : ℕ), OrdMap.empty.insert 0 ⟨(), [(3 : ℕ)]⟩⟩
  have hinit := @OfferChain.newInit Script _ _ (fun _ _ => True) 0 script (0 : ℕ) ()
  -- the step at 0, the step at 10 and the one of the input
  obtain ⟨q, hq⟩ : ∃ q, (Step.newInit 0 script (0 : ℕ) ()).poll 9 [] = .ok q := ⟨_, rfl⟩
  have hfirst := hinit.poll 9 [] hq
  obtain ⟨s, s', p, hs, hs', hp⟩ : ∃ s s' p, q.step.nextUnsaturated 1 none = .ok (some s, none) ∧
      s.saturateClone q.step = .ok (.ok (), s') ∧ s'.poll 9 [] = .ok p := by
    cases hq
    exact ⟨_, _, _, rfl, rfl, rfl⟩
  have hsecond := (hfirst.saturateClone 1 none (fun _ _ => trivial) hs hs').poll 9 [] hp
  obtain ⟨new, running, hnew, hrunning⟩ : ∃ new running,
      p.step.nextUnsaturated 2 (some input) = .ok (some new, none) ∧
      new.saturateClone p.step = .ok (.ok (), running) := by
    cases hq
    cases hs
    cases hs'
    cases hp
    exact ⟨_, _, rfl, rfl⟩
  have hthird := hsecond.saturateClone 2 (some input) (fun _ _ => trivial) hnew hrunning
  refine ⟨debugBuild, [q.step], p.step, new, running, input, ?_⟩
  cases hq
  cases hs
  cases hs'
  cases hp
  cases hnew
  cases hrunning
  refine ⟨_, _, hsecond, (by decide : 5 < 10), rfl, ?_, hthird, (by decide : ¬ 10 < 5), rfl,
    .single (.next rfl), (by decide : ¬ 10 ≤ 5)⟩
  intro hrefuses
  cases hrefuses (by decide : 5 ≤ 10) 2

end Cozal
