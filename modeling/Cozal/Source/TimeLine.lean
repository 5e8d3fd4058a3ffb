import Cozal.Source.Calls
import Cozal.Source.Reference
import Cozal.Transposer.Emission

namespace Cozal

open Transposer

/-!
# The stored steps lie on the line of the reference

The step with sequence number `n` is the step of the `n`-th due time, whatever has been evicted,
taken, copied and run again.

* `StepInvariant` — what an invariant of one step, relative to the future it is run with, has to
  be kept by.
* `OnLine` — every stored step is at its due time, and meets the invariant.
* `OnLine.move` — every move keeps it.
* `Follows`, `Tracked` — the two invariants of a step that are used: its state is one of its
  future, and with it what it has emitted.
-/

variable {T : Type} [Transposer T]

/-- An invariant of a step and the future it is run with, that every change of a step keeps. -/
structure StepInvariant (P : SaturationFuture T → Step T → Prop) : Prop where
  unsaturated : ∀ {f x}, f.cx.outputsToSwallow = 0 → x.status = .unsaturated →
    x.eventCount = 0 → x.canProduceEvents = true → P f x
  completes : ∀ {f x w}, P f x → x.status = .saturated w → ∃ o, Completes f o w
  desaturate : ∀ {f x}, P f x → P f x.desaturate
  started : ∀ {f x}, P f x → P f (x.started (f.withSwallow x.eventCount))
  poll : ∀ {f x fuel answers p}, P f x → x.isSaturating = true →
    x.poll fuel answers = .ok p → P f p.step

/-- Every stored step is at the due time of its sequence number, and meets the invariant. -/
def OnLine (R : Reference T) (P : SaturationFuture T → Step T → Prop) (s : Steps T) : Prop :=
  ∀ i x, s.steps[i]? = some x → ∃ o f, R.Point (s.numDeletedSteps + i) o x.getTime f ∧
    (∀ inputs, x.data ≠ .input inputs) ∧ P f x

namespace OnLine

variable {R : Reference T} {P : SaturationFuture T → Step T → Prop} {s s' : Steps T}

/-- The step after a saturated one is at the next due time. -/
theorem next (hd : Deterministic T) (hP : StepInvariant P) (h : OnLine R P s) {j : ℕ}
    {prev step : Step T} {w : WrappedTransposer T} (hprev : s.steps[j]? = some prev)
    (hw : prev.status = .saturated w) (hstep : s.steps[j + 1]? = some step) :
    ∃ k, w.metadata.getNextScheduledTime = some k ∧ step.getTime = k.time := by
  obtain ⟨o, f, hpoint, -, hPf⟩ := h j prev hprev
  obtain ⟨o', f', hpoint', -, -⟩ := h (j + 1) step hstep
  obtain ⟨os, hc⟩ := hP.completes hPf hw
  obtain ⟨k, hk, -, ht, -⟩ := hpoint.succ hd hc hpoint'
  exact ⟨k, hk, ht⟩

/-- A step that starts from the saturated one before it starts with the future of its due
    time. -/
theorem started (hd : Deterministic T) (hP : StepInvariant P) (h : OnLine R P s) {j : ℕ}
    {prev step : Step T} {w : WrappedTransposer T} {g : SaturationFuture T}
    (hprev : s.steps[j]? = some prev) (hw : prev.status = .saturated w)
    (hstep : s.steps[j + 1]? = some step)
    (hg : Step.saturationFuture step.data w step.eventCount = some g) :
    ∃ o f, R.Point (s.numDeletedSteps + (j + 1)) o step.getTime f ∧
      (∀ inputs, step.data ≠ .input inputs) ∧ P f (step.started g) := by
  obtain ⟨o, f, hpoint, -, hPf⟩ := h j prev hprev
  obtain ⟨o', f', hpoint', hinput, hPf'⟩ := h (j + 1) step hstep
  obtain ⟨os, hc⟩ := hP.completes hPf hw
  obtain ⟨k, -, -, ht, hf'⟩ := hpoint.succ hd hc hpoint'
  refine ⟨o', f', hpoint', hinput, ?_⟩
  have heq : g = f'.withSwallow step.eventCount := by
    cases hdata : step.data with
    | init time => simp [hdata, Step.saturationFuture] at hg
    | input inputs => exact absurd hdata (hinput inputs)
    | scheduled k' =>
      simp only [hdata, Step.saturationFuture, Option.some.injEq] at hg
      have htime : k'.time = k.time := by
        rw [← ht]
        simp only [Step.getTime, hdata]
      rw [← hg, hf', handleScheduled_withSwallow, htime]
  rw [heq]
  exact hP.started hPf'

/-- **Every move keeps the steps on the line.** -/
theorem move (hd : Deterministic T) (hP : StepInvariant P) (h : OnLine R P s) (hs : s.Sound)
    {pinnedTimes : List (Time T)} (hmove : Steps.Move pinnedTimes s s') : OnLine R P s' := by
  cases hmove with
  | @push last w k hlast hw hk =>
    intro i x hx
    have hx : (s.steps ++ [s.nextStep last k])[i]? = some x := hx
    rcases Steps.push_cases hx with hx | ⟨rfl, rfl⟩
    · exact h i x hx
    · -- the pushed step is due after the one that was the last
      have hpos := hs.length_pos
      rw [List.getLast?_eq_getElem?] at hlast
      obtain ⟨o, f, hpoint, -, hPf⟩ := h _ last hlast
      obtain ⟨os, hc⟩ := hP.completes hPf hw
      have hnext := hpoint.next hc hk
      rw [show s.numDeletedSteps + (s.steps.length - 1) + 1
        = s.numDeletedSteps + s.steps.length by omega] at hnext
      exact ⟨_, _, hnext, by simp [Steps.nextStep], hP.unsaturated hnext.fresh rfl rfl rfl⟩
  | @saturate j prev w step f d hprev hw hstep hunsat hf hd' =>
    intro i x' hx'
    rcases Steps.saturatedAt_cases hstep hx' with
      ⟨rfl, rfl⟩ | ⟨-, -, x, hx, rfl⟩ | ⟨-, -, hx⟩
    · obtain ⟨o, g, hpoint, hinput, hPg⟩ := h.started hd hP hprev hw hstep hf
      exact ⟨o, g, hpoint, hinput, hPg⟩
    · obtain ⟨o, g, hpoint, hinput, hPg⟩ := h i x hx
      exact ⟨o, g, hpoint, hinput, hP.desaturate hPg⟩
    · exact h i x' hx
  | @consume front w step rest f b heq hw hunsat hf hb hlt =>
    intro i x' hx'
    -- every step keeps its sequence number
    have hnum : (s.consumeFront step rest f).numDeletedSteps + i
        = s.numDeletedSteps + (i + 1) := by
      show s.numDeletedSteps + 1 + i = _
      omega
    rw [hnum]
    rcases Steps.consumeFront_cases heq hx' with ⟨rfl, rfl⟩ | ⟨-, hx⟩
    · have hprev : s.steps[0]? = some front := by rw [heq]; rfl
      have hstep : s.steps[0 + 1]? = some step := by rw [heq]; rfl
      obtain ⟨o, g, hpoint, hinput, hPg⟩ := h.started hd hP hprev hw hstep hf
      exact ⟨o, g, hpoint, hinput, hPg⟩
    · exact h (i + 1) x' hx
  | @forget i x time hx hu hlt =>
    intro m y hy
    have hy : (s.steps.drop i)[m]? = some y := hy
    rw [List.getElem?_drop] at hy
    have hnum : (s.forget i time).numDeletedSteps + m = s.numDeletedSteps + (i + m) := by
      show s.numDeletedSteps + i + m = _
      omega
    rw [hnum]
    exact h (i + m) y hy
  | @poll i step p fuel answers hstep hsat hp =>
    intro m x' hx'
    obtain ⟨f, a, ch, hst⟩ := Step.isSaturating_iff.mp hsat
    have hdata := (Step.poll_run hst hp).1
    rcases Steps.setStep_cases hstep hx' with ⟨rfl, rfl⟩ | ⟨-, hx⟩
    · obtain ⟨o, g, hpoint, hinput, hPg⟩ := h m step hstep
      rw [← Step.getTime_eq hdata] at hpoint
      exact ⟨o, g, hpoint, by rw [hdata]; exact hinput, hP.poll hPg hsat hp⟩
    · exact h m x' hx

/-- The steps stay on the line of the reference, whatever is moved. -/
theorem moves (hd : Deterministic T) (hP : StepInvariant P) (h : OnLine R P s) (hs : s.Sound)
    {pinnedTimes : List (Time T)}
    (hmoves : Relation.ReflTransGen (Steps.Move pinnedTimes) s s') : s'.Sound ∧ OnLine R P s' := by
  induction hmoves with
  | refl => exact ⟨hs, h⟩
  | tail _ hmove ih => exact ⟨hmove.sound ih.1, ih.2.move hd hP ih.1 hmove⟩

/-- The initial step is at the first due time. -/
theorem new (transposer : T) (startTime : Time T) (rngSeed : Seed T)
    (hP : P (WrappedTransposer.init transposer rngSeed startTime 0)
      (Step.newInit 0 transposer startTime rngSeed)) :
    OnLine ⟨transposer, startTime, rngSeed⟩ P (.new transposer startTime rngSeed) := by
  intro i x hx
  have hi : i < 1 := (List.getElem?_eq_some_iff.mp hx).1
  obtain rfl : i = 0 := by omega
  cases hx
  exact ⟨[], _, .init, by simp [Step.newInit], hP⟩

end OnLine

/-! ### The state of a step is one of its future -/

/-- The step is at some point of the run of `start`, swallowing some outputs, or at its end. -/
structure Follows (start : SaturationFuture T) (x : Step T) : Prop where
  fresh : start.cx.outputsToSwallow = 0
  saturating : ∀ f a ch, x.status = .saturating f a ch →
    ∃ o g n, Run FutureStep start o g ∧ g.cx.outputsToSwallow = 0 ∧ f = g.withSwallow n
  saturated : ∀ w, x.status = .saturated w → ∃ o, Completes start o w

namespace Follows

variable {start : SaturationFuture T} {x : Step T}

/-- An unsaturated step is at the start of the run. -/
theorem of_unsaturated (hf : start.cx.outputsToSwallow = 0) (hu : x.status = .unsaturated) :
    Follows start x where
  fresh := hf
  saturating := by intro f a ch hs; rw [hu] at hs; cases hs
  saturated := by intro w hs; rw [hu] at hs; cases hs

/-- A saturating step is at the future it holds. -/
theorem of_saturating {o : List (OutputEvent T)} {g : SaturationFuture T} {n : ℕ} {a ch}
    (hf : start.cx.outputsToSwallow = 0) (hst : x.status = .saturating (g.withSwallow n) a ch)
    (hrun : Run FutureStep start o g) (hg : g.cx.outputsToSwallow = 0) : Follows start x where
  fresh := hf
  saturating := by
    intro f a' ch' hs
    rw [hst, StepStatus.saturating.injEq] at hs
    exact ⟨o, g, n, hrun, hg, hs.1.symm⟩
  saturated := by intro w hs; rw [hst] at hs; cases hs

/-- A saturated step is at the end of the run. -/
theorem of_saturated {o : List (OutputEvent T)} {w : WrappedTransposer T}
    (hf : start.cx.outputsToSwallow = 0) (hw : x.status = .saturated w)
    (hc : Completes start o w) : Follows start x where
  fresh := hf
  saturating := by intro f a ch hs; rw [hw] at hs; cases hs
  saturated := by
    intro w' hs
    rw [hw, StepStatus.saturated.injEq] at hs
    exact ⟨o, hs ▸ hc⟩

end Follows

/-- A piece of work of a future that swallows outputs is one of the future that swallows
    none. -/
theorem LabelStep.follows {g f' : SaturationFuture T} {n : ℕ} {ls : List (Label T)}
    (h : LabelStep (g.withSwallow n) ls f') (hg : g.cx.outputsToSwallow = 0) :
    ∃ o g' n', FutureStep g o g' ∧ f' = g'.withSwallow n' := by
  have hadv := advance_withSwallow hg n
  cases h with
  | next h =>
    rw [h] at hadv
    cases hprog : g.advance with
    | next l g' =>
      simp only [hprog, Progress.withSwallow] at hadv
      cases hadv
      exact ⟨[], g', n, .next hprog, rfl⟩
    | emit e b g' =>
      -- the emission is swallowed
      simp only [hprog, Progress.withSwallow] at hadv
      split at hadv <;> cases hadv
      exact ⟨[e], g', n - 1, .emit hprog, rfl⟩
    | await _ | ready _ | panic _ =>
      simp only [hprog, Progress.withSwallow] at hadv
      cases hadv
  | emit h =>
    rw [h] at hadv
    cases hprog : g.advance with
    | emit e b g' =>
      simp only [hprog, Progress.withSwallow] at hadv
      split at hadv <;> cases hadv
      exact ⟨_, g', n, .emit hprog, rfl⟩
    | next _ _ | await _ | ready _ | panic _ =>
      simp only [hprog, Progress.withSwallow] at hadv
      cases hadv
  | await x h =>
    rw [h] at hadv
    cases hprog : g.advance with
    | await k =>
      simp only [hprog, Progress.withSwallow] at hadv
      cases hadv
      exact ⟨[], k x, n, .await x hprog, rfl⟩
    | emit e b g' =>
      simp only [hprog, Progress.withSwallow] at hadv
      split at hadv <;> cases hadv
    | next _ _ | ready _ | panic _ =>
      simp only [hprog, Progress.withSwallow] at hadv
      cases hadv

/-- A future that swallows outputs runs like one that does not. -/
theorem run_follows {f f' : SaturationFuture T} {ls : List (Label T)}
    (h : Run LabelStep f ls f') {g : SaturationFuture T} {n : ℕ} (hf : f = g.withSwallow n)
    (hg : g.cx.outputsToSwallow = 0) :
    ∃ o g' n', Run FutureStep g o g' ∧ g'.cx.outputsToSwallow = 0 ∧ f' = g'.withSwallow n' := by
  induction h generalizing g n with
  | refl => exact ⟨[], g, n, .refl g, hg, hf⟩
  | head hstep _ ih =>
    subst hf
    obtain ⟨o, g', n', hstep', rfl⟩ := hstep.follows hg
    obtain ⟨os, g'', n'', hrun, hg'', hf''⟩ := ih rfl (hstep'.outputsToSwallow hg)
    exact ⟨o ++ os, g'', n'', .head hstep' hrun, hg'', hf''⟩

/-- A future is ready exactly when it is ready without swallowing outputs. -/
theorem ready_of_withSwallow {g : SaturationFuture T} {n : ℕ} {w : WrappedTransposer T}
    (hg : g.cx.outputsToSwallow = 0) (h : (g.withSwallow n).advance = .ready w) :
    g.advance = .ready w := by
  rw [advance_withSwallow hg] at h
  cases hprog : g.advance with
  | ready w' => rw [hprog, Progress.withSwallow] at h; exact h
  | emit e b g' => rw [hprog, Progress.withSwallow] at h; split at h <;> cases h
  | next l g' => rw [hprog, Progress.withSwallow] at h; cases h
  | await k => rw [hprog, Progress.withSwallow] at h; cases h
  | panic site => rw [hprog, Progress.withSwallow] at h; cases h

/-- Every change of a step stays on the run of its future. -/
theorem follows_invariant : StepInvariant (Follows (T := T)) where
  unsaturated := fun hf hu _ _ => .of_unsaturated hf hu
  completes := fun h hw => h.saturated _ hw
  desaturate := fun h => .of_unsaturated h.fresh rfl
  started := fun h => .of_saturating h.fresh rfl (.refl _) h.fresh
  poll := by
    intro start x fuel answers p h hsat hp
    obtain ⟨f, a, ch, hst⟩ := Step.isSaturating_iff.mp hsat
    obtain ⟨o, g, n, hrun, hg, hf⟩ := h.saturating f a ch hst
    obtain ⟨-, -, -, ⟨w, f', -, hw, -, -, hr, hready⟩ | ⟨f', a', ch', hs', -, hr, -⟩⟩ :=
      Step.poll_run hst hp
    · obtain ⟨o', g', n', hrun', hg', rfl⟩ := run_follows hr hf hg
      exact .of_saturated h.fresh hw ⟨g', hrun.trans hrun', ready_of_withSwallow hg' hready⟩
    · obtain ⟨o', g', n', hrun', hg', rfl⟩ := run_follows hr hf hg
      exact .of_saturating h.fresh hs' (hrun.trans hrun') hg'

/-! ### The events of a step are those of its future -/

/-- What has gone out of the step belongs to its future. -/
def Tracked (start : SaturationFuture T) (x : Step T) : Prop := ∃ e, Tracks start x e

/-- Every change of a step keeps account of what has gone out of it. -/
theorem tracked_invariant (hd : Deterministic T) (ha : AwaitsEmissions T) :
    StepInvariant (Tracked (T := T)) where
  unsaturated := fun hf hu hc hp => ⟨[], .fresh_unsaturated hf hc hu hp⟩
  completes := fun ⟨e, h⟩ hw => ⟨e, h.saturated _ hw⟩
  desaturate := fun ⟨e, h⟩ => ⟨e, h.unsaturated⟩
  started := fun ⟨e, h⟩ => ⟨e, h.restart rfl⟩
  poll := by
    rintro start x fuel answers p ⟨e, h⟩ hsat hp
    obtain ⟨f, a, ch, hst⟩ := Step.isSaturating_iff.mp hsat
    have hspec := h.poll hd ha fuel answers hst
    rw [hp] at hspec
    obtain ⟨result, -, htracks⟩ := hspec
    exact ⟨_, htracks.tracks⟩

end Cozal
