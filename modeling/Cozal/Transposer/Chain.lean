import Cozal.Transposer.InTime

namespace Cozal

open Transposer

/-!
# Chains of steps

A chain starts with the initial step.  Its last step is polled until it is saturated; then the
step after it is made, saturated from it, and is the last one.  `Chain ls s` says that `s` is
the last step of a chain in which the work `ls` has been done.

* `Step.nextUnsaturated_cases`, `Step.saturateTake_ok`, `Step.saturateClone_ok` — what the
  methods of `Step` that make a chain longer do.
* `Reaches` — the futures a chain goes through, with the work done up to each; an invariant of
  chains is an induction over it.
* `Chain.reached` — the last step of a chain is in such a future, or such a future left it.
-/

variable {T : Type} [Transposer T]

/-! ### The status of a step -/

/-- A saturated step holds its transposer. -/
theorem Step.isSaturated_iff {x : Step T} :
    x.isSaturated = true ↔ ∃ w, x.status = .saturated w := by
  cases hx : x.status <;> simp [Step.isSaturated, hx]

/-- A saturating step holds its future. -/
theorem Step.isSaturating_iff {x : Step T} :
    x.isSaturating = true ↔ ∃ f a ch, x.status = .saturating f a ch := by
  cases hx : x.status <;> simp [Step.isSaturating, hx]

/-- An unsaturated step holds nothing. -/
theorem Step.isUnsaturated_iff {x : Step T} : x.isUnsaturated = true ↔ x.status = .unsaturated := by
  cases hx : x.status <;> simp [Step.isUnsaturated, hx]

/-! ### Making a chain longer -/

/-- The time of a step is that of what it is about. -/
theorem Step.getTime_eq {s s' : Step T} (h : s.data = s'.data) : s.getTime = s'.getTime := by
  simp only [Step.getTime, h]

/-- The step after a saturated one is that of the input, or that of the next scheduled event
    when there is no input or the event is due before it. -/
theorem Step.nextUnsaturated_cases {prev s : Step T} {w : WrappedTransposer T} {uuid : ℕ}
    {inputs rest : Option (StepInputs T)} (hprev : prev.status = .saturated w)
    (h : prev.nextUnsaturated uuid inputs = .ok (some s, rest)) :
    (s.status = .unsaturated ∧ s.eventCount = 0 ∧ s.canProduceEvents = true ∧
      s.uuidSelf = uuid ∧ s.uuidPrev = some prev.uuidSelf) ∧
    ((∃ i, inputs = some i ∧ rest = none ∧ s.data = .input i ∧
        ∀ k, w.metadata.getNextScheduledTime = some k → i.time ≤ k.time) ∨
      ∃ k, w.metadata.getNextScheduledTime = some k ∧ rest = inputs ∧ s.data = .scheduled k ∧
        ∀ i, inputs = some i → k.time < i.time) := by
  simp only [Step.nextUnsaturated, hprev] at h
  split at h
  · cases h
  · -- no input
    rename_i k hk
    cases h
    exact ⟨⟨rfl, rfl, rfl, rfl, rfl⟩, Or.inr ⟨k, hk, rfl, rfl, by simp⟩⟩
  · -- nothing scheduled
    rename_i i hi
    cases h
    exact ⟨⟨rfl, rfl, rfl, rfl, rfl⟩, Or.inl ⟨i, rfl, rfl, rfl, by simp [hi]⟩⟩
  · -- both: an input goes before a scheduled event of its time
    rename_i i k hk
    by_cases hlt : i.time > k.time
    · rw [if_pos hlt] at h
      cases h
      exact ⟨⟨rfl, rfl, rfl, rfl, rfl⟩, Or.inr ⟨k, hk, rfl, rfl, by simpa using hlt⟩⟩
    · rw [if_neg hlt] at h
      cases h
      refine ⟨⟨rfl, rfl, rfl, rfl, rfl⟩, Or.inl ⟨i, rfl, rfl, rfl, ?_⟩⟩
      intro k' hk'
      rw [hk, Option.some.injEq] at hk'
      exact hk' ▸ not_lt.mp hlt

/-- Saturating a step puts it at the start of its future. -/
theorem Step.saturate_ok {s s' : Step T} {w : WrappedTransposer T} (h : s.saturate w = .ok s') :
    ∃ f, Step.saturationFuture s.data w s.eventCount = some f ∧
      s' = { s with status := .saturating f none .new } := by
  simp only [Step.saturate, Outcome.bind_eq_ok, Outcome.unwrap_eq_ok, Outcome.pure_eq,
    Outcome.ok.injEq] at h
  obtain ⟨f, hf, rfl⟩ := h
  exact ⟨f, hf, rfl⟩

section Build

variable [BuildProfile]

/-- A step that takes over starts from the state of the one before, which loses it. -/
theorem Step.saturateTake_ok {s s' prev prev' : Step T}
    (h : s.saturateTake prev = .ok (.ok (), s', prev')) :
    ∃ w, prev.status = .saturated w ∧ s.saturate w = .ok s' ∧
      prev' = { prev with status := .unsaturated } := by
  unfold Step.saturateTake at h
  split at h
  · cases h
  · split at h
    · rename_i w hw
      simp only [Outcome.bind_eq_ok, Outcome.pure_eq, Outcome.ok.injEq, Prod.mk.injEq] at h
      obtain ⟨s'', hs, -, rfl, rfl⟩ := h
      exact ⟨w, hw, hs, rfl⟩
    · cases h

/-- A step that clones starts from the state of the one before. -/
theorem Step.saturateClone_ok {s s' prev : Step T}
    (h : s.saturateClone prev = .ok (.ok (), s')) :
    ∃ w, prev.status = .saturated w ∧ s.saturate w = .ok s' := by
  unfold Step.saturateClone at h
  split at h
  · cases h
  · split at h
    · rename_i w hw
      simp only [Outcome.bind_eq_ok, Outcome.pure_eq, Outcome.ok.injEq, Prod.mk.injEq] at h
      obtain ⟨s'', hs, -, rfl⟩ := h
      exact ⟨w, hw, hs⟩
    · cases h

/-- The last step of a chain, and the work done in the chain. -/
inductive Chain : List (Label T) → Step T → Prop where
  | newInit (uuid : ℕ) (transposer : T) (startTime : Time T) (rngSeed : Seed T) :
      Chain [] (Step.newInit uuid transposer startTime rngSeed)
  | poll {ls s p} (fuel : ℕ) (answers : List (Response T)) :
      Chain ls s → s.poll fuel answers = .ok p → Chain (ls ++ p.labels) p.step
  | saturateTake {ls prev s s' prev' rest} (uuid : ℕ) (inputs : Option (StepInputs T)) :
      Chain ls prev → (∀ i, inputs = some i → prev.getTime < i.time) →
      prev.nextUnsaturated uuid inputs = .ok (some s, rest) →
      s.saturateTake prev = .ok (.ok (), s', prev') → Chain ls s'
  | saturateClone {ls prev s s' rest} (uuid : ℕ) (inputs : Option (StepInputs T)) :
      Chain ls prev → (∀ i, inputs = some i → prev.getTime < i.time) →
      prev.nextUnsaturated uuid inputs = .ok (some s, rest) →
      s.saturateClone prev = .ok (.ok (), s') → Chain ls s'

end Build

/-! ### The futures of a chain -/

/-- The futures a chain goes through: the initial one, those that work leads to, and those that
    start when one is ready, for the next scheduled event or for an input that is later than
    the step and not later than any event. -/
inductive Reaches : List (Label T) → SaturationFuture T → Prop where
  | init (transposer : T) (rngSeed : Seed T) (startTime : Time T) (n : ℕ) :
      Reaches [] (WrappedTransposer.init transposer rngSeed startTime n)
  | work {ls ls' f f'} : Reaches ls f → LabelStep f ls' f' → Reaches (ls ++ ls') f'
  | handleScheduled {ls f w k} (n : ℕ) : Reaches ls f → f.advance = .ready w →
      w.metadata.getNextScheduledTime = some k → Reaches ls (w.handleScheduled k.time n)
  | handleInput {ls f w} {i : StepInputs T} (n : ℕ) : Reaches ls f → f.advance = .ready w →
      f.cx.time.time < i.time → NothingBefore i.time w.metadata → Reaches ls (w.handleInput i n)

/-- What a future runs on to is reached. -/
theorem Reaches.run {ls ls' : List (Label T)} {f g : SaturationFuture T} (h : Reaches ls f)
    (hr : Run LabelStep f ls' g) : Reaches (ls ++ ls') g := by
  induction hr generalizing ls with
  | refl f => simpa using h
  | head hstep _ ih => rw [← List.append_assoc]; exact ih (h.work hstep)

/-- The futures of a chain are in time. -/
theorem Reaches.inTime {ls : List (Label T)} {f : SaturationFuture T} (h : Reaches ls f) :
    InTime f.cx.time.time f := by
  induction h with
  | init transposer rngSeed startTime n => exact .init transposer rngSeed startTime n
  | work _ hstep ih =>
    obtain ⟨l, -, hw⟩ := hstep.work
    have hf' := ih.work hw
    rwa [hf'.current]
  | handleScheduled n _ _ hk _ => exact .handleScheduled hk n
  | handleInput n _ _ _ hi _ => exact .handleInput hi n

/-- When a future of a chain is ready, nothing is left to do at its time. -/
theorem Reaches.drained {ls : List (Label T)} {f : SaturationFuture T} (h : Reaches ls f)
    {w : WrappedTransposer T} (hw : f.advance = .ready w) : Drained f.cx.time.time w :=
  h.inTime.drained hw

/-- The step is in a future of a chain in which the work `ls` has been done, or such a future
    has left it saturated. -/
def Step.Reached (ls : List (Label T)) (s : Step T) : Prop :=
  match s.status with
  | .unsaturated => False
  | .saturating f _ _ => Reaches ls f ∧ f.cx.time.time = s.getTime
  | .saturated w => ∃ f, Reaches ls f ∧ f.advance = .ready w ∧ f.cx.time.time = s.getTime

/-- A run of work keeps the time of a future. -/
theorem Reaches.run_time {ls ls' : List (Label T)} {f g : SaturationFuture T}
    (h : Reaches ls f) (hr : Run LabelStep f ls' g) : g.cx.time.time = f.cx.time.time :=
  (h.inTime.run hr).current

/-- The future the next step starts in. -/
theorem Reaches.next {ls : List (Label T)} {prev s : Step T} {w : WrappedTransposer T}
    {f g : SaturationFuture T} {uuid n : ℕ} {inputs rest : Option (StepInputs T)}
    (h : Reaches ls f) (hw : f.advance = .ready w) (htime : f.cx.time.time = prev.getTime)
    (hprev : prev.status = .saturated w)
    (hinputs : ∀ i, inputs = some i → prev.getTime < i.time)
    (hnext : prev.nextUnsaturated uuid inputs = .ok (some s, rest))
    (hg : Step.saturationFuture s.data w n = some g) :
    Reaches ls g ∧ g.cx.time.time = s.getTime := by
  obtain ⟨-, ⟨i, hi, -, hdata, hle⟩ | ⟨k, hk, -, hdata, -⟩⟩ :=
    Step.nextUnsaturated_cases hprev hnext
  · simp only [hdata, Step.saturationFuture, Option.some.injEq] at hg
    subst hg
    have hpending : NothingBefore i.time w.metadata := .of_next_le hle
    refine ⟨h.handleInput n hw ?_ hpending, ?_⟩
    · rw [htime]; exact hinputs i hi
    · simp only [Step.getTime, hdata]; rfl
  · simp only [hdata, Step.saturationFuture, Option.some.injEq] at hg
    subst hg
    refine ⟨h.handleScheduled n hw hk, ?_⟩
    simp only [Step.getTime, hdata]; rfl

/-- A poll follows the future of its step. -/
theorem Step.Reached.poll {ls : List (Label T)} {s : Step T} {fuel : ℕ}
    {answers : List (Response T)} {p : StepPolled T} (h : s.Reached ls)
    (hp : s.poll fuel answers = .ok p) : p.step.Reached (ls ++ p.labels) := by
  cases hst : s.status with
  | unsaturated => simp only [Step.Reached, hst] at h
  | saturated w =>
    obtain ⟨hstep, hlabels, -, -⟩ := Step.poll_refused (by simp [Step.isSaturating, hst]) hp
    rw [hstep, hlabels, List.append_nil]
    exact h
  | saturating f a ch =>
    simp only [Step.Reached, hst] at h
    obtain ⟨hreach, htime⟩ := h
    obtain ⟨hdata, -, -, ⟨w, g, -, hw, -, -, hr, hg⟩ | ⟨g, a', ch', hg, -, hr, -⟩⟩ :=
      Step.poll_run hst hp
    · have hgt : p.step.getTime = s.getTime := by simp only [Step.getTime, hdata]
      simp only [Step.Reached, hw]
      exact ⟨g, hreach.run hr, hg, by rw [hreach.run_time hr, htime, hgt]⟩
    · have hgt : p.step.getTime = s.getTime := by simp only [Step.getTime, hdata]
      simp only [Step.Reached, hg]
      exact ⟨hreach.run hr, by rw [hreach.run_time hr, htime, hgt]⟩

/-- The step after a saturated one of a chain starts in a future of the chain. -/
theorem Step.Reached.next {ls : List (Label T)} {prev s s' : Step T} {w : WrappedTransposer T}
    {uuid : ℕ} {inputs rest : Option (StepInputs T)} (h : prev.Reached ls)
    (hprev : prev.status = .saturated w)
    (hinputs : ∀ i, inputs = some i → prev.getTime < i.time)
    (hnext : prev.nextUnsaturated uuid inputs = .ok (some s, rest))
    (hs : s.saturate w = .ok s') : s'.Reached ls ∧ s'.getTime = s.getTime ∧ s'.data = s.data := by
  obtain ⟨g, hg, rfl⟩ := Step.saturate_ok hs
  simp only [Step.Reached, hprev] at h
  obtain ⟨f, hreach, hready, htime⟩ := h
  have hnew := hreach.next hready htime hprev hinputs hnext hg
  exact ⟨hnew, rfl, rfl⟩

/-- **The last step of a chain** is in a future of the chain, or such a future has left it
    saturated. -/
theorem Chain.reached [BuildProfile] {ls : List (Label T)} {s : Step T} (h : Chain ls s) :
    s.Reached ls := by
  induction h with
  | newInit uuid transposer startTime rngSeed =>
    exact ⟨.init transposer rngSeed startTime 0, rfl⟩
  | poll fuel answers _ hp ih => exact ih.poll hp
  | saturateTake uuid inputs _ hinputs hnext htake ih =>
    obtain ⟨w, hprev, hs, -⟩ := Step.saturateTake_ok htake
    exact (ih.next hprev hinputs hnext hs).1
  | saturateClone uuid inputs _ hinputs hnext hclone ih =>
    obtain ⟨w, hprev, hs⟩ := Step.saturateClone_ok hclone
    exact (ih.next hprev hinputs hnext hs).1

/-! ### The points of a chain -/

/-- The metadata at some point of a chain, also in the middle of a poll, and the work done up
    to that point. -/
inductive ChainPoint [BuildProfile] : List (Label T) → TransposerMetaData T → Prop where
  | saturating {ls s f a ch ls' g} : Chain ls s → s.status = .saturating f a ch →
      Run LabelStep f ls' g → ChainPoint (ls ++ ls') g.cx.metadata
  | saturated {ls s w} : Chain ls s → s.status = .saturated w → ChainPoint ls w.metadata

/-- Every point of a chain is that of a future of it. -/
theorem ChainPoint.reaches [BuildProfile] {ls : List (Label T)} {m : TransposerMetaData T}
    (h : ChainPoint ls m) : ∃ f, Reaches ls f ∧ m = f.cx.metadata := by
  cases h with
  | saturating hchain hst hr =>
    have hs := hchain.reached
    simp only [Step.Reached, hst] at hs
    exact ⟨_, hs.1.run hr, rfl⟩
  | saturated hchain hst =>
    have hs := hchain.reached
    simp only [Step.Reached, hst] at hs
    obtain ⟨f, hreach, hready, -⟩ := hs
    obtain ⟨time, t, cx, rfl, rfl⟩ := advance_ready hready
    exact ⟨_, hreach, rfl⟩

end Cozal
