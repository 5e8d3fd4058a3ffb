import Cozal.Transposer.Chain
import Cozal.Transposer.Script

namespace Cozal

open Transposer

/-!
# When a step may be saturated

Two methods start to saturate a step from the step before it: one takes the state, one copies it.
Each is meant to refuse unless the step is unsaturated and the one before it is saturated, and a
refusal is meant to change nothing.  Neither looks at the status of the step itself.

* `Step.saturateWith` — the two methods, with what becomes of the step before as a parameter.
* `Step.Honours` — what such a method is meant to do.
* `Step.honours_iff` — the condition under which it does that.
-/

variable {T : Type} [Transposer T]

namespace Step

variable {ε : Type} {s s' prev prev' after : Step T} {w : WrappedTransposer T}

/-- The step has been made from the other, which only a build with debug assertions compares. -/
def Follows [BuildProfile] (s prev : Step T) : Prop :=
  BuildProfile.debugAssertions = true → s.uuidPrev = some prev.uuidSelf

/-- The step is the initial one. -/
def IsInit (s : Step T) : Prop := ∃ time, s.data = .init time

/-- A step that is not the initial one can start from every state. -/
theorem exists_saturationFuture (h : ¬ s.IsInit) (w : WrappedTransposer T) (n : ℕ) :
    ∃ f, saturationFuture s.data w n = some f := by
  cases hdata : s.data with
  | init time => exact absurd ⟨time, hdata⟩ h
  | input i => exact ⟨_, rfl⟩
  | scheduled t => exact ⟨_, rfl⟩

/-- An initial step has no future to be saturated with. -/
theorem saturationFuture_init (h : s.IsInit) (w : WrappedTransposer T) (n : ℕ) :
    saturationFuture s.data w n = none := by
  obtain ⟨time, hdata⟩ := h
  rw [hdata]
  rfl

/-- What saturating a step is meant to do: it succeeds exactly on an unsaturated step after a
    saturated one; a step that is not unsaturated is refused as such; a refusal changes nothing;
    and a success starts the step from the state of the one before. -/
structure Honours [BuildProfile] (s prev after : Step T) (refused : ε)
    (o : Outcome (Except ε Unit × Step T × Step T)) : Prop where
  returns : ∃ q, o = .ok q
  succeeds_iff : (∃ s' prev', o = .ok (.ok (), s', prev')) ↔
    s.status = .unsaturated ∧ prev.isSaturated = true ∧ s.Follows prev
  refuses : s.status ≠ .unsaturated → ∃ s' prev', o = .ok (.error refused, s', prev')
  refusal : ∀ e s' prev', o = .ok (.error e, s', prev') → s' = s ∧ prev' = prev
  success : ∀ s' prev', o = .ok (.ok (), s', prev') → ∃ w f, prev.status = .saturated w ∧
    saturationFuture s.data w s.eventCount = some f ∧
    s' = { s with status := .saturating f none .new } ∧ prev' = after

section Build

variable [BuildProfile]

/-- Both methods: compare the two steps, then take the state of the step before or refuse. -/
def saturateWith (incorrectPrevious previousNotSaturated : ε) (after s prev : Step T) :
    Outcome (Except ε Unit × Step T × Step T) :=
  if BuildProfile.debugAssertions ∧ s.uuidPrev ≠ some prev.uuidSelf then
    return (.error incorrectPrevious, s, prev)
  else
    match prev.status with
    | .saturated w => do
        let s' ← s.saturate w
        return (.ok (), s', after)
    | _ => return (.error previousNotSaturated, s, prev)

/-- `saturate_take` leaves the step before without its state. -/
theorem saturateTake_eq (s prev : Step T) : s.saturateTake prev =
    saturateWith .incorrectPrevious .previousNotSaturated { prev with status := .unsaturated }
      s prev := by
  unfold saturateTake saturateWith
  split
  · rfl
  · cases prev.status <;> rfl

/-- `saturate_clone` only reads the step before. -/
theorem saturateClone_eq (s prev : Step T) :
    (do let (r, s') ← s.saturateClone prev
        return (r, s', prev)) =
      saturateWith SaturateCloneErr.incorrectPrevious .previousNotSaturated prev s prev := by
  unfold saturateClone saturateWith
  split
  · rfl
  · cases prev.status with
    | saturated w => cases hs : s.saturate w <;> simp [hs]
    | unsaturated | saturating _ _ _ => rfl

section Method

variable {incorrectPrevious previousNotSaturated refused : ε}

/-- A step that was made from another one is refused as such. -/
theorem saturateWith_incorrect (h : ¬ s.Follows prev) :
    saturateWith incorrectPrevious previousNotSaturated after s prev
      = .ok (.error incorrectPrevious, s, prev) := by
  have hcond : BuildProfile.debugAssertions = true ∧ s.uuidPrev ≠ some prev.uuidSelf := by
    simpa [Follows] using h
  rw [saturateWith, if_pos hcond]
  rfl

/-- A step before that is not saturated is refused as such. -/
theorem saturateWith_notSaturated (h : s.Follows prev) (hprev : prev.isSaturated = false) :
    saturateWith incorrectPrevious previousNotSaturated after s prev
      = .ok (.error previousNotSaturated, s, prev) := by
  rw [saturateWith, if_neg fun hcond => hcond.2 (h hcond.1)]
  cases hst : prev.status with
  | saturated w => simp [isSaturated, hst] at hprev
  | unsaturated | saturating _ _ _ => rfl

/-- On a saturated step before, the step starts, whatever it is itself. -/
theorem saturateWith_saturated (h : s.Follows prev) (hprev : prev.status = .saturated w) :
    saturateWith incorrectPrevious previousNotSaturated after s prev
      = s.saturate w >>= fun s' => .ok (.ok (), s', after) := by
  rw [saturateWith, if_neg fun hcond => hcond.2 (h hcond.1), hprev]
  rfl

/-- A refusal for another reason is what is meant only on an unsaturated step. -/
theorem honours_refusal {e : ε} (he : e ≠ refused)
    (hnot : ¬ (prev.isSaturated = true ∧ s.Follows prev)) :
    Honours s prev after refused (.ok (.error e, s, prev)) ↔ s.status = .unsaturated := by
  constructor
  · intro h
    by_contra hst
    obtain ⟨_, _, hrefuses⟩ := h.refuses hst
    cases hrefuses
    exact he rfl
  · intro hst
    refine ⟨⟨_, rfl⟩, ⟨?_, ?_⟩, fun hne => absurd hst hne, ?_, ?_⟩
    · rintro ⟨_, _, h⟩
      cases h
    · rintro ⟨-, h⟩
      exact absurd h hnot
    · rintro e' s' prev' h
      cases h
      exact ⟨rfl, rfl⟩
    · rintro s' prev' h
      cases h

/-- So is a success. -/
theorem honours_success {f : SaturationFuture T} (hfollows : s.Follows prev)
    (hprev : prev.status = .saturated w) (hf : saturationFuture s.data w s.eventCount = some f) :
    Honours s prev after refused
        (.ok (.ok (), { s with status := .saturating f none .new }, after)) ↔
      s.status = .unsaturated := by
  constructor
  · intro h
    by_contra hst
    obtain ⟨_, _, hrefuses⟩ := h.refuses hst
    cases hrefuses
  · intro hst
    refine ⟨⟨_, rfl⟩, ⟨?_, ?_⟩, fun hne => absurd hst hne, ?_, ?_⟩
    · rintro -
      exact ⟨hst, isSaturated_iff.mpr ⟨w, hprev⟩, hfollows⟩
    · rintro -
      exact ⟨_, _, rfl⟩
    · rintro e s' prev' h
      cases h
    · rintro s' prev' h
      cases h
      exact ⟨w, f, hprev, hf, rfl, rfl⟩

/-- **When saturating does what it is meant to:** the step is unsaturated, and it is not the
    initial step, or else it is refused for another reason. -/
theorem honours_iff (hincorrect : incorrectPrevious ≠ refused)
    (hnotSaturated : previousNotSaturated ≠ refused) :
    Honours s prev after refused
        (saturateWith incorrectPrevious previousNotSaturated after s prev) ↔
      s.status = .unsaturated ∧ ¬ (s.IsInit ∧ prev.isSaturated = true ∧ s.Follows prev) := by
  by_cases hready : prev.isSaturated = true ∧ s.Follows prev
  · obtain ⟨hsat, hfollows⟩ := hready
    obtain ⟨w, hw⟩ := isSaturated_iff.mp hsat
    rw [saturateWith_saturated hfollows hw]
    by_cases hinit : s.IsInit
    · -- the initial step panics once the state has been taken
      rw [saturate, saturationFuture_init hinit]
      constructor
      · intro h
        obtain ⟨_, hq⟩ := h.returns
        cases hq
      · rintro ⟨-, hnot⟩
        exact absurd ⟨hinit, hsat, hfollows⟩ hnot
    · obtain ⟨f, hf⟩ := exists_saturationFuture hinit w s.eventCount
      rw [saturate, hf]
      refine (honours_success hfollows hw hf).trans ?_
      simp [hinit]
  · have hmay : ¬ (s.IsInit ∧ prev.isSaturated = true ∧ s.Follows prev) :=
      fun h => hready h.2
    rw [and_iff_left hmay]
    by_cases hfollows : s.Follows prev
    · have hsat : prev.isSaturated = false :=
        Bool.eq_false_iff.mpr fun h => hready ⟨h, hfollows⟩
      rw [saturateWith_notSaturated hfollows hsat]
      exact honours_refusal hnotSaturated hready
    · rw [saturateWith_incorrect hfollows]
      exact honours_refusal hincorrect hready

end Method

/-- `saturate_take` does what it is meant to. -/
def TakeHonours (s prev : Step T) : Prop :=
  Honours s prev { prev with status := .unsaturated } SaturateTakeErr.selfNotUnsaturated
    (s.saturateTake prev)

/-- `saturate_clone` does what it is meant to. -/
def CloneHonours (s prev : Step T) : Prop :=
  Honours s prev prev SaturateCloneErr.selfNotUnsaturated
    (do let (r, s') ← s.saturateClone prev
        return (r, s', prev))

end Build

end Step

open Step in
/-- **Saturation preconditions.**  Both methods do what they are meant to exactly when the step
    is unsaturated, and is not the initial step in front of a saturated one that passes for the
    step before it. -/
theorem saturation_preconditions_iff [BuildProfile] (s prev : Step T) :
    (s.TakeHonours prev ↔
      s.status = .unsaturated ∧ ¬ (s.IsInit ∧ prev.isSaturated = true ∧ s.Follows prev)) ∧
    (s.CloneHonours prev ↔
      s.status = .unsaturated ∧ ¬ (s.IsInit ∧ prev.isSaturated = true ∧ s.Follows prev)) := by
  constructor
  · rw [TakeHonours, saturateTake_eq]
    exact honours_iff (by decide) (by decide)
  · rw [CloneHonours, saturateClone_eq]
    exact honours_iff (by decide) (by decide)

open Step in
/-- A step has emitted an event and is still running when it is saturated again: both methods
    succeed, and the run is lost. -/
theorem saturation_preconditions_fails :
    ∃ (_ : BuildProfile) (prev new running : Step Script) (p : StepPolled Script),
      new.saturateClone prev = .ok (.ok (), running) ∧ running.poll 9 [] = .ok p ∧
      p.step.eventCount = 1 ∧ p.step.isSaturating = true ∧
      ¬ p.step.TakeHonours prev ∧ ¬ p.step.CloneHonours prev := by
  let _ : BuildProfile := debugBuild
  let script : Script := ⟨[.schedule 10], [.emit 7, .emit 8], [], 0⟩
  obtain ⟨q, hq⟩ : ∃ q, (Step.newInit 0 script (0 : ℕ) ()).poll 9 [] = .ok q := ⟨_, rfl⟩
  obtain ⟨new, hnew⟩ : ∃ new, q.step.nextUnsaturated 1 none = .ok (some new, none) := by
    cases hq
    exact ⟨_, rfl⟩
  obtain ⟨running, hrunning⟩ : ∃ running, new.saturateClone q.step = .ok (.ok (), running) := by
    cases hq
    cases hnew
    exact ⟨_, rfl⟩
  obtain ⟨p, hp⟩ : ∃ p, running.poll 9 [] = .ok p := by
    cases hq
    cases hnew
    cases hrunning
    exact ⟨_, rfl⟩
  refine ⟨debugBuild, q.step, new, running, p, hrunning, hp, ?_⟩
  cases hq
  cases hnew
  cases hrunning
  cases hp
  refine ⟨rfl, rfl, ?_, ?_⟩
  -- the running step is not refused
  · intro h
    obtain ⟨_, _, hrefuses⟩ := h.refuses nofun
    cases hrefuses
  · intro h
    obtain ⟨_, _, hrefuses⟩ := h.refuses nofun
    cases hrefuses

end Cozal
