import Cozal.Source.Calls
import Cozal.Transposer.Script

namespace Cozal

open Transposer

/-!
# The steps after any sequence of calls

* `Steps.Call`, `Steps.Call.Does` — a call on `Steps`, or a poll of a saturating step of it, that
  returns.
* `Steps.ReachableBy` — the states that calls lead to, with a condition on every call.
* `Steps.MovesTo` — a sequence of moves leads from one state to another.
* `Steps.Call.Does.moves` — every call is a sequence of moves, so `Steps.ReachableBy.sound`.
* `steps_representation` — what the representation invariant says of `Steps`.
-/

variable {T : Type} [Transposer T]

namespace Steps

/-- A call, with what it needs from outside. -/
inductive Call (T : Type) [Transposer T] where
  | getBeforeOrAt (fuel : ℕ) (time : Time T) (pinnedTimes : List (Time T))
  | getBeforeOrAtEvents (time : Time T) (pinnedTimes : List (Time T))
  | deleteBefore (time : Time T)
  | poll (i fuel : ℕ) (answers : List (Response T))

/-- The times the call has pinned. -/
def Call.pinnedTimes : Call T → List (Time T)
  | .getBeforeOrAt _ _ pinnedTimes => pinnedTimes
  | .getBeforeOrAtEvents _ pinnedTimes => pinnedTimes
  | .deleteBefore _ => []
  | .poll _ _ _ => []

/-- Saturating a step is a sequence of moves. -/
theorem SaturateCases.moves {s s' : Steps T} {pinnedTimes : List (Time T)} {j : ℕ}
    {prev step : Step T} {w : WrappedTransposer T} (h : SaturateCases s pinnedTimes j step w s')
    (hprev : s.steps[j]? = some prev) (hw : prev.status = .saturated w)
    (hstep : s.steps[j + 1]? = some step) (hunsat : step.status = .unsaturated) :
    Relation.ReflTransGen (Move pinnedTimes) s s' :=
  .single (h.move hprev hw hstep hunsat)

/-- `get_before_or_at` is a sequence of moves. -/
theorem BeforeCases.moves {s s' : Steps T} {pinnedTimes : List (Time T)} {t : Time T}
    {r : Except Unit (BeforeStatus T)} (h : BeforeCases s pinnedTimes t r s') :
    Relation.ReflTransGen (Move pinnedTimes) s s' := by
  cases h with
  | before _ | saturated _ _ _ | saturating _ _ | previous _ _ _ _ => exact .refl
  | start hx hunsat hprev hw hcases _ => exact hcases.moves hprev hw hx.get hunsat

/-- `get_before_or_at_events` is a sequence of moves. -/
theorem EventsCases.moves {s s' : Steps T} {pinnedTimes : List (Time T)} {t : Time T}
    {r : BeforeStatusEvents T} (h : EventsCases s pinnedTimes t r s') :
    Relation.ReflTransGen (Move pinnedTimes) s s' := by
  cases h with
  | ready _ _ | saturating _ _ _ => exact .refl
  | @start j x prev w s' hx _ hunsat hj hprev hw hcases =>
    refine hcases.moves hprev hw ?_ hunsat
    rw [show j + 1 = s.steps.length - 1 by omega]
    exact hx

/-- A sequence of moves leads from one state to another, whatever times each of them has pinned. -/
def MovesTo : Steps T → Steps T → Prop :=
  Relation.ReflTransGen fun s s' => ∃ pinnedTimes, Move pinnedTimes s s'

/-- Moves with some pinned times lead to where they lead. -/
theorem movesTo_of_moves {pinnedTimes : List (Time T)} {s s' : Steps T}
    (h : Relation.ReflTransGen (Move pinnedTimes) s s') : s.MovesTo s' :=
  Relation.ReflTransGen.mono (fun _ _ hmove => ⟨pinnedTimes, hmove⟩) _ _ h

/-- **The moves keep the invariant.** -/
theorem MovesTo.sound {s s' : Steps T} (h : s.MovesTo s') (hs : s.Sound) : s'.Sound := by
  induction h with
  | refl => exact hs
  | tail _ hmove ih =>
    obtain ⟨pinnedTimes, hmove⟩ := hmove
    exact hmove.sound ih

/-- Moves keep the invariant. -/
theorem sound_of_moves {pinnedTimes : List (Time T)} {s s' : Steps T}
    (h : Relation.ReflTransGen (Move pinnedTimes) s s') (hs : s.Sound) : s'.Sound :=
  (movesTo_of_moves h).sound hs

section Build

variable [BuildProfile]

/-- The call returns, and leaves the steps as the second argument. -/
inductive Call.Does : Call T → Steps T → Steps T → Prop where
  | getBeforeOrAt {s s' r} (fuel : ℕ) (time : Time T) (pinnedTimes : List (Time T)) :
      s.getBeforeOrAt fuel time pinnedTimes = .ok (r, s') →
      Call.Does (.getBeforeOrAt fuel time pinnedTimes) s s'
  | getBeforeOrAtEvents {s s' r} (time : Time T) (pinnedTimes : List (Time T)) :
      s.getBeforeOrAtEvents time pinnedTimes = .ok (r, s') →
      Call.Does (.getBeforeOrAtEvents time pinnedTimes) s s'
  | deleteBefore {s s' r} (time : Time T) : s.deleteBefore time = .ok (r, s') →
      Call.Does (.deleteBefore time) s s'
  | poll {s step p} (i fuel : ℕ) (answers : List (Response T)) : s.steps[i]? = some step →
      step.isSaturating = true → step.poll fuel answers = .ok p →
      Call.Does (.poll i fuel answers) s (s.setStep i p.step)

/-- The steps after a sequence of calls from `Steps::new`, each of which meets a condition on
    the steps before it. -/
inductive ReachableBy (meets : Steps T → Call T → Prop) (transposer : T) (startTime : Time T)
    (rngSeed : Seed T) : List (Call T) → Steps T → Prop where
  | new : ReachableBy meets transposer startTime rngSeed [] (.new transposer startTime rngSeed)
  | call {calls s c s'} : ReachableBy meets transposer startTime rngSeed calls s → meets s c →
      c.Does s s' → ReachableBy meets transposer startTime rngSeed (calls ++ [c]) s'

/-- The steps after any sequence of calls from `Steps::new`. -/
abbrev Reachable (transposer : T) (startTime : Time T) (rngSeed : Seed T) :
    List (Call T) → Steps T → Prop :=
  ReachableBy (fun _ _ => True) transposer startTime rngSeed

/-- **Every call is a sequence of moves.** -/
theorem Call.Does.moves {c : Call T} {s s' : Steps T} (h : c.Does s s') (hs : s.Sound) :
    Relation.ReflTransGen (Move c.pinnedTimes) s s' := by
  cases h with
  | getBeforeOrAt fuel time pinnedTimes hr =>
    obtain ⟨s₁, -, hpushed, hcases⟩ := getBeforeOrAt_cases hs hr
    exact (hpushed.moves _).trans hcases.moves
  | getBeforeOrAtEvents time pinnedTimes hr =>
    obtain ⟨s₁, -, hpushed, hcases⟩ := getBeforeOrAtEvents_cases hs hr
    exact (hpushed.moves _).trans hcases.moves
  | deleteBefore time hr =>
    rcases deleteBefore_cases hs hr with ⟨-, rfl⟩ | ⟨hlt, i, x, hx, hu, rfl, -⟩
    · exact .refl
    · exact .single (.forget _ hx hu hlt)
  | poll i fuel answers hstep hsat hp => exact .single (.poll fuel answers hstep hsat hp)

/-- **The invariant holds after every sequence of calls.** -/
theorem ReachableBy.sound {meets : Steps T → Call T → Prop} {transposer : T}
    {startTime : Time T} {rngSeed : Seed T} {calls : List (Call T)} {s : Steps T}
    (h : ReachableBy meets transposer startTime rngSeed calls s) : s.Sound := by
  induction h with
  | new => exact .new transposer startTime rngSeed
  | call _ _ hdoes ih => exact sound_of_moves (hdoes.moves ih) ih

end Build

/-! ### What the invariant says -/

/-- How the fields of `Steps` fit together. -/
structure Representation (s : Steps T) : Prop where
  /-- There is a step. -/
  nonempty : s.steps ≠ []
  /-- The steps are at increasing times. -/
  increasing : (s.steps.map Step.getTime).Pairwise (· < ·)
  /-- The checkpoints are the stored steps that are saturating or saturated. -/
  not_unsaturated : ∀ n, n ∈ s.notUnsaturated ↔
    ∃ x, s.getBySequenceNumber n = some x ∧ (x.isSaturating = true ∨ x.isSaturated = true)
  /-- The first of them is the first stored step. -/
  min_not_unsaturated : OrdSet.first s.notUnsaturated = some s.numDeletedSteps
  /-- So that one is not unsaturated. -/
  front_not_unsaturated : ∀ x, s.steps.head? = some x → x.isUnsaturated = false
  /-- The last of them is the last stored step or the one before it. -/
  max_not_unsaturated : ∃ n, OrdSet.last s.notUnsaturated = some n ∧
    (n + 1 = s.numDeletedSteps + s.steps.length ∨ n + 2 = s.numDeletedSteps + s.steps.length)
  /-- Only the last step may still produce events. -/
  only_last_produces : ∀ i x, s.steps[i]? = some x → x.canProduceEvents = true →
    i + 1 = s.steps.length
  /-- While the last step is unsaturated, the one before it is saturated. -/
  before_unsaturated_last : ∀ x, s.steps.getLast? = some x → x.isUnsaturated = true →
    ∃ i prev, i + 2 = s.steps.length ∧ s.steps[i]? = some prev ∧ prev.isSaturated = true

/-- A stored step by its sequence number. -/
theorem getBySequenceNumber_eq_some {s : Steps T} {n : ℕ} {x : Step T} :
    s.getBySequenceNumber n = some x ↔
      ∃ i, n = s.numDeletedSteps + i ∧ s.steps[i]? = some x := by
  unfold getBySequenceNumber
  by_cases hn : s.numDeletedSteps ≤ n
  · rw [if_pos hn]
    constructor
    · intro hx
      exact ⟨n - s.numDeletedSteps, by omega, hx⟩
    · rintro ⟨i, rfl, hx⟩
      rw [Nat.add_sub_cancel_left]
      exact hx
  · rw [if_neg hn]
    constructor
    · intro hx; cases hx
    · rintro ⟨i, rfl, -⟩
      omega

/-- The last checkpoint is the last stored step or the one before it. -/
theorem Sound.last_checkpoint {s : Steps T} (h : s.Sound) :
    ∃ n, OrdSet.last s.notUnsaturated = some n ∧
      (n + 1 = s.numDeletedSteps + s.steps.length ∨
        n + 2 = s.numDeletedSteps + s.steps.length) := by
  have hbound : ∀ n ∈ s.notUnsaturated, n < s.numDeletedSteps + s.steps.length := by
    intro n hn
    obtain ⟨i, x, rfl, hx, -⟩ := h.exists_of_checkpoint hn
    have hi := (List.getElem?_eq_some_iff.mp hx).1
    omega
  have hpos := h.length_pos
  obtain ⟨x, -, hx, hlast⟩ := h.exists_last
  obtain ⟨m, hm⟩ : ∃ m, m + 1 = s.steps.length := ⟨s.steps.length - 1, by omega⟩
  rw [show s.steps.length - 1 = m by omega] at hx
  cases hxu : x.isUnsaturated with
  | false =>
    refine ⟨s.numDeletedSteps + m, OrdSet.last_eq_some.mpr ⟨h.checkpoint hx hxu, ?_⟩,
      Or.inl (by omega)⟩
    intro n hn
    have hlt := hbound n hn
    omega
  | true =>
    simp only [LastStep, Step.isUnsaturated_iff.mp hxu] at hlast
    obtain ⟨-, i, prev, w, k, hi, hprev, hw, -, -⟩ := hlast
    have hmem := h.checkpoint hprev (isUnsaturated_of_saturated hw)
    refine ⟨s.numDeletedSteps + i, OrdSet.last_eq_some.mpr ⟨hmem, ?_⟩, Or.inr (by omega)⟩
    intro n hn
    obtain ⟨d, y, rfl, hy, hyu⟩ := h.exists_of_checkpoint hn
    have hd := (List.getElem?_eq_some_iff.mp hy).1
    -- the last step is no checkpoint
    have hne : d ≠ m := (index_ne hx hy hxu hyu).symm
    omega

/-- The invariant says how the fields fit together. -/
theorem Sound.representation {s : Steps T} (h : s.Sound) : s.Representation where
  nonempty := by
    intro hnil
    have hpos := h.length_pos
    rw [hnil, List.length_nil] at hpos
    omega
  increasing := h.sorted.map _ (fun _ _ hlt => hlt)
  not_unsaturated := by
    intro n
    rw [h.checkpoints n]
    constructor
    · rintro ⟨i, x, hx, hu, rfl⟩
      exact ⟨x, getBySequenceNumber_eq_some.mpr ⟨i, rfl, hx⟩, isUnsaturated_eq_false_iff.mp hu⟩
    · rintro ⟨x, hx, hu⟩
      obtain ⟨i, rfl, hx'⟩ := getBySequenceNumber_eq_some.mp hx
      exact ⟨i, x, hx', isUnsaturated_eq_false_iff.mpr hu, rfl⟩
  min_not_unsaturated := h.first_checkpoint
  front_not_unsaturated := by
    intro x hx
    obtain ⟨y, hy, hyu⟩ := h.front
    rw [List.head?_eq_getElem?, hy, Option.some.injEq] at hx
    exact hx ▸ hyu
  max_not_unsaturated := h.last_checkpoint
  only_last_produces := fun i x hx hc => h.eq_last_of_canProduce hx hc
  before_unsaturated_last := by
    intro x hx hxu
    obtain ⟨y, hy, -, hlast⟩ := h.exists_last
    rw [hx, Option.some.injEq] at hy
    subst hy
    simp only [LastStep, Step.isUnsaturated_iff.mp hxu] at hlast
    obtain ⟨-, i, prev, w, k, hi, hprev, hw, -, -⟩ := hlast
    exact ⟨i, prev, hi, hprev, Step.isSaturated_iff.mpr ⟨w, hw⟩⟩

end Steps

/-- **The representation of `Steps`.**  After any sequence of calls on `Steps` and of polls of
    its saturating steps that return, its fields fit together. -/
theorem steps_representation [BuildProfile] {transposer : T} {startTime : Time T}
    {rngSeed : Seed T} {calls : List (Steps.Call T)} {s : Steps T}
    (h : Steps.Reachable transposer startTime rngSeed calls s) : s.Representation :=
  h.sound.representation

/-- A step is pushed, the first one is forgotten and the next one is completed. -/
theorem steps_representation_script :
    ∃ s : Steps Script, s.Representation ∧ s.notUnsaturated = {1} ∧ s.numDeletedSteps = 1 := by
  let _ : BuildProfile := debugBuild
  have hnew := @Steps.ReachableBy.new Script _ _ (fun _ _ => True) ⟨[.schedule 3], [], [], 0⟩
    (0 : ℕ) ()
  have hpoll := hnew.call trivial (.poll 0 20 [] rfl rfl rfl)
  have hpush := hpoll.call trivial (.getBeforeOrAt 5 (2 : ℕ) [] rfl)
  have hdelete := hpush.call trivial (.deleteBefore (2 : ℕ) rfl)
  have hevents := hdelete.call trivial (.getBeforeOrAtEvents (4 : ℕ) [(2 : ℕ)] rfl)
  have hdone := hevents.call trivial (.poll 0 20 [] rfl rfl rfl)
  exact ⟨_, steps_representation hdone, rfl, rfl⟩

end Cozal
