import Cozal.Source.StepAndPrev
import Cozal.Transposer.Script

namespace Cozal.Transpose

open Transposer

/-!
# The steps of `Transpose`

`Transpose` keeps its steps in a deque too, and looks for what a state at some time is made of: the
last step before that time, when it is saturated, or one before it to start from.

* `getWithNextMut` — an element of a deque and the next one, from its two slices;
  `get_with_next_mut_any_seam`, what it returns does not depend on where these meet.
* `Steps.getBeforeOrAt` — the lookup, with the loop that goes back.
* `Steps.Finds` — what it finds; `get_before_or_at_finds`, exactly this.
-/

/-! ### An element and the next one -/

section Slices

variable [BuildProfile] {α : Type}

omit [BuildProfile] in
/-- The element of a slice at a position, and the next one of the slice. -/
def splitAfter (slice : List α) (j : ℕ) : Outcome (Option (α × Option α)) := do
  let (before, after) ← splitAtMut slice (j + 1)
  let x ← Outcome.unwrap .dequeIndex before.getLast?
  return some (x, after.head?)

/-- The element of a deque with these two slices at a position, and the next one. -/
def getWithNextMut (front back : List α) (i : ℕ) : Outcome (Option (α × Option α)) :=
  match compare (i + 1) front.length with
  -- both in the first slice
  | .lt => splitAfter front i
  -- on the border
  | .eq => do
      let x ← Outcome.unwrap .dequeIndex front.getLast?
      return some (x, back.head?)
  -- both in the second slice
  | .gt => do splitAfter back (← usizeSub i front.length)

omit [BuildProfile] in
/-- A position behind the end of the slice panics. -/
theorem splitAfter_eq (slice : List α) (j : ℕ) :
    splitAfter slice j = match slice[j]? with
      | some x => .ok (some (x, slice[j + 1]?))
      | none => .panic .dequeIndex := by
  unfold splitAfter
  by_cases hj : j < slice.length
  · have hlast := getLast?_take_succ hj
    rw [List.getElem?_eq_getElem hj] at hlast ⊢
    rw [splitAtMut_of_le (Nat.succ_le_of_lt hj)]
    simp only [Outcome.ok_bind, hlast, Outcome.unwrap_some, List.head?_drop, Outcome.pure_eq]
  · have hnone : slice[j]? = none := List.getElem?_eq_none_iff.mpr (not_lt.mp hj)
    rw [splitAtMut, if_neg (by omega), hnone]
    rfl

/-- **The seam does not matter**: wherever the two slices of the deque meet, the call returns the
    element at the position and the next one, if there is one.  It never returns nothing; behind
    the end it panics. -/
theorem get_with_next_mut_any_seam (front back : List α) (i : ℕ) :
    getWithNextMut front back i = match (front ++ back)[i]? with
      | some x => .ok (some (x, (front ++ back)[i + 1]?))
      | none => .panic .dequeIndex := by
  unfold getWithNextMut
  rcases lt_trichotomy (i + 1) front.length with hlt | heq | hgt
  · rw [compare_lt_iff_lt.mpr hlt, List.getElem?_append_left (by omega),
      List.getElem?_append_left hlt]
    exact splitAfter_eq front i
  · have hlast : front.getLast? = front[i]? := by
      rw [List.getLast?_eq_getElem?, show front.length - 1 = i by omega]
    rw [List.getElem?_eq_getElem (by omega)] at hlast
    rw [compare_eq_iff_eq.mpr heq, List.getElem?_append_left (by omega),
      List.getElem?_eq_getElem (by omega), List.getElem?_append_right heq.ge, heq, Nat.sub_self,
      ← List.head?_eq_getElem?]
    simp only [hlast, Outcome.unwrap_some, Outcome.ok_bind, Outcome.pure_eq]
  · obtain ⟨k, rfl⟩ : ∃ k, i = front.length + k := ⟨i - front.length, by omega⟩
    rw [compare_gt_iff_gt.mpr hgt, List.getElem?_append_right (by omega),
      List.getElem?_append_right (by omega), Nat.add_assoc, Nat.add_sub_cancel_left,
      Nat.add_sub_cancel_left]
    show (usizeSub (front.length + k) front.length >>= splitAfter back) = _
    rw [usizeSub_add_left, Outcome.ok_bind]
    exact splitAfter_eq back k

end Slices

/-! ### The lookup -/

variable {T : Type} [Transposer T]

/-- A step, and the number of the first event it has emitted. -/
structure StepWrapper (T : Type) [Transposer T] where
  step : Step T
  firstEmittedId : Option ℕ

/-- The steps from the first one that is kept on. -/
structure Steps (T : Type) [Transposer T] where
  steps : List (StepWrapper T)
  numDeletedSteps : ℕ

/-- What a state is made of, by places in the deque: a saturated step, one and the next one, which
    is to be saturated from it, or one that is being saturated. -/
inductive BeforeStatus where
  | saturatedImmediate (i : ℕ)
  | saturatedDistant (i next : ℕ)
  | saturating (i : ℕ)
deriving DecidableEq, Repr

namespace Steps

/-- The time of the step inside. -/
def getTime (x : StepWrapper T) : Time T := x.step.getTime

/-- The loop: `stepI` is where it looked last, and it stops before it looks at the first step. -/
def goBack (steps : List (StepWrapper T)) (stepI : ℕ) : ℕ → Except Unit BeforeStatus
  | 0 => .error ()
  | i + 1 =>
      let stepNext := stepI
      match steps[i + 1]? with
      | none => .error ()
      | some x =>
          if x.step.isUnsaturated then goBack steps (i + 1) i
          else if x.step.isSaturating then .ok (.saturating (i + 1))
          else .ok (.saturatedDistant (i + 1) stepNext)

/-- `i.checked_sub(1)`, and the loop from there. -/
def goBackFrom (steps : List (StepWrapper T)) : ℕ → Except Unit BeforeStatus
  | 0 => .error ()
  | i + 1 => goBack steps (i + 1) i

/-- What the state at a time is made of.  A step that has not completed sends the search back. -/
def getBeforeOrAt (s : Steps T) (time : Time T) : Except Unit BeforeStatus :=
  let lookAt (i : ℕ) : Except Unit BeforeStatus :=
    match s.steps[i]? with
    | none => .error ()
    | some x =>
        if x.step.isSaturated then .ok (.saturatedImmediate i) else goBackFrom s.steps i
  match binarySearchByKey getTime s.steps time with
  | .ok i => lookAt i
  | .error (i + 1) => lookAt i
  | .error 0 => .error ()

variable {s : Steps T} {steps : List (StepWrapper T)} {r : BeforeStatus} {time : Time T}

/-- The last step between the first one and a place that is not unsaturated. -/
structure LastBetween (steps : List (StepWrapper T)) (p j : ℕ) (y : StepWrapper T) : Prop where
  get : steps[j]? = some y
  pos : 0 < j
  lt : j < p
  notUnsaturated : y.step.isUnsaturated = false
  after : ∀ k z, j < k → k < p → steps[k]? = some z → z.step.isUnsaturated = true

/-- What is found when the last step before or at the time is the one at a place. -/
inductive Finds (steps : List (StepWrapper T)) (p : ℕ) (x : StepWrapper T) :
    BeforeStatus → Prop where
  | immediate (h : x.step.isSaturated = true) : Finds steps p x (.saturatedImmediate p)
  | distant {j : ℕ} {y : StepWrapper T} (h : x.step.isSaturated = false)
      (hy : LastBetween steps p j y) (hsat : y.step.isSaturating = false) :
      Finds steps p x (.saturatedDistant j (j + 1))
  | saturating {j : ℕ} {y : StepWrapper T} (h : x.step.isSaturated = false)
      (hy : LastBetween steps p j y) (hsat : y.step.isSaturating = true) :
      Finds steps p x (.saturating j)

/-- There is only one last step. -/
theorem LastBetween.unique {p j j' : ℕ} {y y' : StepWrapper T} (h : LastBetween steps p j y)
    (h' : LastBetween steps p j' y') : j = j' ∧ y = y' := by
  have hle : ∀ {j j' : ℕ} {y y' : StepWrapper T}, LastBetween steps p j y →
      LastBetween steps p j' y' → j' ≤ j := by
    intro j j' y y' h h'
    by_contra hlt
    have hu := h.after j' y' (not_le.mp hlt) h'.lt h'.get
    rw [h'.notUnsaturated] at hu
    cases hu
  obtain rfl : j = j' := le_antisymm (hle h' h) (hle h h')
  exact ⟨rfl, Option.some.inj (h.get.symm.trans h'.get)⟩

/-- **The loop** finds the last step that is not unsaturated, as long as that is not the first. -/
theorem goBack_ok {p i : ℕ} (hp : p ≤ steps.length) (hi : i < p)
    (hbetween : ∀ k z, i < k → k < p → steps[k]? = some z → z.step.isUnsaturated = true) :
    goBack steps (i + 1) i = .ok r ↔ ∃ j y, LastBetween steps p j y ∧
      r = if y.step.isSaturating then .saturating j else .saturatedDistant j (j + 1) := by
  induction i with
  | zero =>
    refine iff_of_false nofun ?_
    rintro ⟨j, y, hy, -⟩
    have hu := hbetween j y hy.pos hy.lt hy.get
    rw [hy.notUnsaturated] at hu
    cases hu
  | succ i ih =>
    have hget := List.getElem?_eq_getElem (show i + 1 < steps.length by omega)
    simp only [goBack, hget]
    by_cases hu : (steps[i + 1]).step.isUnsaturated = true
    · rw [if_pos hu]
      refine ih (by omega) fun k z hk hkp hz => ?_
      rcases (Nat.succ_le_of_lt hk).lt_or_eq with hlt | rfl
      · exact hbetween k z hlt hkp hz
      · rw [hget, Option.some.injEq] at hz
        exact hz ▸ hu
    · have hlast : LastBetween steps p (i + 1) steps[i + 1] :=
        ⟨hget, Nat.succ_pos i, hi, Bool.eq_false_iff.mpr hu, hbetween⟩
      rw [if_neg hu]
      constructor
      · intro h
        refine ⟨i + 1, _, hlast, ?_⟩
        split at h
        · rename_i hsat
          rw [if_pos hsat]
          exact (Except.ok.inj h).symm
        · rename_i hsat
          rw [if_neg hsat]
          exact (Except.ok.inj h).symm
      · rintro ⟨j, y, hy, rfl⟩
        obtain ⟨rfl, rfl⟩ := hlast.unique hy
        split <;> rfl

/-- What the lookup does with the last step before or at the time. -/
theorem getBeforeOrAt_of_latest (hsorted : SortedBy getTime s.steps) {p : ℕ} {x : StepWrapper T}
    (hx : Latest getTime s.steps time p x) :
    s.getBeforeOrAt time = .ok r ↔ Finds s.steps p x r := by
  have hlookup : s.getBeforeOrAt time =
      if x.step.isSaturated then .ok (.saturatedImmediate p) else goBackFrom s.steps p := by
    unfold getBeforeOrAt
    cases hb : binarySearchByKey getTime s.steps time with
    | ok i =>
      obtain ⟨y, hy⟩ := binarySearchByKey_latest hsorted (Or.inl hb)
      obtain ⟨rfl, rfl⟩ := hy.unique hx
      simp only [hx.get]
    | error i =>
      cases i with
      | zero =>
        have hafter := binarySearchByKey_none hsorted hb x (List.mem_of_getElem? hx.get)
        exact absurd hx.le (not_le.mpr hafter)
      | succ i =>
        obtain ⟨y, hy⟩ := binarySearchByKey_latest hsorted (Or.inr hb)
        obtain ⟨rfl, rfl⟩ := hy.unique hx
        simp only [hx.get]
  rw [hlookup]
  by_cases hsat : x.step.isSaturated = true
  · rw [if_pos hsat, Except.ok.injEq]
    constructor
    · rintro rfl
      exact .immediate hsat
    · intro h
      cases h with
      | immediate _ => rfl
      | distant h _ _ => rw [hsat] at h; cases h
      | saturating h _ _ => rw [hsat] at h; cases h
  · rw [if_neg hsat]
    have hfalse := Bool.eq_false_iff.mpr hsat
    have hfinds : Finds s.steps p x r ↔ ∃ j y, LastBetween s.steps p j y ∧
        r = if y.step.isSaturating then .saturating j else .saturatedDistant j (j + 1) := by
      constructor
      · intro h
        cases h with
        | immediate h => exact absurd h hsat
        | distant _ hy hsat => exact ⟨_, _, hy, by rw [hsat]; rfl⟩
        | saturating _ hy hsat => exact ⟨_, _, hy, by rw [hsat]; rfl⟩
      · rintro ⟨j, y, hy, rfl⟩
        split
        · rename_i hs
          exact .saturating hfalse hy hs
        · rename_i hs
          exact .distant hfalse hy (Bool.eq_false_iff.mpr hs)
    rw [hfinds]
    cases p with
    | zero =>
      refine iff_of_false nofun ?_
      rintro ⟨j, y, hy, -⟩
      exact absurd hy.lt (Nat.not_lt_zero j)
    | succ i =>
      have hp := (List.getElem?_eq_some_iff.mp hx.get).1
      exact goBack_ok hp.le (Nat.lt_succ_self i) fun k z hk hkp => by omega

end Steps

/-- **What the lookup finds**: the last step before or at the time if it is saturated, and else the
    last one before it that is not unsaturated, unless that is the first step of the deque. -/
theorem get_before_or_at_finds {s : Steps T} {time : Time T} {r : BeforeStatus}
    (hsorted : SortedBy Steps.getTime s.steps) : s.getBeforeOrAt time = .ok r ↔
      ∃ p x, Latest Steps.getTime s.steps time p x ∧ Steps.Finds s.steps p x r := by
  constructor
  · intro h
    obtain ⟨p, x, hx⟩ : ∃ p x, Latest Steps.getTime s.steps time p x := by
      cases hb : binarySearchByKey Steps.getTime s.steps time with
      | ok i => exact ⟨i, binarySearchByKey_latest hsorted (Or.inl hb)⟩
      | error i =>
        cases i with
        | zero =>
          unfold Steps.getBeforeOrAt at h
          rw [hb] at h
          cases h
        | succ i => exact ⟨i, binarySearchByKey_latest hsorted (Or.inr hb)⟩
    exact ⟨p, x, hx, (Steps.getBeforeOrAt_of_latest hsorted hx).mp h⟩
  · rintro ⟨p, x, hx, hfinds⟩
    exact (Steps.getBeforeOrAt_of_latest hsorted hx).mpr hfinds

/-- Two saturated steps, and two later ones that are not. -/
def scriptSteps : Steps Script where
  steps :=
    let step (time : ℕ) (status : StepStatus Script) : StepWrapper Script :=
      ⟨⟨.init time, status, 0, false, 0, none⟩, none⟩
    let done : StepStatus Script := .saturated ⟨⟨[], [], [], 0⟩, .new () (0 : ℕ)⟩
    [step 0 done, step 1 done, step 3 .unsaturated, step 4 .unsaturated]
  numDeletedSteps := 0

/-- The second one is found. -/
theorem get_before_or_at_finds_script :
    scriptSteps.getBeforeOrAt (5 : ℕ) = .ok (.saturatedDistant 1 2) := by
  have hsorted : SortedBy Steps.getTime scriptSteps.steps := by
    unfold SortedBy
    exact of_decide_eq_true rfl
  refine (get_before_or_at_finds hsorted).mpr ⟨3, _, ⟨rfl, ?_, ?_⟩, ?_⟩
  · show (4 : ℕ) ≤ 5
    decide
  · intro j y hj hy
    have hlength := (List.getElem?_eq_some_iff.mp hy).1
    change j < 4 at hlength
    omega
  · refine .distant rfl ⟨rfl, by decide, by decide, rfl, ?_⟩ rfl
    intro k z hk hk' hz
    obtain rfl : k = 2 := by omega
    cases hz
    rfl

end Cozal.Transpose
