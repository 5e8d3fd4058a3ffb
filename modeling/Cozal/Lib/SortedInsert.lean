import Mathlib.Data.List.Forall2
import Mathlib.Data.List.InsertIdx
import Mathlib.Data.List.Pairwise
import Mathlib.Data.List.TakeWhile
import Mathlib.Order.Antisymmetrization

namespace Cozal

/-!
# Inserting into a sorted list

`partitionPoint` finds the end of the elements that meet a predicate, in a list in which they
come first.  Of a binary search only this result is documented, so this is its definition.

* `insertIdx_partitionPoint` — what is inserted there comes between the two parts.
* `insertDescending` — insert before the first element that is not greater; it keeps a list
  without ascents (`Descending.insertDescending`), and it only searches partitioned lists
  (`Descending.partitioned`).
* `stablySorted_iff` — when inserting so one element after the other sorts them.
* `forall₂_of_perm` — two lists of the same elements without ascents are alike.
-/

variable {α : Type}

/-! ### Partitioned lists -/

/-- The number of the elements in front that meet the predicate. -/
def partitionPoint (p : α → Bool) (l : List α) : ℕ := (l.takeWhile p).length

/-- The elements that meet the predicate come first. -/
def Partitioned (p : α → Bool) (l : List α) : Prop :=
  l.Pairwise (fun a b => p b = true → p a = true)

/-- What is inserted at the partition point comes between the two parts. -/
theorem insertIdx_partitionPoint (p : α → Bool) (l : List α) (a : α) :
    l.insertIdx (partitionPoint p l) a = l.takeWhile p ++ a :: l.dropWhile p := by
  induction l with
  | nil => rfl
  | cons x rest ih =>
    unfold partitionPoint at ih ⊢
    by_cases hx : p x = true
    · rw [List.takeWhile_cons_of_pos hx, List.dropWhile_cons_of_pos hx, List.length_cons,
        List.insertIdx_succ_cons, ih, List.cons_append]
    · rw [List.takeWhile_cons_of_neg hx, List.dropWhile_cons_of_neg hx]
      rfl

/-- The elements after the partition point do not meet the predicate. -/
theorem Partitioned.dropWhile {p : α → Bool} {l : List α} (h : Partitioned p l) :
    ∀ a ∈ l.dropWhile p, p a = false := by
  induction l with
  | nil => simp
  | cons x rest ih =>
    obtain ⟨hx, hrest⟩ := List.pairwise_cons.mp h
    by_cases hp : p x = true
    · rw [List.dropWhile_cons_of_pos hp]
      exact ih hrest
    · rw [List.dropWhile_cons_of_neg hp]
      intro a ha
      rcases List.mem_cons.mp ha with rfl | ha
      · exact Bool.eq_false_iff.mpr hp
      · exact Bool.eq_false_iff.mpr fun hpa => hp (hx a ha hpa)

/-! ### Lists without ascents -/

section Compare

variable {cmp : α → α → Ordering}

/-- No element is less than a later one. -/
def Descending (cmp : α → α → Ordering) (l : List α) : Prop :=
  l.Pairwise (fun a b => (cmp a b).isGE = true)

/-- The empty list is in order. -/
theorem Descending.nil : Descending cmp [] := List.Pairwise.nil

/-- Insert an element after those that are greater. -/
def insertDescending (cmp : α → α → Ordering) (l : List α) (a : α) : List α :=
  l.insertIdx (partitionPoint (fun b => (cmp a b).isLT) l) a

/-- Inserting adds the element. -/
theorem insertDescending_perm (l : List α) (a : α) :
    (insertDescending cmp l a).Perm (a :: l) := by
  rw [insertDescending, insertIdx_partitionPoint]
  refine List.perm_middle.trans ?_
  rw [List.takeWhile_append_dropWhile]

/-- An element that is greater than none goes to the front. -/
theorem insertDescending_front {l : List α} {a : α} (h : ∀ b ∈ l, (cmp a b).isLT = false) :
    insertDescending cmp l a = a :: l := by
  cases l with
  | nil => rfl
  | cons x rest =>
    have hx : ¬ (cmp a x).isLT = true := by
      rw [h x List.mem_cons_self]
      exact Bool.false_ne_true
    rw [insertDescending, insertIdx_partitionPoint,
      List.takeWhile_cons_of_neg (p := fun b => (cmp a b).isLT) hx,
      List.dropWhile_cons_of_neg (p := fun b => (cmp a b).isLT) hx]
    rfl

variable [Std.TransCmp cmp]

/-- The greater elements of a list without ascents come first, so the search is one for which
    its result is documented. -/
theorem Descending.partitioned {l : List α} (h : Descending cmp l) (a : α) :
    Partitioned (fun b => (cmp a b).isLT) l := by
  refine h.imp ?_
  intro x y hxy hy
  rw [Ordering.isLT_iff_eq_lt] at hy ⊢
  exact Std.TransCmp.lt_of_lt_of_isLE hy (Std.OrientedCmp.isLE_of_isGE hxy)

/-- Inserting keeps the order. -/
theorem Descending.insertDescending {l : List α} (h : Descending cmp l) (a : α) :
    Descending cmp (insertDescending cmp l a) := by
  rw [Cozal.insertDescending, insertIdx_partitionPoint]
  have hl : Descending cmp (l.takeWhile (fun b => (cmp a b).isLT)
      ++ l.dropWhile (fun b => (cmp a b).isLT)) := by
    rw [List.takeWhile_append_dropWhile]
    exact h
  obtain ⟨hfront, hback, hacross⟩ := List.pairwise_append.mp hl
  refine List.pairwise_append.mpr ⟨hfront, List.pairwise_cons.mpr ⟨?_, hback⟩, ?_⟩
  · intro b hb
    have hnot := (h.partitioned a).dropWhile b hb
    cases hcmp : cmp a b <;> simp_all
  · intro b hb c hc
    have hlt := List.mem_takeWhile_imp hb
    rw [Ordering.isLT_iff_eq_lt] at hlt
    rcases List.mem_cons.mp hc with rfl | hc
    · have hswap : cmp b c = (cmp c b).swap := Std.OrientedCmp.eq_swap
      rw [hswap, hlt]
      rfl
    · exact hacross b hb c hc

/-! ### Inserting one element after the other -/

omit [Std.TransCmp cmp] in
/-- Inserting one after the other adds all of them. -/
theorem foldl_insertDescending_perm (added l : List α) :
    (added.foldl (insertDescending cmp) l).Perm (added ++ l) := by
  induction added generalizing l with
  | nil => exact .refl l
  | cons a added ih =>
    refine (ih _).trans ?_
    exact ((insertDescending_perm l a).append_left added).trans List.perm_middle

/-- Inserting one after the other keeps the order. -/
theorem Descending.foldl_insertDescending {l : List α} (h : Descending cmp l) (added : List α) :
    Descending cmp (added.foldl (Cozal.insertDescending cmp) l) :=
  List.foldlRecOn added _ h fun _ hl a _ => hl.insertDescending a

omit [Std.TransCmp cmp] in
/-- Elements that compare equal go to the front one after the other. -/
theorem foldl_insertDescending_equal {added l : List α}
    (h : ∀ a ∈ added, ∀ b ∈ added ++ l, cmp a b = .eq) :
    added.foldl (insertDescending cmp) l = added.reverse ++ l := by
  induction added generalizing l with
  | nil => rfl
  | cons a added ih =>
    have hfront : insertDescending cmp l a = a :: l := by
      refine insertDescending_front ?_
      intro b hb
      rw [h a List.mem_cons_self b (List.mem_append_right _ hb)]
      rfl
    rw [List.foldl_cons, hfront, ih, List.reverse_cons, List.append_assoc, List.singleton_append]
    intro b hb c hc
    refine h b (List.mem_cons_of_mem _ hb) c ?_
    rw [List.mem_append, List.mem_cons] at hc ⊢
    rcases hc with hc | rfl | hc
    · exact Or.inl (Or.inr hc)
    · exact Or.inl (Or.inl rfl)
    · exact Or.inr hc

/-- The elements do not descend, and those that compare equal stand in the order in which they
    have been added. -/
def StablySorted (cmp : α → α → Ordering) (added l : List α) : Prop :=
  l.Pairwise (fun a b => (cmp a b).isLE = true) ∧
    ∀ a, l.filter (fun b => cmp a b = .eq) = added.filter (fun b => cmp a b = .eq)

/-- A list that neither ascends nor descends has elements that compare equal. -/
theorem Descending.equal {l : List α} (h : Descending cmp l)
    (hasc : l.Pairwise (fun a b => (cmp a b).isLE = true)) :
    ∀ a ∈ l, ∀ b ∈ l, cmp a b = .eq := by
  have hpair : l.Pairwise (fun a b => cmp a b = .eq) := by
    refine (h.and hasc).imp ?_
    rintro a b ⟨hge, hle⟩
    exact Std.OrientedCmp.isGE_antisymm hge (Std.OrientedCmp.isGE_of_isLE hle)
  have hsymm : Std.Symm (fun a b => cmp a b = .eq) := ⟨fun _ _ => Std.OrientedCmp.eq_symm⟩
  exact fun a ha b hb => List.Pairwise.forall_of_forall (fun _ _ => Std.ReflCmp.compare_self)
    hpair ha hb

/-- **When such insertions sort:** when all the elements compare equal and stand in the same order
    backwards. -/
theorem stablySorted_iff (added : List α) :
    StablySorted cmp added (added.foldl (insertDescending cmp) []) ↔
      (∀ a ∈ added, ∀ b ∈ added, cmp a b = .eq) ∧ added.reverse = added := by
  have hperm : (added.foldl (insertDescending cmp) []).Perm added := by
    simpa using foldl_insertDescending_perm added []
  constructor
  · rintro ⟨hasc, hstable⟩
    have hequal : ∀ a ∈ added, ∀ b ∈ added, cmp a b = .eq := by
      have hall := (Descending.nil.foldl_insertDescending added).equal hasc
      exact fun a ha b hb => hall a (hperm.mem_iff.mpr ha) b (hperm.mem_iff.mpr hb)
    refine ⟨hequal, ?_⟩
    have hfold := foldl_insertDescending_equal (l := []) (by simpa using hequal)
    rw [List.append_nil] at hfold
    rw [hfold] at hstable
    cases hadded : added with
    | nil => rfl
    | cons a rest =>
      -- the elements that compare equal to the first are all of them
      have hmem : a ∈ added := by simp [hadded]
      have hself : ∀ l : List α, (∀ b ∈ l, b ∈ added) → l.filter (fun b => cmp a b = .eq) = l := by
        intro l hl
        refine List.filter_eq_self.mpr fun b hb => ?_
        rw [hequal a hmem b (hl b hb)]
        rfl
      have hrev := hstable a
      rw [hself _ (by simp), hself _ (fun b hb => hb)] at hrev
      rw [← hadded]
      exact hrev
  · rintro ⟨hequal, hrev⟩
    have hfold := foldl_insertDescending_equal (l := []) (by simpa using hequal)
    rw [List.append_nil, hrev] at hfold
    rw [hfold]
    refine ⟨?_, fun a => rfl⟩
    refine List.pairwise_of_forall_mem_list fun a ha b hb => ?_
    rw [hequal a ha b hb]
    rfl

end Compare

/-! ### Lists of the same elements -/

/-- Two lists of the same elements, both sorted by a preorder, are alike: at each place stand
    elements that are related both ways. -/
theorem forall₂_of_perm {r : α → α → Prop} (hrefl : ∀ a, r a a)
    (htrans : ∀ a b c, r a b → r b c → r a c) {l l' : List α} (hl : l.Pairwise r)
    (hl' : l'.Pairwise r) (h : l.Perm l') : List.Forall₂ (fun a b => r a b ∧ r b a) l l' := by
  let _ : Preorder α := { le := r, le_refl := hrefl, le_trans := htrans }
  -- up to elements that are related both ways the preorder is an order
  let f : α → Antisymmetrization α (· ≤ ·) := toAntisymmetrization (· ≤ ·)
  have hsorted : ∀ {l : List α}, l.Pairwise r → (l.map f).Pairwise (· ≤ ·) :=
    fun h => h.map f fun _ _ hab => hab
  have heq : l.map f = l'.map f  :=
    (h.map f).eq_of_pairwise (fun _ _ _ _ => le_antisymm) (hsorted hl) (hsorted hl')
  have hforall : List.Forall₂ (· = ·) (l.map f) (l'.map f) := by
    rw [heq]
    exact List.forall₂_refl _
  rw [List.forall₂_map_left_iff, List.forall₂_map_right_iff] at hforall
  exact hforall.imp fun a b hab => Quotient.exact hab

end Cozal
