import Mathlib.Data.List.Pairwise
import Mathlib.Order.Compare

namespace Cozal

/-!
# Sets ordered by a comparison

A set whose elements are told apart by a comparison only: of the elements that compare equal it
holds one, the one that was inserted first.

* `CmpSet` — the elements, each less than the next.
* `CmpSet.insert`, `CmpSet.first`, `CmpSet.popFirst`, `CmpSet.splitOff` — the operations.
* `insert_of_eq`, `insert_perm` — an insertion adds the element unless one that compares equal is
  there.
* `first_lt` — the first element is less than every other.
-/

variable {V : Type}

/-- The elements, each less than the next. -/
structure CmpSet (cmp : V → V → Ordering) where
  items : List V
  sorted : items.Pairwise (fun a b => cmp a b = .lt)

namespace CmpSet

variable {cmp : V → V → Ordering}

/-- The set without items. -/
def empty : CmpSet cmp := ⟨[], List.Pairwise.nil⟩

/-- The element goes before the first that is greater; one that compares equal stays in its
    place. -/
def insertItem (cmp : V → V → Ordering) (a : V) : List V → List V
  | [] => [a]
  | b :: rest =>
    match cmp a b with
    | .lt => a :: b :: rest
    | .eq => b :: rest
    | .gt => b :: insertItem cmp a rest

/-- What is inserted, and what was there. -/
theorem mem_of_mem_insertItem {a c : V} {l : List V} (h : c ∈ insertItem cmp a l) :
    c = a ∨ c ∈ l := by
  induction l with
  | nil => exact .inl (List.mem_singleton.mp h)
  | cons b rest ih =>
    rw [insertItem] at h
    split at h
    · exact List.mem_cons.mp h
    · exact .inr h
    · rcases List.mem_cons.mp h with rfl | hrest
      · exact .inr List.mem_cons_self
      · exact (ih hrest).imp_right (List.mem_cons_of_mem _)

/-- Inserting an item keeps the list in order. -/
theorem insertItem_sorted [Std.TransCmp cmp] {a : V} {l : List V}
    (h : l.Pairwise (fun a b => cmp a b = .lt)) :
    (insertItem cmp a l).Pairwise (fun a b => cmp a b = .lt) := by
  induction l with
  | nil => exact List.pairwise_singleton _ a
  | cons b rest ih =>
    obtain ⟨hb, hrest⟩ := List.pairwise_cons.mp h
    rw [insertItem]
    split
    · rename_i hlt
      refine List.pairwise_cons.mpr ⟨?_, h⟩
      intro c hc
      rcases List.mem_cons.mp hc with rfl | hmem
      · exact hlt
      · exact Std.TransCmp.lt_trans hlt (hb c hmem)
    · exact h
    · rename_i hgt
      refine List.pairwise_cons.mpr ⟨?_, ih hrest⟩
      intro c hc
      rcases mem_of_mem_insertItem hc with rfl | hmem
      · exact Std.OrientedCmp.lt_of_gt hgt
      · exact hb c hmem

/-- An element that no other compares equal to is added to them. -/
theorem insertItem_perm {a : V} {l : List V} (h : ∀ b ∈ l, cmp a b ≠ .eq) :
    (insertItem cmp a l).Perm (a :: l) := by
  induction l with
  | nil => exact List.Perm.refl _
  | cons b rest ih =>
    rw [insertItem]
    split
    · exact List.Perm.refl _
    · rename_i heq
      exact absurd heq (h b List.mem_cons_self)
    · have hrest := ih (fun c hc => h c (List.mem_cons_of_mem _ hc))
      exact (hrest.cons b).trans (List.Perm.swap a b rest)

/-- An element that another compares equal to changes nothing. -/
theorem insertItem_of_eq [Std.TransCmp cmp] {a b : V} {l : List V}
    (h : l.Pairwise (fun a b => cmp a b = .lt)) (hmem : b ∈ l) (heq : cmp a b = .eq) :
    insertItem cmp a l = l := by
  induction l with
  | nil => cases hmem
  | cons c rest ih =>
    obtain ⟨hc, hrest⟩ := List.pairwise_cons.mp h
    rw [insertItem]
    rcases List.mem_cons.mp hmem with rfl | hmem
    · rw [heq]
    · have hgt : cmp a c = .gt :=
        Std.TransCmp.gt_of_eq_of_gt heq (Std.OrientedCmp.gt_of_lt (hc b hmem))
      rw [hgt, ih hrest hmem]

/-- Insert an item, unless one that compares equal is there. -/
def insert [Std.TransCmp cmp] (s : CmpSet cmp) (a : V) : CmpSet cmp :=
  ⟨insertItem cmp a s.items, insertItem_sorted s.sorted⟩

/-- The first item of the order. -/
def first (s : CmpSet cmp) : Option V := s.items.head?

/-- Take the first item out. -/
def popFirst (s : CmpSet cmp) : Option (V × CmpSet cmp) :=
  match h : s.items with
  | [] => none
  | a :: rest => some (a, ⟨rest, (List.pairwise_cons.mp (h ▸ s.sorted)).2⟩)

/-- What stays when the elements from the key on are split off. -/
def splitOff (s : CmpSet cmp) (key : V) : CmpSet cmp :=
  ⟨s.items.filter (fun a => cmp a key = .lt), s.sorted.filter _⟩

/-- An item that compares equal to no other is added to the items. -/
theorem insert_perm [Std.TransCmp cmp] {s : CmpSet cmp} {a : V}
    (h : ∀ b ∈ s.items, cmp a b ≠ .eq) : (s.insert a).items.Perm (a :: s.items) :=
  insertItem_perm h

/-- An item that compares equal to a stored one is not added. -/
theorem insert_of_eq [Std.TransCmp cmp] {s : CmpSet cmp} {a b : V} (hmem : b ∈ s.items)
    (heq : cmp a b = .eq) : (s.insert a).items = s.items :=
  insertItem_of_eq s.sorted hmem heq

/-- The first item and the rest, in order. -/
theorem popFirst_eq_some {s s' : CmpSet cmp} {a : V} :
    s.popFirst = some (a, s') ↔ s.items = a :: s'.items := by
  obtain ⟨l, hl⟩ := s
  obtain ⟨l', hl'⟩ := s'
  cases l with
  | nil => simp [popFirst]
  | cons b rest => simp [popFirst]

/-- What is left of a set when its first element is taken out is a set. -/
theorem first_eq_some {s : CmpSet cmp} {a : V} :
    s.first = some a ↔ ∃ rest : CmpSet cmp, s.items = a :: rest.items := by
  obtain ⟨l, hl⟩ := s
  cases l with
  | nil => simp [first]
  | cons b rest =>
    constructor
    · intro h
      cases h
      exact ⟨⟨rest, (List.pairwise_cons.mp hl).2⟩, rfl⟩
    · rintro ⟨rest', h⟩
      cases h
      rfl

/-- The first element is less than every other. -/
theorem first_lt {s : CmpSet cmp} {a b : V} {rest : List V} (h : s.items = a :: rest)
    (hmem : b ∈ rest) : cmp a b = .lt := by
  have hsorted := s.sorted
  rw [h] at hsorted
  exact (List.pairwise_cons.mp hsorted).1 b hmem

/-- Splitting off keeps what comes before the key. -/
theorem mem_splitOff {s : CmpSet cmp} {key a : V} :
    a ∈ (s.splitOff key).items ↔ a ∈ s.items ∧ cmp a key = .lt := by
  simp [splitOff]

end CmpSet

end Cozal
