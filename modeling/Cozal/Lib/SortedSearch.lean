import Mathlib.Data.List.Pairwise
import Mathlib.Data.List.TakeWhile
import Mathlib.Order.Lattice
import Mathlib.Tactic.Common

namespace Cozal

/-!
# Searching a sorted list

`binarySearchByKey` finds the element of a key in a list that is sorted by its keys, or the
place such an element would have.  Of a binary search only this result is documented, so this
is its definition.

* `Latest` — the last element whose key is not above a bound.
* `binarySearchByKey_latest` — the search finds it, at its place or one before the place of an
  element that is missing; `binarySearchByKey_none` — or there is none.
-/

variable {α β : Type} [LinearOrder β] {key : α → β} {l : List α} {b : β}

/-- The place of the key `b`, as `Ok` of the element of that key or `Err` of where it would
    be. -/
def binarySearchByKey (key : α → β) (l : List α) (b : β) : Except ℕ ℕ :=
  let i := (l.takeWhile (fun x => decide (key x < b))).length
  match l[i]? with
  | some x => if key x = b then .ok i else .error i
  | none => .error i

/-- The keys of the list increase. -/
def SortedBy (key : α → β) (l : List α) : Prop := l.Pairwise (fun x y => key x < key y)

/-- The element at `i` is the last one whose key is not above `b`. -/
structure Latest (key : α → β) (l : List α) (b : β) (i : ℕ) (x : α) : Prop where
  get : l[i]? = some x
  le : key x ≤ b
  after : ∀ j y, i < j → l[j]? = some y → b < key y

/-- In order by the key means that the keys increase with the index. -/
theorem sortedBy_iff : SortedBy key l ↔
    ∀ (i j : ℕ) (x y : α), l[i]? = some x → l[j]? = some y → i < j → key x < key y := by
  rw [SortedBy, List.pairwise_iff_getElem]
  constructor
  · intro h i j x y hx hy hij
    obtain ⟨hi, rfl⟩ := List.getElem?_eq_some_iff.mp hx
    obtain ⟨hj, rfl⟩ := List.getElem?_eq_some_iff.mp hy
    exact h i j hi hj hij
  · intro h i j hi hj hij
    exact h i j _ _ (List.getElem?_eq_getElem hi) (List.getElem?_eq_getElem hj) hij

/-- An earlier element has the smaller key. -/
theorem SortedBy.lt {i j : ℕ} {x y : α} (h : SortedBy key l) (hx : l[i]? = some x)
    (hy : l[j]? = some y) (hij : i < j) : key x < key y :=
  sortedBy_iff.mp h i j x y hx hy hij

/-- An element whose key is not above `b` is the last one when the next one's is. -/
theorem SortedBy.latest {i : ℕ} {x : α} (h : SortedBy key l) (hx : l[i]? = some x)
    (hle : key x ≤ b) (hnext : ∀ y, l[i + 1]? = some y → b < key y) : Latest key l b i x := by
  refine ⟨hx, hle, ?_⟩
  intro j y hij hy
  rcases (Nat.succ_le_of_lt hij).lt_or_eq with hlt | heq
  · have hj := (List.getElem?_eq_some_iff.mp hy).1
    have hz := List.getElem?_eq_getElem (show i + 1 < l.length by omega)
    exact (hnext _ hz).trans (h.lt hz hy (by omega))
  · subst heq
    exact hnext y hy

/-- There is one last element whose key is not above `b`. -/
theorem Latest.unique {i j : ℕ} {x y : α} (h : Latest key l b i x) (h' : Latest key l b j y) :
    i = j ∧ x = y := by
  have hij : i = j := by
    rcases lt_trichotomy i j with hlt | heq | hgt
    · exact absurd (h.after j y hlt h'.get) (not_lt.mpr h'.le)
    · exact heq
    · exact absurd (h'.after i x hgt h.get) (not_lt.mpr h.le)
  subst hij
  have hx := h.get
  rw [h'.get, Option.some.injEq] at hx
  exact ⟨rfl, hx.symm⟩

/-- The last element of all, when its key is not above `b`. -/
theorem Latest.of_last {i : ℕ} {x : α} (hx : l[i]? = some x) (hi : i + 1 = l.length)
    (hle : key x ≤ b) : Latest key l b i x := by
  refine ⟨hx, hle, ?_⟩
  intro j y hij hy
  have hj := (List.getElem?_eq_some_iff.mp hy).1
  omega

/-- When the last element is within the bound, it is the latest one. -/
theorem Latest.eq_last {i : ℕ} {x y : α} (h : Latest key l b i x)
    (hy : l[l.length - 1]? = some y) (hle : key y ≤ b) : i = l.length - 1 ∧ x = y := by
  have hi := (List.getElem?_eq_some_iff.mp h.get).1
  exact h.unique (.of_last hy (by omega) hle)

/-- The elements before the place of `b` have smaller keys, those from there on have not. -/
theorem takeWhile_place (h : SortedBy key l) :
    let i := (l.takeWhile (fun x => decide (key x < b))).length
    (∀ j y, j < i → l[j]? = some y → key y < b) ∧ ∀ j y, i ≤ j → l[j]? = some y → b ≤ key y := by
  induction l with
  | nil => simp
  | cons x rest ih =>
    obtain ⟨hx, hrest⟩ := List.pairwise_cons.mp h
    obtain ⟨hbefore, hafter⟩ := ih hrest
    by_cases hlt : key x < b
    · simp only [List.takeWhile_cons, hlt, decide_true, if_true, List.length_cons]
      constructor
      · intro j y hj hy
        cases j with
        | zero =>
          rw [List.getElem?_cons_zero, Option.some.injEq] at hy
          exact hy ▸ hlt
        | succ j =>
          rw [List.getElem?_cons_succ] at hy
          exact hbefore j y (by omega) hy
      · intro j y hj hy
        cases j with
        | zero => omega
        | succ j =>
          rw [List.getElem?_cons_succ] at hy
          exact hafter j y (by omega) hy
    · simp only [List.takeWhile_cons, hlt, decide_false, Bool.false_eq_true, if_false,
        List.length_nil]
      refine ⟨by intro j y hj; omega, ?_⟩
      intro j y _ hy
      cases j with
      | zero =>
        rw [List.getElem?_cons_zero, Option.some.injEq] at hy
        exact hy ▸ not_lt.mp hlt
      | succ j =>
        rw [List.getElem?_cons_succ] at hy
        exact (not_lt.mp hlt).trans (hx y (List.mem_of_getElem? hy)).le

/-- An element that is found has the key. -/
theorem binarySearchByKey_ok (h : SortedBy key l) {i : ℕ}
    (hi : binarySearchByKey key l b = .ok i) : ∃ x, key x = b ∧ Latest key l b i x := by
  simp only [binarySearchByKey] at hi
  split at hi
  · rename_i x hx
    split at hi
    · rename_i heq
      cases hi
      refine ⟨x, heq, hx, heq.le, ?_⟩
      intro j y hj hy
      exact heq ▸ h.lt hx hy hj
    · cases hi
  · cases hi

/-- A place that is found for a missing key lies between the smaller and the greater keys. -/
theorem binarySearchByKey_error (h : SortedBy key l) {i : ℕ}
    (hi : binarySearchByKey key l b = .error i) :
    i ≤ l.length ∧ (∀ j y, j < i → l[j]? = some y → key y < b) ∧
      ∀ j y, i ≤ j → l[j]? = some y → b < key y := by
  obtain ⟨hbefore, hafter⟩ := takeWhile_place (b := b) h
  have hlen := (List.takeWhile_prefix (l := l) (fun x => decide (key x < b))).length_le
  simp only [binarySearchByKey] at hi
  split at hi
  · rename_i x hx
    split at hi
    · cases hi
    · rename_i hne
      cases hi
      refine ⟨hlen, hbefore, ?_⟩
      intro j y hj hy
      rcases hj.lt_or_eq with hlt | rfl
      · exact lt_of_le_of_lt (hafter _ x le_rfl hx) (h.lt hx hy hlt)
      · rw [hx, Option.some.injEq] at hy
        subst hy
        exact lt_of_le_of_ne (hafter _ x le_rfl hx) (Ne.symm hne)
  · rename_i hnone
    cases hi
    refine ⟨hlen, hbefore, ?_⟩
    intro j y hj hy
    rw [List.getElem?_eq_none_iff] at hnone
    have hj' := (List.getElem?_eq_some_iff.mp hy).1
    omega

/-- The index found for a key, or the one before the place of a missing key, is that of the
    last element not above it. -/
theorem binarySearchByKey_latest (h : SortedBy key l) {i : ℕ}
    (hi : binarySearchByKey key l b = .ok i ∨ binarySearchByKey key l b = .error (i + 1)) :
    ∃ x, Latest key l b i x := by
  rcases hi with hi | hi
  · obtain ⟨x, -, hx⟩ := binarySearchByKey_ok h hi
    exact ⟨x, hx⟩
  · obtain ⟨hlen, hbefore, hafter⟩ := binarySearchByKey_error h hi
    have hx : l[i]? = some l[i] := List.getElem?_eq_getElem (by omega)
    exact ⟨l[i], hx, (hbefore i _ (by omega) hx).le, fun j y hj => hafter j y (by omega)⟩

/-- When a missing key has its place at the front, every key is above it. -/
theorem binarySearchByKey_none (h : SortedBy key l)
    (hi : binarySearchByKey key l b = .error 0) : ∀ y ∈ l, b < key y := by
  obtain ⟨-, -, hafter⟩ := binarySearchByKey_error h hi
  intro y hy
  obtain ⟨j, hj⟩ := List.getElem?_of_mem hy
  exact hafter j y (Nat.zero_le j) hj

end Cozal
