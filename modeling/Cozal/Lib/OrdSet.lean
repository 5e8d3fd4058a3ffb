import Mathlib.Data.Finset.Max
import Mathlib.Data.Prod.Lex

namespace Cozal

/-!
# Ordered sets

The reading operations of a `BTreeSet`, over `Finset`: its first and last element, and the
element of the least key.

* `OrdSet.first_eq_some`, `OrdSet.last_eq_some` — they are the least and the greatest element.
* `OrdSet.minByKey_mem`, `OrdSet.minByKey_le` — an element of the least key is an element, and no
  element has a smaller key.
* `OrdSet.card_eq_countP` — the size of the set of the numbers under which a list holds the elements
  that meet a condition.
-/

namespace OrdSet

variable {α : Type} [LinearOrder α]

/-- The least element. -/
def first (s : Finset α) : Option α := if h : s.Nonempty then some (s.min' h) else none

/-- The greatest element. -/
def last (s : Finset α) : Option α := if h : s.Nonempty then some (s.max' h) else none

/-- The first element is the least one. -/
theorem first_eq_some {s : Finset α} {a : α} : first s = some a ↔ a ∈ s ∧ ∀ b ∈ s, a ≤ b := by
  unfold first
  by_cases h : s.Nonempty
  · rw [dif_pos h, Option.some.injEq]
    constructor
    · rintro rfl
      exact ⟨s.min'_mem h, fun b hb => s.min'_le b hb⟩
    · rintro ⟨ha, hle⟩
      exact le_antisymm (s.min'_le a ha) (hle _ (s.min'_mem h))
  · rw [dif_neg h]
    constructor
    · intro hn; cases hn
    · rintro ⟨ha, -⟩
      exact absurd ⟨a, ha⟩ h

/-- The last element is the greatest one. -/
theorem last_eq_some {s : Finset α} {a : α} : last s = some a ↔ a ∈ s ∧ ∀ b ∈ s, b ≤ a := by
  unfold last
  by_cases h : s.Nonempty
  · rw [dif_pos h, Option.some.injEq]
    constructor
    · rintro rfl
      exact ⟨s.max'_mem h, fun b hb => s.le_max' b hb⟩
    · rintro ⟨ha, hle⟩
      exact le_antisymm (hle _ (s.max'_mem h)) (s.le_max' a ha)
  · rw [dif_neg h]
    constructor
    · intro hn; cases hn
    · rintro ⟨ha, -⟩
      exact absurd ⟨a, ha⟩ h

/-- There is a greatest element exactly when there is an element. -/
theorem exists_last {s : Finset α} : (∃ a, last s = some a) ↔ s.Nonempty := by
  constructor
  · rintro ⟨a, ha⟩
    exact ⟨a, (last_eq_some.mp ha).1⟩
  · intro h
    exact ⟨s.max' h, by rw [last, dif_pos h]⟩

/-- The element of the least key, and of the elements of that key the least one. -/
def minByKey {β : Type} [LinearOrder β] (key : α → β) (s : Finset α) : Option α :=
  (first (s.image (fun a => toLex (key a, a)))).map (fun p => (ofLex p).2)

/-- An element with the least key is in the set. -/
theorem minByKey_mem {β : Type} [LinearOrder β] {key : α → β} {s : Finset α} {a : α}
    (h : minByKey key s = some a) : a ∈ s := by
  simp only [minByKey, Option.map_eq_some_iff] at h
  obtain ⟨p, hp, rfl⟩ := h
  obtain ⟨b, hb, rfl⟩ := Finset.mem_image.mp (first_eq_some.mp hp).1
  exact hb

/-- The key of the element that is found is the least one. -/
theorem minByKey_le {β : Type} [LinearOrder β] {key : α → β} {s : Finset α} {a b : α}
    (h : minByKey key s = some a) (hb : b ∈ s) : key a ≤ key b := by
  simp only [minByKey, Option.map_eq_some_iff] at h
  obtain ⟨p, hp, rfl⟩ := h
  obtain ⟨hmem, hle⟩ := first_eq_some.mp hp
  obtain ⟨a, -, rfl⟩ := Finset.mem_image.mp hmem
  have hlex := hle _ (Finset.mem_image_of_mem _ hb)
  rcases Prod.Lex.toLex_le_toLex.mp hlex with hlt | ⟨heq, -⟩
  · exact hlt.le
  · exact heq.le

/-- Only the empty set has no element with the least key. -/
theorem minByKey_eq_none {β : Type} [LinearOrder β] {key : α → β} {s : Finset α}
    (h : minByKey key s = none) : s = ∅ := by
  rw [minByKey, Option.map_eq_none_iff] at h
  by_contra hne
  have himage := (Finset.nonempty_iff_ne_empty.mpr hne).image (fun a => toLex (key a, a))
  rw [first, dif_pos himage] at h
  cases h

/-- The numbers of the elements of a list that meet a condition are as many as these elements. -/
theorem card_eq_countP {β : Type} (p : β → Bool) (l : List β) (m : ℕ) (ns : Finset ℕ)
    (h : ∀ n, n ∈ ns ↔ ∃ i x, l[i]? = some x ∧ p x = true ∧ n = m + i) :
    ns.card = l.countP p := by
  induction l generalizing m ns with
  | nil =>
    rw [List.countP_nil, Finset.card_eq_zero, Finset.eq_empty_iff_forall_notMem]
    intro n hn
    obtain ⟨i, x, hx, -⟩ := (h n).mp hn
    cases hx
  | cons y l ih =>
    have htail := ih (m + 1) (ns.erase m) (by
      intro n
      rw [Finset.mem_erase, h n]
      constructor
      · rintro ⟨hne, i, x, hx, hp, rfl⟩
        cases i with
        | zero => exact absurd rfl hne
        | succ i => exact ⟨i, x, hx, hp, by omega⟩
      · rintro ⟨i, x, hx, hp, rfl⟩
        exact ⟨by omega, i + 1, x, hx, hp, by omega⟩)
    have hhead : m ∈ ns ↔ p y = true := by
      rw [h m]
      constructor
      · rintro ⟨i, x, hx, hp, hi⟩
        obtain rfl : i = 0 := by omega
        cases hx
        exact hp
      · intro hp
        exact ⟨0, y, rfl, hp, rfl⟩
    by_cases hp : p y = true
    · rw [List.countP_cons_of_pos hp, ← htail, Finset.card_erase_add_one (hhead.mpr hp)]
    · rw [List.countP_cons_of_neg hp, ← htail,
        Finset.erase_eq_of_notMem (fun hm => hp (hhead.mp hm))]

end OrdSet

end Cozal
