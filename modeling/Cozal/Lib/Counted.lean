import Cozal.Lib.OrdMap

namespace Cozal

/-!
# Counted multisets

A map from keys to counts stands for the multiset in which each key occurs as often as it counts,
and it has no entry for a key that does not occur.

* `Counts` — the map counts the elements of the list.
* `Counts.succ`, `Counts.pred`, `Counts.erase` — one occurrence more, or less.
* `Counts.getFirst_eq_some` — the first key of the map is the least element.
-/

variable {K : Type} [LinearOrder K] {m : OrdMap K ℕ} {l l' : List K} {k : K}

/-- Each key that occurs in the list is stored with the number of its occurrences. -/
def Counts (m : OrdMap K ℕ) (l : List K) : Prop :=
  ∀ k, m.get k = if l.count k = 0 then none else some (l.count k)

namespace Counts

/-- The empty map counts the empty list. -/
theorem empty : Counts (.empty : OrdMap K ℕ) [] := fun _ => rfl

/-- The order of the list does not matter. -/
theorem perm (h : Counts m l) (hperm : l.Perm l') : Counts m l' := by
  intro k
  rw [← hperm.count_eq k]
  exact h k

/-- Exactly what is not in the list has no count. -/
theorem get_eq_none (h : Counts m l) : m.get k = none ↔ l.count k = 0 := by
  rw [h k]
  split <;> simp_all

/-- A count is positive, and it is how often the key is in the list. -/
theorem get_eq_some (h : Counts m l) {n : ℕ} (hget : m.get k = some n) :
    n = l.count k ∧ 0 < n := by
  rw [h k] at hget
  split at hget
  · cases hget
  · cases hget
    exact ⟨rfl, by omega⟩

/-- The key occurs once more. -/
theorem succ (h : Counts m l) : Counts (m.insert k (l.count k + 1)) (k :: l) := by
  intro k'
  rw [OrdMap.get_insert, List.count_cons]
  by_cases hk : k' = k
  · subst hk
    simp
  · simpa [hk, Ne.symm hk] using h k'

/-- The key occurs once less, and still occurs. -/
theorem pred (h : Counts m (k :: l)) (hcount : l.count k ≠ 0) :
    Counts (m.insert k (l.count k)) l := by
  intro k'
  rw [OrdMap.get_insert]
  by_cases hk : k' = k
  · subst hk
    simp [hcount]
  · simpa [hk, Ne.symm hk, List.count_cons] using h k'

/-- The only occurrence of the key goes. -/
theorem erase (h : Counts m (k :: l)) (hcount : l.count k = 0) : Counts (m.remove k) l := by
  intro k'
  rw [OrdMap.get_remove]
  by_cases hk : k' = k
  · subst hk
    simp [hcount]
  · simpa [hk, Ne.symm hk, List.count_cons] using h k'

/-- The first key is the least element. -/
theorem getFirst_eq_some (h : Counts m l) {e : K × ℕ} (hfirst : m.getFirst = some e) :
    e.1 ∈ l ∧ ∀ k ∈ l, e.1 ≤ k := by
  obtain ⟨hget, hle⟩ := OrdMap.getFirst_eq_some hfirst
  constructor
  · obtain ⟨hcount, hpos⟩ := h.get_eq_some hget
    exact List.count_pos_iff.mp (hcount ▸ hpos)
  · intro k hk
    have hcount : l.count k ≠ 0 := (List.count_pos_iff.mpr hk).ne'
    exact hle k (l.count k) (by rw [h k, if_neg hcount])

/-- A map without entries counts the empty list. -/
theorem getFirst_eq_none (h : Counts m l) (hfirst : m.getFirst = none) : l = [] := by
  rw [List.eq_nil_iff_forall_not_mem]
  intro k hk
  have hnone : l.count k = 0 := h.get_eq_none.mp (OrdMap.getFirst_eq_none hfirst k)
  exact (List.count_pos_iff.mpr hk).ne' hnone

end Counts

end Cozal
