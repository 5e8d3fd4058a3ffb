import Cozal.Lib.OrdMap
import Cozal.Lib.Outcome
import Mathlib.Order.Bounds.Defs

namespace Cozal.Util

/-!
# Entries of an ordered map

An entry is a key with the map it belongs to.  Whether the map has a value for the key is a field
of the entry, so an occupied entry without a value, or a vacant one with a value, cannot be built.

* `getOccupied` — the entry of a key.
* `OccupiedExtEntry.vacate`, `VacantExtEntry.occupy` — an entry changes its kind; neither gets to
  its `unreachable!()`.
* `getFirstVacantIndex`, `getFirstVacant` — the first key without a value, and its entry.
* `first_vacant` — that key is the least natural number that is no key.
-/

/-! ### The entries -/

section Entries

variable {K V : Type} [LinearOrder K]

/-- An entry with a value. -/
structure OccupiedExtEntry (K V : Type) [LinearOrder K] where
  btreeMap : OrdMap K V
  key : K
  value : V
  occupied : btreeMap.get key = some value

/-- An entry without a value. -/
structure VacantExtEntry (K V : Type) [LinearOrder K] where
  btreeMap : OrdMap K V
  key : K
  vacant : btreeMap.get key = none

/-- The entry of a key, as a `Result` with the occupied entry as its `Ok`. -/
def getOccupied (collection : OrdMap K V) (key : K) :
    Except (VacantExtEntry K V) (OccupiedExtEntry K V) :=
  match h : collection.get key with
  | some value => .ok ⟨collection, key, value, h⟩
  | none => .error ⟨collection, key, h⟩

/-- A key with a value has an occupied entry. -/
theorem getOccupied_of_some {collection : OrdMap K V} {key : K} {value : V}
    (h : collection.get key = some value) :
    getOccupied collection key = .ok ⟨collection, key, value, h⟩ := by
  unfold getOccupied
  split
  · rename_i value' h'
    obtain rfl : value' = value := Option.some.inj (h'.symm.trans h)
    rfl
  · rename_i h'
    rw [h] at h'
    cases h'

/-- A key without a value has a vacant entry. -/
theorem getOccupied_of_none {collection : OrdMap K V} {key : K} (h : collection.get key = none) :
    getOccupied collection key = .error ⟨collection, key, h⟩ := by
  unfold getOccupied
  split
  · rename_i value h'
    rw [h] at h'
    cases h'
  · rfl

/-- Take the value out of the map. -/
def OccupiedExtEntry.vacate (entry : OccupiedExtEntry K V) : Outcome (VacantExtEntry K V × V) :=
  match getOccupied (entry.btreeMap.remove entry.key) entry.key with
  | .ok _ => .panic .unreachable
  | .error vacant => .ok (vacant, entry.value)

/-- Put a value into the map. -/
def VacantExtEntry.occupy (entry : VacantExtEntry K V) (value : V) :
    Outcome (OccupiedExtEntry K V) :=
  match getOccupied (entry.btreeMap.insert entry.key value) entry.key with
  | .ok occupied => .ok occupied
  | .error _ => .panic .unreachable

/-- **`vacate`** returns the vacant entry of the key in the map without it, and the value. -/
theorem OccupiedExtEntry.vacate_eq (entry : OccupiedExtEntry K V) :
    entry.vacate
      = .ok (⟨entry.btreeMap.remove entry.key, entry.key, by simp⟩, entry.value) := by
  unfold OccupiedExtEntry.vacate
  rw [getOccupied_of_none]

/-- **`occupy`** returns the entry of the key in the map with the value. -/
theorem VacantExtEntry.occupy_eq (entry : VacantExtEntry K V) (value : V) :
    entry.occupy value
      = .ok ⟨entry.btreeMap.insert entry.key value, entry.key, value, by simp⟩ := by
  unfold VacantExtEntry.occupy
  rw [getOccupied_of_some]

end Entries

/-! ### The first vacant entry -/

variable {V : Type}

/-- The loop over the enumerated entries: it returns the first position that is not the key which
    stands there. -/
def firstMismatch : List ((ℕ × V) × ℕ) → Option ℕ
  | [] => none
  | ((k, _), i) :: rest => if i = k then firstMismatch rest else some i

/-- The first position that is not the key which stands there, or the number of entries. -/
def getFirstVacantIndex (map : OrdMap ℕ V) : ℕ :=
  (firstMismatch map.entries.zipIdx).getD map.entries.length

/-- The entry of the first key without a value. -/
def getFirstVacant (map : OrdMap ℕ V) : Outcome (VacantExtEntry ℕ V) :=
  match getOccupied map (getFirstVacantIndex map) with
  | .ok _ => .panic .unreachable
  | .error vacant => .ok vacant

/-- The numbers from `n` on that are no keys. -/
def Missing (l : List (ℕ × V)) (n : ℕ) : Set ℕ := {k | n ≤ k ∧ ∀ e ∈ l, e.1 ≠ k}

/-- When `n` itself is the first key, they are found behind it. -/
theorem missing_cons {e : ℕ × V} {rest : List (ℕ × V)} {n : ℕ} (hn : n = e.1) :
    Missing (e :: rest) n = Missing rest (n + 1) := by
  ext k
  show (n ≤ k ∧ ∀ e' ∈ e :: rest, e'.1 ≠ k) ↔ (n + 1 ≤ k ∧ ∀ e' ∈ rest, e'.1 ≠ k)
  rw [List.forall_mem_cons, ← and_assoc]
  apply and_congr_left
  intro _
  omega

/-- When it is no key, it is the least of them. -/
theorem isLeast_missing {l : List (ℕ × V)} {n : ℕ} (h : ∀ e ∈ l, e.1 ≠ n) :
    IsLeast (Missing l n) n := by
  refine ⟨⟨Nat.le_refl n, h⟩, ?_⟩
  intro k hk
  exact hk.1

/-- The rest of the loop, with the entries from position `n` on and no key below `n` among them,
    finds the least number from `n` on that is none of their keys. -/
theorem firstMismatch_isLeast {l : List (ℕ × V)} {n : ℕ}
    (hsorted : l.Pairwise (fun a b => a.1 < b.1)) (hle : ∀ e ∈ l, n ≤ e.1) :
    IsLeast (Missing l n) ((firstMismatch (l.zipIdx n)).getD (n + l.length)) := by
  induction l generalizing n with
  | nil =>
    apply isLeast_missing
    intro e he
    cases he
  | cons e rest ih =>
    rw [List.pairwise_cons] at hsorted
    obtain ⟨hlt, hsorted⟩ := hsorted
    have hfirst : n ≤ e.1 := hle e List.mem_cons_self
    rw [List.zipIdx_cons, firstMismatch, List.length_cons]
    by_cases hn : n = e.1
    · -- position `n` is taken, so that the other keys come after it
      rw [if_pos hn, missing_cons hn, Nat.add_comm rest.length, ← Nat.add_assoc]
      apply ih hsorted
      intro e' he'
      rw [hn]
      exact hlt e' he'
    · -- no key is as small as `n`
      rw [if_neg hn, Option.getD_some]
      apply isLeast_missing
      intro e' he'
      rcases List.mem_cons.mp he' with rfl | he'
      · exact fun h => hn h.symm
      · have hlt' := hlt e' he'
        omega

/-- A number without a value is a number that is no key. -/
theorem get_eq_none_iff {map : OrdMap ℕ V} {k : ℕ} :
    map.get k = none ↔ ∀ e ∈ map.entries, e.1 ≠ k := by
  rw [Option.eq_none_iff_forall_ne_some]
  constructor
  · rintro hnone ⟨k', v⟩ hmem rfl
    exact hnone v (OrdMap.mem_entries.mp hmem)
  · intro hne v hget
    exact hne (k, v) (OrdMap.mem_entries.mpr hget) rfl

/-- **The first vacant entry.**  In every map the index found is the least number that is no key,
    and the entry returned is the vacant one of that key. -/
theorem first_vacant (map : OrdMap ℕ V) :
    IsLeast {n | map.get n = none} (getFirstVacantIndex map) ∧
      ∃ vacant, getFirstVacant map = .ok vacant ∧ vacant.btreeMap = map ∧
        vacant.key = getFirstVacantIndex map := by
  have hleast : IsLeast {n | map.get n = none} (getFirstVacantIndex map) := by
    have hscan := firstMismatch_isLeast map.sorted fun e _ => Nat.zero_le e.1
    simp only [Missing, Nat.zero_le, true_and, Nat.zero_add, ← get_eq_none_iff] at hscan
    exact hscan
  refine ⟨hleast, ⟨map, getFirstVacantIndex map, hleast.1⟩, ?_, rfl, rfl⟩
  unfold getFirstVacant
  rw [getOccupied_of_none hleast.1]

/-- The keys 0 and 1 are taken, and so is 3. -/
example : getFirstVacantIndex (((OrdMap.empty.insert 0 'a').insert 3 'b').insert 1 'c') = 2 := by
  decide

end Cozal.Util
