import Mathlib.Data.List.Pairwise
import Mathlib.Data.List.Perm.Basic
import Mathlib.Order.Lattice
import Mathlib.Order.Nat
import Mathlib.Tactic.Common

namespace Cozal

/-!
# Ordered maps

A finite map over a linear order, kept as the list of its entries in strictly increasing
order of their keys.  The order is a field, so a map with two values for one key cannot be
built.

* `OrdMap.mem_entries` — an entry is in the list exactly when it is what `get` finds; the
  bridge between the list and the map.
* `OrdMap.get_insert`, `OrdMap.get_remove` — the two updates, read through `get`.
* `OrdMap.entries_insert_perm`, `OrdMap.entries_remove_perm` — the two updates, read through
  the list.
* `OrdMap.getFirst_eq_some` — the first entry is the one of the least key.
* `OrdMap.Inverse` — two maps that invert one another.
-/

/-- A finite map, as its entries in strictly increasing order of their keys. -/
structure OrdMap (K V : Type) [LinearOrder K] where
  entries : List (K × V)
  sorted : entries.Pairwise (fun a b => a.1 < b.1)

namespace OrdMap

variable {K V : Type} [LinearOrder K]

/-- The map without entries. -/
def empty : OrdMap K V := ⟨[], List.Pairwise.nil⟩

/-- The value stored for `k`. -/
def get (m : OrdMap K V) (k : K) : Option V :=
  (m.entries.find? (fun e => decide (e.1 = k))).map Prod.snd

/-- Put the entry `(k, v)` in its place, over the entry for `k` if there is one. -/
def insertEntry (k : K) (v : V) : List (K × V) → List (K × V)
  | [] => [(k, v)]
  | e :: rest =>
      if k < e.1 then (k, v) :: e :: rest
      else if k = e.1 then (k, v) :: rest
      else e :: insertEntry k v rest

/-- An inserted entry replaces what the list had under its key. -/
theorem mem_insertEntry {k : K} {v : V} {l : List (K × V)}
    (hl : l.Pairwise (fun a b => a.1 < b.1)) {e : K × V} :
    e ∈ insertEntry k v l ↔ e = (k, v) ∨ (e ∈ l ∧ e.1 ≠ k) := by
  induction l with
  | nil => simp [insertEntry]
  | cons x rest ih =>
    rw [List.pairwise_cons] at hl
    obtain ⟨hx, hrest⟩ := hl
    rw [insertEntry]
    rcases lt_trichotomy k x.1 with hlt | heq | hgt
    · -- every entry of the list lies after `k`
      have hne : ∀ y ∈ x :: rest, y.1 ≠ k := by
        intro y hy
        rcases List.mem_cons.mp hy with rfl | hy
        · exact hlt.ne'
        · exact (hlt.trans (hx y hy)).ne'
      rw [if_pos hlt]
      constructor
      · intro he
        rcases List.mem_cons.mp he with rfl | he
        · exact Or.inl rfl
        · exact Or.inr ⟨he, hne e he⟩
      · rintro (rfl | ⟨he, _⟩)
        · exact List.mem_cons_self
        · exact List.mem_cons_of_mem _ he
    · have hne : ∀ y ∈ rest, y.1 ≠ k := fun y hy => (heq ▸ hx y hy).ne'
      rw [if_neg heq.not_lt, if_pos heq]
      constructor
      · intro he
        rcases List.mem_cons.mp he with rfl | he
        · exact Or.inl rfl
        · exact Or.inr ⟨List.mem_cons_of_mem _ he, hne e he⟩
      · rintro (rfl | ⟨he, hk⟩)
        · exact List.mem_cons_self
        · rcases List.mem_cons.mp he with rfl | he
          · exact absurd heq.symm hk
          · exact List.mem_cons_of_mem _ he
    · rw [if_neg hgt.not_gt, if_neg hgt.ne', List.mem_cons, ih hrest, List.mem_cons]
      constructor
      · rintro (rfl | rfl | ⟨he, hk⟩)
        · exact Or.inr ⟨Or.inl rfl, hgt.ne⟩
        · exact Or.inl rfl
        · exact Or.inr ⟨Or.inr he, hk⟩
      · rintro (rfl | ⟨rfl | he, hk⟩)
        · exact Or.inr (Or.inl rfl)
        · exact Or.inl rfl
        · exact Or.inr (Or.inr ⟨he, hk⟩)

/-- Inserting an entry keeps the keys in order. -/
theorem insertEntry_sorted {k : K} {v : V} {l : List (K × V)}
    (hl : l.Pairwise (fun a b => a.1 < b.1)) :
    (insertEntry k v l).Pairwise (fun a b => a.1 < b.1) := by
  induction l with
  | nil => simp [insertEntry]
  | cons x rest ih =>
    have hl' := hl
    rw [List.pairwise_cons] at hl
    obtain ⟨hx, hrest⟩ := hl
    rw [insertEntry]
    rcases lt_trichotomy k x.1 with hlt | heq | hgt
    · rw [if_pos hlt, List.pairwise_cons]
      refine ⟨?_, hl'⟩
      intro y hy
      rcases List.mem_cons.mp hy with rfl | hy
      · exact hlt
      · exact hlt.trans (hx y hy)
    · rw [if_neg heq.not_lt, if_pos heq, List.pairwise_cons]
      exact ⟨fun y hy => heq ▸ hx y hy, hrest⟩
    · rw [if_neg hgt.not_gt, if_neg hgt.ne', List.pairwise_cons]
      refine ⟨?_, ih hrest⟩
      intro y hy
      rcases (mem_insertEntry hrest).mp hy with rfl | ⟨hy, _⟩
      · exact hgt
      · exact hx y hy

/-- What comes before the key stays before it. -/
theorem insertEntry_append {k : K} {v : V} {l : List (K × V)} (h : ∀ e ∈ l, e.1 < k)
    (l' : List (K × V)) : insertEntry k v (l ++ l') = l ++ insertEntry k v l' := by
  induction l with
  | nil => rfl
  | cons x l ih =>
    have hx := h x List.mem_cons_self
    rw [List.cons_append, insertEntry, if_neg hx.not_gt, if_neg hx.ne',
      ih fun e he => h e (List.mem_cons_of_mem _ he), List.cons_append]

/-- Store `v` for `k`. -/
def insert (m : OrdMap K V) (k : K) (v : V) : OrdMap K V :=
  ⟨insertEntry k v m.entries, insertEntry_sorted m.sorted⟩

/-- Forget what is stored for `k`. -/
def remove (m : OrdMap K V) (k : K) : OrdMap K V :=
  ⟨m.entries.filter (fun e => decide (e.1 ≠ k)), m.sorted.filter _⟩

/-- Take the entries of the keys from `k` on out: what is left, and what is taken. -/
def splitOff (m : OrdMap K V) (k : K) : OrdMap K V × OrdMap K V :=
  (⟨m.entries.filter (fun e => decide (e.1 < k)), m.sorted.filter _⟩,
    ⟨m.entries.filter (fun e => decide (k ≤ e.1)), m.sorted.filter _⟩)

/-- The entry of the least key. -/
def getFirst (m : OrdMap K V) : Option (K × V) := m.entries.head?

/-- The entry of the greatest key. -/
def getLast (m : OrdMap K V) : Option (K × V) := m.entries.getLast?

/-- Take the entry of the least key out. -/
def popFirst (m : OrdMap K V) : Option ((K × V) × OrdMap K V) :=
  m.getFirst.map (fun e => (e, m.remove e.1))

/-- Change every value. -/
def mapValues {V' : Type} (f : K → V → V') (m : OrdMap K V) : OrdMap K V' :=
  ⟨m.entries.map (fun e => (e.1, f e.1 e.2)), List.pairwise_map.mpr m.sorted⟩

/-- The stored values, in the order of their keys. -/
def values (m : OrdMap K V) : List V := m.entries.map Prod.snd

/-! ### Reading a map -/

/-- The entries are what `get` finds. -/
theorem mem_entries {m : OrdMap K V} {k : K} {v : V} :
    (k, v) ∈ m.entries ↔ m.get k = some v := by
  obtain ⟨l, hl⟩ := m
  simp only [get]
  induction l with
  | nil => simp
  | cons x rest ih =>
    rw [List.pairwise_cons] at hl
    obtain ⟨hx, hrest⟩ := hl
    by_cases hk : x.1 = k
    · have hnot : (k, v) ∉ rest := fun h => absurd (hx _ h) (by simp [hk])
      simp only [List.mem_cons, hnot, or_false, List.find?_cons, hk, decide_true]
      constructor
      · rintro rfl; rfl
      · intro h
        simp only [Option.map_some, Option.some.injEq] at h
        rw [← hk, ← h]
    · have hne : (k, v) ≠ x := fun h => hk (by rw [← h])
      simpa only [List.mem_cons, hne, false_or, List.find?_cons, hk, decide_false]
        using ih hrest

/-- The empty map has no values. -/
@[simp] theorem get_empty (k : K) : (empty : OrdMap K V).get k = none := rfl

/-- The empty map has no first entry. -/
@[simp] theorem getFirst_empty : (empty : OrdMap K V).getFirst = none := rfl

/-- Inserting changes the value of one key. -/
@[simp] theorem get_insert (m : OrdMap K V) (k k' : K) (v : V) :
    (m.insert k v).get k' = if k' = k then some v else m.get k' := by
  apply Option.ext
  intro w
  rw [← mem_entries]
  show (k', w) ∈ insertEntry k v m.entries ↔ _
  rw [mem_insertEntry m.sorted, mem_entries]
  by_cases h : k' = k
  · simp [h, eq_comm]
  · simp [h]

/-- Removing takes away the value of one key. -/
@[simp] theorem get_remove (m : OrdMap K V) (k k' : K) :
    (m.remove k).get k' = if k' = k then none else m.get k' := by
  apply Option.ext
  intro w
  rw [← mem_entries]
  show (k', w) ∈ m.entries.filter _ ↔ _
  rw [List.mem_filter, mem_entries]
  by_cases h : k' = k <;> simp [h]

/-- What is stored after a removal was stored before it, for another key. -/
theorem get_remove_eq_some {m : OrdMap K V} {k k' : K} {v : V} :
    (m.remove k).get k' = some v ↔ k' ≠ k ∧ m.get k' = some v := by
  rw [get_remove]
  by_cases h : k' = k <;> simp [h]

/-- The first part of a split has the values of the smaller keys. -/
theorem get_splitOff_fst (m : OrdMap K V) (k k' : K) :
    (m.splitOff k).1.get k' = if k' < k then m.get k' else none := by
  refine Option.ext ?_
  intro v
  rw [← mem_entries, splitOff, List.mem_filter, mem_entries, decide_eq_true_eq]
  split <;> simp_all

/-- Mapping the values maps what is stored under each key. -/
@[simp] theorem get_mapValues {V' : Type} (f : K → V → V') (m : OrdMap K V) (k : K) :
    (m.mapValues f).get k = (m.get k).map (f k) := by
  refine Option.ext ?_
  intro v'
  rw [← mem_entries, mapValues, List.mem_map, Option.map_eq_some_iff]
  constructor
  · rintro ⟨⟨k', v⟩, hmem, heq⟩
    cases heq
    exact ⟨v, mem_entries.mp hmem, rfl⟩
  · rintro ⟨v, hget, rfl⟩
    exact ⟨(k, v), mem_entries.mpr hget, rfl⟩

/-- A changed value is stored where the value was. -/
theorem get_mapValues_insert {V' : Type} (f : K → V → V') (m : OrdMap K V) (k k' : K) (v : V) :
    ((m.insert k v).mapValues f).get k' = ((m.mapValues f).insert k (f k v)).get k' := by
  rw [get_mapValues, get_insert, get_insert, get_mapValues]
  by_cases h : k' = k
  · subst h
    simp
  · simp [h]

/-- And is removed with it. -/
theorem get_mapValues_remove {V' : Type} (f : K → V → V') (m : OrdMap K V) (k k' : K) :
    ((m.remove k).mapValues f).get k' = ((m.mapValues f).remove k).get k' := by
  rw [get_mapValues, get_remove, get_remove, get_mapValues]
  by_cases h : k' = k
  · simp [h]
  · simp [h]

/-- The values are those stored under some key. -/
theorem mem_values {m : OrdMap K V} {v : V} : v ∈ m.values ↔ ∃ k, m.get k = some v := by
  simp only [values, List.mem_map, Prod.exists, exists_eq_right, mem_entries]

/-! ### Updates, as lists of entries -/

/-- No entry is listed twice. -/
theorem entries_nodup (m : OrdMap K V) : m.entries.Nodup :=
  m.sorted.imp (fun h heq => h.ne (congrArg Prod.fst heq))

/-- A map is what `get` finds in it. -/
theorem eq_of_get {m m' : OrdMap K V} (h : ∀ k, m.get k = m'.get k) : m = m' := by
  have hperm : m.entries.Perm m'.entries := by
    rw [List.perm_ext_iff_of_nodup (entries_nodup m) (entries_nodup m')]
    rintro ⟨k, v⟩
    rw [mem_entries, mem_entries, h k]
  have heq : m.entries = m'.entries :=
    hperm.eq_of_pairwise (fun _ _ _ _ hab hba => absurd hba hab.asymm) m.sorted m'.sorted
  obtain ⟨l, hl⟩ := m
  obtain ⟨l', hl'⟩ := m'
  obtain rfl : l = l' := heq
  rfl

/-- What is stored after a removal is stored over what was removed. -/
theorem insert_remove (m : OrdMap K V) (k : K) (v : V) :
    (m.remove k).insert k v = m.insert k v := by
  refine eq_of_get fun k' => ?_
  rw [get_insert, get_insert, get_remove]
  split <;> rfl

/-- A fresh key adds its entry to those there are. -/
theorem entries_insert_perm {m : OrdMap K V} {k : K} (h : m.get k = none) (v : V) :
    (m.insert k v).entries.Perm ((k, v) :: m.entries) := by
  have hnot : (k, v) ∉ m.entries := by rw [mem_entries, h]; simp
  rw [List.perm_ext_iff_of_nodup (entries_nodup _)
    (List.nodup_cons.mpr ⟨hnot, entries_nodup m⟩)]
  rintro ⟨k', v'⟩
  rw [List.mem_cons, mem_entries, mem_entries, get_insert]
  by_cases hk : k' = k
  · subst hk
    simp [h, eq_comm]
  · simp [hk]

/-- Removing a key takes its entry out of those there are. -/
theorem entries_remove_perm {m : OrdMap K V} {k : K} {v : V} (h : m.get k = some v) :
    m.entries.Perm ((k, v) :: (m.remove k).entries) := by
  have hnot : (k, v) ∉ (m.remove k).entries := by rw [mem_entries, get_remove]; simp
  rw [List.perm_ext_iff_of_nodup (entries_nodup m)
    (List.nodup_cons.mpr ⟨hnot, entries_nodup _⟩)]
  rintro ⟨k', v'⟩
  rw [List.mem_cons, mem_entries, mem_entries, get_remove]
  by_cases hk : k' = k
  · subst hk
    simp [h, eq_comm]
  · simp [hk]

/-- Whatever was stored for a key, storing for it adds its entry to those of the other keys. -/
theorem entries_insert_perm_remove (m : OrdMap K V) (k : K) (v : V) :
    (m.insert k v).entries.Perm ((k, v) :: (m.remove k).entries) := by
  have hnot : (k, v) ∉ (m.remove k).entries := by rw [mem_entries, get_remove]; simp
  rw [List.perm_ext_iff_of_nodup (entries_nodup _)
    (List.nodup_cons.mpr ⟨hnot, entries_nodup _⟩)]
  rintro ⟨k', v'⟩
  rw [List.mem_cons, mem_entries, mem_entries, get_insert, get_remove]
  by_cases hk : k' = k
  · subst hk
    simp [eq_comm]
  · simp [hk]

/-- Without an entry for a key there is nothing to remove. -/
theorem entries_remove_of_none {m : OrdMap K V} {k : K} (h : m.get k = none) :
    (m.remove k).entries = m.entries := by
  refine List.filter_eq_self.mpr ?_
  rintro ⟨k', v⟩ hmem
  rw [mem_entries] at hmem
  rw [decide_eq_true_eq]
  rintro rfl
  rw [h] at hmem
  cases hmem

/-- What is made of the values, when all but that of one key are made nothing of. -/
theorem flatMap_values {β : Type} {m : OrdMap K V} {k : K} {f : V → List β}
    (h : ∀ k' v, m.get k' = some v → k' ≠ k → f v = []) :
    m.values.flatMap f = ((m.get k).map f).getD [] := by
  have hnil : ∀ l : List (K × V), (∀ e ∈ l, e ∈ m.entries ∧ e.1 ≠ k) →
      (l.map Prod.snd).flatMap f = [] := by
    intro l hl
    rw [List.flatMap_map, List.flatMap_eq_nil_iff]
    rintro ⟨k', v⟩ hmem
    obtain ⟨hentry, hne⟩ := hl _ hmem
    exact h k' v (mem_entries.mp hentry) hne
  cases hk : m.get k with
  | none =>
    refine hnil m.entries ?_
    rintro ⟨k', v⟩ hmem
    refine ⟨hmem, ?_⟩
    rintro rfl
    rw [mem_entries, hk] at hmem
    cases hmem
  | some v =>
    -- the keys before and after that of the entry are other ones
    obtain ⟨front, back, hsplit⟩ := List.append_of_mem (mem_entries.mpr hk)
    have hsorted := m.sorted
    rw [hsplit, List.pairwise_append, List.pairwise_cons] at hsorted
    obtain ⟨-, ⟨hback, -⟩, hfront⟩ := hsorted
    rw [values, hsplit, List.map_append, List.map_cons, List.flatMap_append, List.flatMap_cons,
      hnil front, hnil back, List.nil_append, List.append_nil]
    · rfl
    · intro e he
      rw [hsplit]
      exact ⟨by simp [he], (hback e he).ne'⟩
    · intro e he
      rw [hsplit]
      exact ⟨by simp [he], (hfront e he _ List.mem_cons_self).ne⟩

/-! ### The least key -/

/-- The first entry is stored, and no key lies before its own. -/
theorem getFirst_eq_some {m : OrdMap K V} {e : K × V} (h : m.getFirst = some e) :
    m.get e.1 = some e.2 ∧ ∀ k v, m.get k = some v → e.1 ≤ k := by
  obtain ⟨l, hl⟩ := m
  cases l with
  | nil => simp [getFirst] at h
  | cons x rest =>
    simp only [getFirst, List.head?_cons, Option.some.injEq] at h
    subst h
    rw [List.pairwise_cons] at hl
    refine ⟨mem_entries.mp List.mem_cons_self, ?_⟩
    intro k v hk
    rcases List.mem_cons.mp (mem_entries.mpr hk) with heq | hmem
    · rw [← heq]
    · exact (hl.1 _ hmem).le

/-- Without it the other entries are left. -/
theorem entries_of_getFirst {m : OrdMap K V} {e : K × V} (h : m.getFirst = some e) :
    m.entries = e :: (m.remove e.1).entries := by
  obtain ⟨l, hl⟩ := m
  cases l with
  | nil => simp [getFirst] at h
  | cons x rest =>
    simp only [getFirst, List.head?_cons, Option.some.injEq] at h
    subst h
    rw [List.pairwise_cons] at hl
    have hrest : rest.filter (fun e => decide (e.1 ≠ x.1)) = rest :=
      List.filter_eq_self.mpr fun e he => by simpa using (hl.1 e he).ne'
    refine congrArg (x :: ·) ?_
    show rest = (x :: rest).filter (fun e => decide (e.1 ≠ x.1))
    rw [List.filter_cons_of_neg (by simp), hrest]

/-- Only the empty map has no first entry. -/
theorem getFirst_eq_none {m : OrdMap K V} (h : m.getFirst = none) (k : K) :
    m.get k = none := by
  obtain ⟨l, hl⟩ := m
  cases l with
  | nil => rfl
  | cons x rest => simp [getFirst] at h

/-- No key lies after that of the last entry. -/
theorem getLast_eq_some {m : OrdMap K V} {e : K × V} (h : m.getLast = some e) {k : K} {v : V}
    (hget : m.get k = some v) : k ≤ e.1 := by
  obtain ⟨front, hfront⟩ := List.getLast?_eq_some_iff.mp h
  have hsorted := m.sorted
  rw [hfront, List.pairwise_append] at hsorted
  have hmem := mem_entries.mpr hget
  rw [hfront, List.mem_append, List.mem_singleton] at hmem
  rcases hmem with hmem | rfl
  · exact (hsorted.2.2 _ hmem e (List.mem_singleton.mpr rfl)).le
  · exact le_rfl

/-- Only the empty map has no last entry. -/
theorem getLast_eq_none {m : OrdMap K V} (h : m.getLast = none) (k : K) : m.get k = none := by
  obtain ⟨l, hl⟩ := m
  cases l with
  | nil => rfl
  | cons x rest => simp [getLast] at h

/-- Taking the first entry out leaves the map without its key. -/
theorem popFirst_eq_some {m m' : OrdMap K V} {e : K × V} :
    m.popFirst = some (e, m') ↔ m.getFirst = some e ∧ m' = m.remove e.1 := by
  simp only [popFirst, Option.map_eq_some_iff, Prod.mk.injEq]
  constructor
  · rintro ⟨a, ha, rfl, rfl⟩; exact ⟨ha, rfl⟩
  · rintro ⟨ha, rfl⟩; exact ⟨e, ha, rfl, rfl⟩

/-- The one entry of a map is the first one. -/
theorem popFirst_insert_empty (k : K) (v : V) :
    ((empty : OrdMap K V).insert k v).popFirst = some ((k, v), empty) := by
  simp [popFirst, getFirst, insert, insertEntry, remove, empty]

/-! ### Maps that invert one another -/

section Inverse

variable {V : Type} [LinearOrder V]

/-- Each of the two maps leads back to where the other one comes from. -/
def Inverse (f : OrdMap K V) (g : OrdMap V K) : Prop :=
  ∀ k v, f.get k = some v ↔ g.get v = some k

/-- Two empty maps are inverse to each other. -/
theorem Inverse.empty : Inverse (empty : OrdMap K V) empty := fun _ _ => by simp

/-- A pair of a fresh key and a fresh value can be added. -/
theorem Inverse.insert {f : OrdMap K V} {g : OrdMap V K} (h : Inverse f g) {k : K} {v : V}
    (hk : f.get k = none) (hv : g.get v = none) : Inverse (f.insert k v) (g.insert v k) := by
  intro k' v'
  rw [get_insert, get_insert]
  by_cases hk' : k' = k
  · by_cases hv' : v' = v
    · simp [hk', hv']
    · rw [if_pos hk', if_neg hv', ← h k' v', hk', hk]
      simp [Ne.symm hv']
  · by_cases hv' : v' = v
    · rw [if_neg hk', if_pos hv', h k' v', hv', hv]
      simp [Ne.symm hk']
    · rw [if_neg hk', if_neg hv', h k' v']

/-- A pair that is there can be added once more. -/
theorem Inverse.insert_same {f : OrdMap K V} {g : OrdMap V K} (h : Inverse f g) {k : K} {v : V}
    (hk : f.get k = some v) : Inverse (f.insert k v) (g.insert v k) := by
  have hv := (h k v).mp hk
  intro k' v'
  rw [get_insert, get_insert]
  by_cases hk' : k' = k
  · by_cases hv' : v' = v
    · simp [hk', hv']
    · rw [if_pos hk', if_neg hv', ← h k' v', hk', hk]
  · by_cases hv' : v' = v
    · rw [if_neg hk', if_pos hv', h k' v', hv', hv]
    · rw [if_neg hk', if_neg hv', h k' v']

/-- No value is stored for two keys. -/
theorem Inverse.injective {f : OrdMap K V} {g : OrdMap V K} (h : Inverse f g) {k k' : K} {v : V}
    (hk : f.get k = some v) (hk' : f.get k' = some v) : k = k' :=
  Option.some.inj (((h k v).mp hk).symm.trans ((h k' v).mp hk'))

/-- Only what is stored matters. -/
theorem inverse_congr {f f' : OrdMap K V} (hf : ∀ k, f'.get k = f.get k) (g : OrdMap V K) :
    Inverse f' g ↔ Inverse f g := by
  unfold Inverse
  simp only [hf]

/-- A pair can be removed. -/
theorem Inverse.remove {f : OrdMap K V} {g : OrdMap V K} (h : Inverse f g) {k : K} {v : V}
    (hk : f.get k = some v) : Inverse (f.remove k) (g.remove v) := by
  intro k' v'
  rw [get_remove, get_remove]
  by_cases hk' : k' = k
  · by_cases hv' : v' = v
    · simp [hk', hv']
    · rw [if_pos hk', if_neg hv', ← h k' v', hk', hk]
      simp [Ne.symm hv']
  · by_cases hv' : v' = v
    · rw [if_neg hk', if_pos hv', h k' v', hv', (h k v).mp hk]
      simp [Ne.symm hk']
    · rw [if_neg hk', if_neg hv', h k' v']

/-- Removing what is not there changes nothing. -/
theorem Inverse.remove_none {f : OrdMap K V} {g : OrdMap V K} (h : Inverse f g) {v : V}
    (hv : g.get v = none) : Inverse f (g.remove v) := by
  intro k' v'
  rw [get_remove, h k' v']
  by_cases hv' : v' = v
  · simp [hv', hv]
  · rw [if_neg hv']

end Inverse

end OrdMap

end Cozal
