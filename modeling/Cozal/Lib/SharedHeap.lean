import Cozal.Lib.Counted
import Cozal.Lib.Run

namespace Cozal

/-!
# Reference counted values

Owners hold values in reference counted allocations, which they share when they clone a reference
and not a value.  An owner that writes makes its allocation its own first: it copies the value
unless nobody else holds the allocation.

* `SharedHeap` — the allocations: `new`, `clone`, `drop`, `makeMut`, `tryUnwrap`.
* `Shared` — the allocations and who holds them; `Shared.Step`, what an owner can do.
* `Shared.Sound` — each allocation counts its owners, and an owner that writes is alone.
* `Shared.Sound.makeMut_eq_iff` — when nothing is copied.
* `Shared.ValueStep` — the same for owners that have a value each.
* `Shared.Sound.run` — **sharing cannot be seen**: what owners do with shared allocations, they can
  do with values of their own, and they read the same.
-/

variable {K V : Type}

/-! ### The allocations -/

/-- An allocation: a value, and the number of references to it. -/
structure Cell (V : Type) where
  value : V
  strong : ℕ

/-- The allocations, by address. -/
structure SharedHeap (V : Type) where
  cells : OrdMap ℕ (Cell V)

namespace SharedHeap

/-- The heap without allocations. -/
def empty : SharedHeap V := ⟨.empty⟩

/-- What a reference leads to. -/
def deref (h : SharedHeap V) (a : ℕ) : Option V := (h.cells.get a).map Cell.value

/-- Store a value at a free address. -/
def new (h : SharedHeap V) (a : ℕ) (v : V) : SharedHeap V := ⟨h.cells.insert a ⟨v, 1⟩⟩

/-- One reference more. -/
def clone (h : SharedHeap V) (a : ℕ) : SharedHeap V :=
  match h.cells.get a with
  | some c => ⟨h.cells.insert a ⟨c.value, c.strong + 1⟩⟩
  | none => h

/-- One reference less; the last one takes the value along. -/
def drop (h : SharedHeap V) (a : ℕ) : SharedHeap V :=
  match h.cells.get a with
  | some c =>
      if c.strong = 1 then ⟨h.cells.remove a⟩
      else ⟨h.cells.insert a ⟨c.value, c.strong - 1⟩⟩
  | none => h

/-- Write a value. -/
def set (h : SharedHeap V) (a : ℕ) (v : V) : SharedHeap V :=
  match h.cells.get a with
  | some c => ⟨h.cells.insert a ⟨v, c.strong⟩⟩
  | none => h

/-- Make a reference the only one to its value: it stays where it is, or leads to a copy. -/
def makeMut (h : SharedHeap V) (a free : ℕ) : ℕ × SharedHeap V :=
  match h.cells.get a with
  | some c => if c.strong = 1 then (a, h) else (free, (h.drop a).new free c.value)
  | none => (a, h)

/-- Give a reference up for the value, which is there to take if nobody else has it. -/
def tryUnwrap (h : SharedHeap V) (a : ℕ) : Option V × SharedHeap V :=
  match h.cells.get a with
  | some c => (if c.strong = 1 then some c.value else none, h.drop a)
  | none => (none, h)

/-- Each allocation counts the references there are to it. -/
def Counted (h : SharedHeap V) (owners : List ℕ) : Prop :=
  Counts (h.cells.mapValues fun _ c => c.strong) owners

variable {h : SharedHeap V} {a b : ℕ} {v : V} {c : Cell V} {owners owners' : List ℕ}

namespace Counted

/-- The order in which the owners are listed does not matter. -/
theorem perm (hc : h.Counted owners) (hperm : owners.Perm owners') : h.Counted owners' :=
  Counts.perm hc hperm

/-- What has an owner is there, and counts its owners. -/
theorem exists_cell (hc : h.Counted owners) (ha : a ∈ owners) :
    ∃ c, h.cells.get a = some c ∧ c.strong = owners.count a := by
  have hget := hc a
  rw [OrdMap.get_mapValues, if_neg (List.count_pos_iff.mpr ha).ne'] at hget
  exact Option.map_eq_some_iff.mp hget

/-- What is there has an owner. -/
theorem mem_owners (hc : h.Counted owners) (hget : h.cells.get a = some c) : a ∈ owners := by
  have hcount := hc a
  rw [OrdMap.get_mapValues, hget, Option.map_some] at hcount
  by_contra hnot
  rw [if_pos (List.count_eq_zero_of_not_mem hnot)] at hcount
  cases hcount

/-- A free address has no owners. -/
theorem free (hc : h.Counted owners) (hget : h.cells.get a = none) : owners.count a = 0 := by
  have hcount := hc a
  rw [OrdMap.get_mapValues, hget, Option.map_none] at hcount
  by_contra hnot
  rw [if_neg hnot] at hcount
  cases hcount

/-- Only the strong counts matter. -/
theorem congr {h' : SharedHeap V} (hc : h.Counted owners)
    (heq : ∀ a, (h'.cells.get a).map Cell.strong = (h.cells.get a).map Cell.strong) :
    h'.Counted owners := by
  intro a
  rw [OrdMap.get_mapValues, heq, ← hc a, OrdMap.get_mapValues]

/-- A new allocation has one owner. -/
theorem new (hc : h.Counted owners) (hfree : h.cells.get a = none) (v : V) :
    (h.new a v).Counted (a :: owners) := by
  intro k
  rw [SharedHeap.new, OrdMap.get_mapValues_insert]
  have hsucc := hc.succ (k := a) k
  rw [hc.free hfree] at hsucc
  exact hsucc

/-- A clone is one more owner of an allocation that has one. -/
theorem clone (hc : h.Counted owners) (ha : a ∈ owners) : (h.clone a).Counted (a :: owners) := by
  obtain ⟨c, hget, hstrong⟩ := hc.exists_cell ha
  intro k
  simp only [SharedHeap.clone, hget]
  rw [OrdMap.get_mapValues_insert, hstrong]
  exact hc.succ k

/-- A dropped reference is one owner fewer. -/
theorem drop (hc : h.Counted (a :: owners)) : (h.drop a).Counted owners := by
  obtain ⟨c, hget, hstrong⟩ := hc.exists_cell List.mem_cons_self
  rw [List.count_cons_self] at hstrong
  simp only [SharedHeap.drop, hget]
  split
  · rename_i hone
    intro k
    rw [OrdMap.get_mapValues_remove]
    exact hc.erase (by omega) k
  · rename_i hone
    intro k
    rw [OrdMap.get_mapValues_insert, hstrong]
    exact hc.pred (by omega) k

end Counted

/-- A new allocation is read by its value, and the others are as before. -/
theorem deref_new (a' : ℕ) : (h.new a v).deref a' = if a' = a then some v else h.deref a' := by
  rw [deref, new, OrdMap.get_insert]
  split <;> rfl

/-- Cloning a reference changes no value. -/
theorem deref_clone (a' : ℕ) : (h.clone a).deref a' = h.deref a' := by
  unfold clone
  cases hget : h.cells.get a with
  | none => rfl
  | some c =>
    show (OrdMap.get (h.cells.insert _ _) a').map Cell.value = _
    rw [OrdMap.get_insert]
    split
    · rename_i heq
      subst heq
      simp [deref, hget]
    · rfl

/-- An allocation that still has an owner is still there. -/
theorem deref_drop (hc : h.Counted (a :: owners)) {a' : ℕ} (ha' : a' ∈ owners) :
    (h.drop a).deref a' = h.deref a' := by
  obtain ⟨c, hget, hstrong⟩ := hc.exists_cell List.mem_cons_self
  rw [List.count_cons_self] at hstrong
  unfold drop
  simp only [hget]
  split
  · rename_i hone
    have hne : a' ≠ a := by
      rintro rfl
      have hpos := List.count_pos_iff.mpr ha'
      omega
    show (OrdMap.get (h.cells.remove a) a').map Cell.value = _
    rw [OrdMap.get_remove, if_neg hne]
    rfl
  · show (OrdMap.get (h.cells.insert _ _) a').map Cell.value = _
    rw [OrdMap.get_insert]
    split
    · rename_i heq
      subst heq
      simp [deref, hget]
    · rfl

/-- A value is written where there is one. -/
theorem deref_set (hget : h.cells.get a = some c) (a' : ℕ) :
    (h.set a v).deref a' = if a' = a then some v else h.deref a' := by
  simp only [set, hget]
  show (OrdMap.get (h.cells.insert _ _) a').map Cell.value = _
  rw [OrdMap.get_insert]
  split <;> rfl

/-- Writing a value changes no count. -/
theorem Counted.set (hc : h.Counted owners) : (h.set a v).Counted owners := by
  refine hc.congr ?_
  intro a'
  unfold SharedHeap.set
  cases hget : h.cells.get a with
  | none => rfl
  | some c =>
    show (OrdMap.get (h.cells.insert _ _) a').map Cell.strong = _
    rw [OrdMap.get_insert]
    split
    · rename_i heq
      subst heq
      rw [hget]
      rfl
    · rfl

end SharedHeap

/-! ### Owners -/

variable [LinearOrder K]

/-- A reference: where its value is, and whether its owner is writing it. -/
structure Ref where
  address : ℕ
  borrowed : Bool

/-- The allocations, and the references to them that the owners hold. -/
structure Shared (K V : Type) [LinearOrder K] where
  heap : SharedHeap V
  references : OrdMap K Ref

/-- What an owner can do, with what it reads or takes. -/
inductive Shared.Action (K V : Type) where
  | new (k : K) (v : V)
  | clone (k k' : K)
  | move (k k' : K)
  | mutate (k : K)
  | write (k : K) (v : V)
  | release (k : K)
  | read (k : K) (v : V)
  | take (k : K) (v : Option V)
  | drop (k : K)

namespace Shared

/-- Nobody owns anything. -/
def empty : Shared K V := ⟨.empty, .empty⟩

/-- One owner does something.  While it writes, its reference is neither cloned nor moved; it can
    be dropped at any time. -/
inductive Step : Shared K V → List (Action K V) → Shared K V → Prop where
  | new {s : Shared K V} {k : K} {v : V} {a : ℕ} (hk : s.references.get k = none)
      (ha : s.heap.cells.get a = none) :
      Step s [.new k v] ⟨s.heap.new a v, s.references.insert k ⟨a, false⟩⟩
  | clone {s : Shared K V} {k k' : K} {a : ℕ} (hk : s.references.get k = some ⟨a, false⟩)
      (hk' : s.references.get k' = none) :
      Step s [.clone k k'] ⟨s.heap.clone a, s.references.insert k' ⟨a, false⟩⟩
  | move {s : Shared K V} {k k' : K} {a : ℕ} (hk : s.references.get k = some ⟨a, false⟩)
      (hk' : s.references.get k' = none) :
      Step s [.move k k'] ⟨s.heap, (s.references.remove k).insert k' ⟨a, false⟩⟩
  | mutate {s : Shared K V} {k : K} {a free : ℕ} (hk : s.references.get k = some ⟨a, false⟩)
      (hfree : s.heap.cells.get free = none) :
      Step s [.mutate k] ⟨(s.heap.makeMut a free).2,
        s.references.insert k ⟨(s.heap.makeMut a free).1, true⟩⟩
  | write {s : Shared K V} {k : K} {v : V} {a : ℕ} (hk : s.references.get k = some ⟨a, true⟩) :
      Step s [.write k v] ⟨s.heap.set a v, s.references⟩
  | release {s : Shared K V} {k : K} {a : ℕ} (hk : s.references.get k = some ⟨a, true⟩) :
      Step s [.release k] ⟨s.heap, s.references.insert k ⟨a, false⟩⟩
  | read {s : Shared K V} {k : K} {v : V} {x : Ref} (hk : s.references.get k = some x)
      (hv : s.heap.deref x.address = some v) : Step s [.read k v] s
  | take {s : Shared K V} {k : K} {a : ℕ} (hk : s.references.get k = some ⟨a, false⟩) :
      Step s [.take k (s.heap.tryUnwrap a).1]
        ⟨(s.heap.tryUnwrap a).2, s.references.remove k⟩
  | drop {s : Shared K V} {k : K} {x : Ref} (hk : s.references.get k = some x) :
      Step s [.drop k] ⟨s.heap.drop x.address, s.references.remove k⟩

/-- Where the references lead to. -/
def owners (references : OrdMap K Ref) : List ℕ :=
  references.entries.map fun e => e.2.address

/-- Each allocation counts its owners, and an owner that writes is alone. -/
structure Sound (s : Shared K V) : Prop where
  counted : s.heap.Counted (owners s.references)
  alone : ∀ k k' a b, s.references.get k = some ⟨a, true⟩ →
    s.references.get k' = some ⟨a, b⟩ → k' = k

/-- What each owner reads. -/
def view (s : Shared K V) (k : K) : Option V :=
  (s.references.get k).bind fun x => s.heap.deref x.address

variable {s s' : Shared K V} {references : OrdMap K Ref} {k k' : K} {x : Ref}
  {o : List (Action K V)} {a : ℕ}

/-- A new reference is one more owner of its allocation. -/
theorem owners_insert (hk : references.get k = none) :
    (owners (references.insert k x)).Perm (x.address :: owners references) :=
  (OrdMap.entries_insert_perm hk x).map _

/-- A replaced reference owns what the new one refers to. -/
theorem owners_insert_remove :
    (owners (references.insert k x)).Perm (x.address :: owners (references.remove k)) :=
  (OrdMap.entries_insert_perm_remove references k x).map _

/-- A removed reference no longer owns its allocation. -/
theorem owners_remove (hk : references.get k = some x) :
    (owners references).Perm (x.address :: owners (references.remove k)) :=
  (OrdMap.entries_remove_perm hk).map _

/-- A reference that is held owns its allocation. -/
theorem mem_owners (hk : references.get k = some x) : x.address ∈ owners references :=
  List.mem_map.mpr ⟨(k, x), OrdMap.mem_entries.mpr hk, rfl⟩

/-- The owned addresses are those of the references that are held. -/
theorem mem_owners_iff : a ∈ owners references ↔ ∃ k b, references.get k = some ⟨a, b⟩ := by
  constructor
  · intro h
    obtain ⟨⟨k, ⟨a', b⟩⟩, hmem, rfl⟩ := List.mem_map.mp h
    exact ⟨k, b, OrdMap.mem_entries.mp hmem⟩
  · rintro ⟨k, b, hk⟩
    exact mem_owners hk

/-- An allocation that counts one reference has one owner. -/
theorem eq_of_count (hk : references.get k = some x) (hcount : (owners references).count a = 1)
    (hx : x.address = a) {x' : Ref} (hk' : references.get k' = some x')
    (hx' : x'.address = a) : k' = k := by
  by_contra hne
  have hmem : a ∈ owners (references.remove k) := by
    rw [← hx']
    exact mem_owners (OrdMap.get_remove_eq_some.mpr ⟨hne, hk'⟩)
  rw [(owners_remove hk).count_eq, hx, List.count_cons_self] at hcount
  have hpos := List.count_pos_iff.mpr hmem
  omega

/-- An owner reads the same when neither its reference nor what that leads to changes. -/
theorem view_eq (hget : s'.references.get k = s.references.get k)
    (hderef : ∀ x, s.references.get k = some x →
      s'.heap.deref x.address = s.heap.deref x.address) : s'.view k = s.view k := by
  unfold view
  rw [hget]
  cases hk : s.references.get k with
  | none => rfl
  | some x => exact hderef x hk

/-- Who has a reference sees the value it refers to. -/
theorem view_of_get (hk : s.references.get k = some x) : s.view k = s.heap.deref x.address := by
  rw [view, hk, Option.bind_some]

/-- Who has no reference sees nothing. -/
theorem view_eq_none (hk : s.references.get k = none) : s.view k = none := by
  rw [view, hk, Option.bind_none]

namespace Sound

/-- Without references the counts are right. -/
theorem new : (empty : Shared K V).Sound := ⟨Counts.empty, nofun⟩

/-- What an owner refers to is there. -/
theorem exists_cell (h : s.Sound) (hk : s.references.get k = some x) :
    ∃ c, s.heap.cells.get x.address = some c ∧
      c.strong = (owners s.references).count x.address :=
  h.counted.exists_cell (mem_owners hk)

/-- Who has a reference sees some value. -/
theorem exists_view (h : s.Sound) (hk : s.references.get k = some x) :
    ∃ v, s.view k = some v := by
  obtain ⟨c, hget, -⟩ := h.exists_cell hk
  exact ⟨c.value, by rw [view_of_get hk, SharedHeap.deref, hget, Option.map_some]⟩

/-- A reference that is held does not refer to a free address. -/
theorem ne_of_free (h : s.Sound) (hk : s.references.get k = some x)
    (ha : s.heap.cells.get a = none) : x.address ≠ a := by
  rintro rfl
  obtain ⟨c, hget, -⟩ := h.exists_cell hk
  rw [ha] at hget
  cases hget

/-- A value at a free address for an owner without a reference. -/
theorem allocate (h : s.Sound) (hk : s.references.get k = none)
    (ha : s.heap.cells.get a = none) (v : V) (b : Bool) :
    Sound ⟨s.heap.new a v, s.references.insert k ⟨a, b⟩⟩ ∧
      view ⟨s.heap.new a v, s.references.insert k ⟨a, b⟩⟩
        = Function.update s.view k (some v) := by
  have hne : ∀ {k' x}, s.references.get k' = some x → x.address ≠ a :=
    fun hk' => h.ne_of_free hk' ha
  refine ⟨⟨(h.counted.new ha v).perm (owners_insert (x := ⟨a, b⟩) hk).symm, ?_⟩, ?_⟩
  · intro k₁ k₂ a' b' h₁ h₂
    simp only [OrdMap.get_insert] at h₁ h₂
    split at h₁ <;> split at h₂
    · simp_all
    · cases h₁
      exact absurd rfl (hne h₂)
    · cases h₂
      exact absurd rfl (hne h₁)
    · exact h.alone k₁ k₂ a' b' h₁ h₂
  · funext k'
    by_cases hk' : k' = k
    · subst hk'
      rw [Function.update_self, view_of_get (x := ⟨a, b⟩) (by simp), SharedHeap.deref_new,
        if_pos rfl]
    · rw [Function.update_of_ne hk']
      refine view_eq ?_ fun x hx => ?_
      · simp [hk']
      · rw [SharedHeap.deref_new, if_neg (hne hx)]

/-- A reference is given up. -/
theorem remove (h : s.Sound) (hk : s.references.get k = some x) :
    Sound ⟨s.heap.drop x.address, s.references.remove k⟩ ∧
      view ⟨s.heap.drop x.address, s.references.remove k⟩ = Function.update s.view k none := by
  have hcounted := h.counted.perm (owners_remove hk)
  refine ⟨⟨hcounted.drop, ?_⟩, ?_⟩
  · intro k₁ k₂ a b h₁ h₂
    exact h.alone k₁ k₂ a b (OrdMap.get_remove_eq_some.mp h₁).2 (OrdMap.get_remove_eq_some.mp h₂).2
  · funext k'
    by_cases hk' : k' = k
    · subst hk'
      rw [Function.update_self]
      exact view_eq_none (by simp)
    · rw [Function.update_of_ne hk']
      refine view_eq (by simp [hk']) fun x' hx' => ?_
      exact SharedHeap.deref_drop hcounted
        (mem_owners (OrdMap.get_remove_eq_some.mpr ⟨hk', hx'⟩))

/-- Another owner gets a reference to the same value. -/
theorem clone (h : s.Sound) (hk : s.references.get k = some ⟨a, false⟩)
    (hk' : s.references.get k' = none) :
    Sound ⟨s.heap.clone a, s.references.insert k' ⟨a, false⟩⟩ ∧
      view ⟨s.heap.clone a, s.references.insert k' ⟨a, false⟩⟩
        = Function.update s.view k' (s.view k) := by
  refine ⟨⟨?_, ?_⟩, ?_⟩
  · exact (h.counted.clone (mem_owners hk)).perm (owners_insert (x := ⟨a, false⟩) hk').symm
  · intro k₁ k₂ a' b' h₁ h₂
    simp only [OrdMap.get_insert] at h₁ h₂
    split at h₁
    · cases h₁
    · split at h₂
      · -- who writes the value has not given a reference away
        cases h₂
        obtain rfl := h.alone k₁ k _ false h₁ hk
        rw [hk] at h₁
        cases h₁
      · exact h.alone k₁ k₂ a' b' h₁ h₂
  · funext k''
    by_cases hk'' : k'' = k'
    · subst hk''
      rw [Function.update_self, view_of_get (x := ⟨a, false⟩) (by simp), view_of_get hk]
      exact SharedHeap.deref_clone a
    · rw [Function.update_of_ne hk'']
      exact view_eq (by simp [hk'']) fun x _ => SharedHeap.deref_clone x.address

/-- A reference goes to another owner. -/
theorem move (h : s.Sound) (hk : s.references.get k = some ⟨a, false⟩)
    (hk' : s.references.get k' = none) :
    Sound ⟨s.heap, (s.references.remove k).insert k' ⟨a, false⟩⟩ ∧
      view ⟨s.heap, (s.references.remove k).insert k' ⟨a, false⟩⟩
        = Function.update (Function.update s.view k none) k' (s.view k) := by
  have hnone : (s.references.remove k).get k' = none := by
    rw [OrdMap.get_remove, hk', ite_self]
  have hne : k ≠ k' := by
    rintro rfl
    rw [hk] at hk'
    cases hk'
  refine ⟨⟨?_, ?_⟩, ?_⟩
  · exact h.counted.perm ((owners_remove hk).trans (owners_insert (x := ⟨a, false⟩) hnone).symm)
  · intro k₁ k₂ a' b' h₁ h₂
    simp only [OrdMap.get_insert, OrdMap.get_remove] at h₁ h₂
    split at h₁
    · cases h₁
    · split at h₁
      · cases h₁
      · split at h₂
        · cases h₂
          obtain rfl := h.alone k₁ k _ false h₁ hk
          rw [hk] at h₁
          cases h₁
        · split at h₂
          · cases h₂
          · exact h.alone k₁ k₂ a' b' h₁ h₂
  · funext k''
    by_cases hk'' : k'' = k'
    · subst hk''
      rw [Function.update_self, view_of_get (x := ⟨a, false⟩) (by simp), view_of_get hk]
    · rw [Function.update_of_ne hk'']
      by_cases hk₁ : k'' = k
      · subst hk₁
        rw [Function.update_self]
        exact view_eq_none (by simp [hk''])
      · rw [Function.update_of_ne hk₁]
        exact view_eq (by simp [hk'', hk₁]) fun _ _ => rfl

/-- An owner writes. -/
theorem write (h : s.Sound) (hk : s.references.get k = some ⟨a, true⟩) (v : V) :
    Sound ⟨s.heap.set a v, s.references⟩ ∧
      view ⟨s.heap.set a v, s.references⟩ = Function.update s.view k (some v) := by
  obtain ⟨c, hget, -⟩ := h.exists_cell hk
  refine ⟨⟨h.counted.set, h.alone⟩, ?_⟩
  funext k'
  by_cases hk' : k' = k
  · subst hk'
    rw [Function.update_self]
    show (s.references.get k').bind (fun x => (s.heap.set a v).deref x.address) = some v
    rw [hk, Option.bind_some, SharedHeap.deref_set hget, if_pos rfl]
  · rw [Function.update_of_ne hk']
    refine view_eq rfl fun x hx => ?_
    rw [SharedHeap.deref_set hget, if_neg]
    -- nobody else refers to what is written
    obtain ⟨b, borrowed⟩ := x
    rintro rfl
    exact hk' (h.alone k k' b borrowed hk hx)

/-- A writer is done. -/
theorem release (h : s.Sound) (hk : s.references.get k = some ⟨a, true⟩) :
    Sound ⟨s.heap, s.references.insert k ⟨a, false⟩⟩ ∧
      view ⟨s.heap, s.references.insert k ⟨a, false⟩⟩ = s.view := by
  refine ⟨⟨?_, ?_⟩, ?_⟩
  · refine h.counted.perm ((owners_remove hk).trans ?_)
    exact (owners_insert_remove (x := ⟨a, false⟩)).symm
  · intro k₁ k₂ a' b' h₁ h₂
    simp only [OrdMap.get_insert] at h₁ h₂
    split at h₁
    · cases h₁
    · split at h₂
      · rename_i hne heq
        cases h₂
        exact absurd (h.alone k k₁ _ true hk h₁) hne
      · exact h.alone k₁ k₂ a' b' h₁ h₂
  · funext k'
    by_cases hk' : k' = k
    · subst hk'
      rw [view_of_get (x := ⟨a, false⟩) (by simp), view_of_get hk]
    · exact view_eq (by simp [hk']) fun _ _ => rfl

/-- **An owner becomes a writer**: of the value where it is if nobody else has it, and else of a
    copy. -/
theorem mutate (h : s.Sound) (hk : s.references.get k = some ⟨a, false⟩) {free : ℕ}
    (hfree : s.heap.cells.get free = none) :
    Sound ⟨(s.heap.makeMut a free).2, s.references.insert k ⟨(s.heap.makeMut a free).1, true⟩⟩ ∧
      view ⟨(s.heap.makeMut a free).2, s.references.insert k ⟨(s.heap.makeMut a free).1, true⟩⟩
        = s.view := by
  obtain ⟨c, hget, hstrong⟩ := h.exists_cell hk
  by_cases hone : c.strong = 1
  · have hmake : s.heap.makeMut a free = (a, s.heap) := by
      simp only [SharedHeap.makeMut, hget, if_pos hone]
    rw [hmake]
    have halone : ∀ k' b, s.references.get k' = some ⟨a, b⟩ → k' = k := fun k' b hk' =>
      eq_of_count hk (hstrong.symm.trans hone) rfl hk' rfl
    refine ⟨⟨?_, ?_⟩, ?_⟩
    · refine h.counted.perm ((owners_remove hk).trans ?_)
      exact (owners_insert_remove (x := ⟨a, true⟩)).symm
    · intro k₁ k₂ a' b' h₁ h₂
      simp only [OrdMap.get_insert] at h₁ h₂
      split at h₁ <;> split at h₂
      · simp_all
      · cases h₁
        rename_i heq _
        rw [heq]
        exact halone k₂ b' h₂
      · cases h₂
        rename_i hne _
        exact absurd (halone k₁ true h₁) hne
      · exact h.alone k₁ k₂ a' b' h₁ h₂
    · funext k'
      by_cases hk' : k' = k
      · subst hk'
        rw [view_of_get (x := ⟨a, true⟩) (by simp), view_of_get hk]
      · exact view_eq (by simp [hk']) fun _ _ => rfl
  · have hmake : s.heap.makeMut a free = (free, (s.heap.drop a).new free c.value) := by
      simp only [SharedHeap.makeMut, hget, if_neg hone]
    -- the reference is given up for one to a copy
    obtain ⟨hsound, hview⟩ := h.remove hk
    have hfree' : (s.heap.drop a).cells.get free = none := by
      have hne : free ≠ a := by
        rintro rfl
        rw [hfree] at hget
        cases hget
      simp only [SharedHeap.drop, hget, if_neg hone]
      rw [OrdMap.get_insert, if_neg hne, hfree]
    have hcopy := hsound.allocate (k := k) (by simp) hfree' c.value true
    rw [hmake, ← OrdMap.insert_remove]
    refine ⟨hcopy.1, hcopy.2.trans ?_⟩
    rw [hview, Function.update_idem]
    refine Function.update_eq_self_iff.mpr ?_
    rw [view_of_get hk, SharedHeap.deref, hget, Option.map_some]

/-- A reference is given up for the value. -/
theorem take (h : s.Sound) (hk : s.references.get k = some ⟨a, false⟩) :
    (Sound ⟨(s.heap.tryUnwrap a).2, s.references.remove k⟩ ∧
      view ⟨(s.heap.tryUnwrap a).2, s.references.remove k⟩ = Function.update s.view k none) ∧
    ∀ v ∈ (s.heap.tryUnwrap a).1, s.view k = some v := by
  obtain ⟨c, hget, -⟩ := h.exists_cell hk
  simp only [SharedHeap.tryUnwrap, hget]
  refine ⟨h.remove hk, ?_⟩
  intro v hv
  rw [view_of_get hk, SharedHeap.deref, hget, Option.map_some]
  split at hv
  · exact hv
  · cases hv

end Sound

/-- A writer stays where it is exactly when it is alone there. -/
theorem Sound.makeMut_eq_iff (h : s.Sound) (hk : s.references.get k = some ⟨a, false⟩) {free : ℕ}
    (hfree : s.heap.cells.get free = none) :
    (s.heap.makeMut a free).1 = a ↔ ∀ k' b, s.references.get k' = some ⟨a, b⟩ → k' = k := by
  obtain ⟨c, hget, hstrong⟩ := h.exists_cell hk
  have hne : free ≠ a := by
    rintro rfl
    rw [hfree] at hget
    cases hget
  simp only [SharedHeap.makeMut, hget]
  split
  · rename_i hone
    exact iff_of_true rfl fun k' b hk' =>
      eq_of_count hk (hstrong.symm.trans hone) rfl hk' rfl
  · rename_i hone
    refine iff_of_false hne fun halone => hone ?_
    -- the other references are none
    rw [hstrong, (owners_remove hk).count_eq, List.count_cons_self, Nat.add_eq_right]
    refine List.count_eq_zero_of_not_mem fun hmem => ?_
    obtain ⟨k', b, hk'⟩ := mem_owners_iff.mp hmem
    obtain ⟨hne', hk'⟩ := OrdMap.get_remove_eq_some.mp hk'
    exact hne' (halone k' b hk')

/-! ### Values -/

/-- One owner does something, where each has a value of its own. -/
inductive ValueStep : (K → Option V) → List (Action K V) → (K → Option V) → Prop where
  | new {m : K → Option V} {k : K} {v : V} (hk : m k = none) :
      ValueStep m [.new k v] (Function.update m k (some v))
  | clone {m : K → Option V} {k k' : K} {v : V} (hk : m k = some v) (hk' : m k' = none) :
      ValueStep m [.clone k k'] (Function.update m k' (some v))
  | move {m : K → Option V} {k k' : K} {v : V} (hk : m k = some v) (hk' : m k' = none) :
      ValueStep m [.move k k'] (Function.update (Function.update m k none) k' (some v))
  | mutate {m : K → Option V} {k : K} {v : V} (hk : m k = some v) : ValueStep m [.mutate k] m
  | write {m : K → Option V} {k : K} {u v : V} (hk : m k = some u) :
      ValueStep m [.write k v] (Function.update m k (some v))
  | release {m : K → Option V} {k : K} {v : V} (hk : m k = some v) : ValueStep m [.release k] m
  | read {m : K → Option V} {k : K} {v : V} (hk : m k = some v) : ValueStep m [.read k v] m
  | take {m : K → Option V} {k : K} {v : V} {r : Option V} (hk : m k = some v)
      (hr : ∀ w ∈ r, w = v) : ValueStep m [.take k r] (Function.update m k none)
  | drop {m : K → Option V} {k : K} {v : V} (hk : m k = some v) :
      ValueStep m [.drop k] (Function.update m k none)

/-- **What an owner does with a reference it could do with a value.** -/
theorem Sound.step (h : s.Sound) (hstep : Step s o s') :
    s'.Sound ∧ ValueStep s.view o s'.view := by
  cases hstep with
  | @new k v a hk ha =>
    obtain ⟨hsound, hview⟩ := h.allocate hk ha v false
    exact ⟨hsound, hview ▸ .new (view_eq_none hk)⟩
  | clone hk hk' =>
    obtain ⟨v, hv⟩ := h.exists_view hk
    obtain ⟨hsound, hview⟩ := h.clone hk hk'
    rw [hv] at hview
    exact ⟨hsound, hview ▸ .clone hv (view_eq_none hk')⟩
  | move hk hk' =>
    obtain ⟨v, hv⟩ := h.exists_view hk
    obtain ⟨hsound, hview⟩ := h.move hk hk'
    rw [hv] at hview
    exact ⟨hsound, hview ▸ .move hv (view_eq_none hk')⟩
  | mutate hk hfree =>
    obtain ⟨v, hv⟩ := h.exists_view hk
    obtain ⟨hsound, hview⟩ := h.mutate hk hfree
    exact ⟨hsound, by rw [hview]; exact .mutate hv⟩
  | @write k v a hk =>
    obtain ⟨u, hu⟩ := h.exists_view hk
    obtain ⟨hsound, hview⟩ := h.write hk v
    exact ⟨hsound, hview ▸ .write hu⟩
  | release hk =>
    obtain ⟨v, hv⟩ := h.exists_view hk
    obtain ⟨hsound, hview⟩ := h.release hk
    exact ⟨hsound, by rw [hview]; exact .release hv⟩
  | read hk hv => exact ⟨h, .read (by rw [view_of_get hk, hv])⟩
  | take hk =>
    obtain ⟨v, hv⟩ := h.exists_view hk
    obtain ⟨⟨hsound, hview⟩, htaken⟩ := h.take hk
    refine ⟨hsound, hview ▸ .take hv fun w hw => ?_⟩
    exact Option.some.inj ((htaken w hw).symm.trans hv)
  | drop hk =>
    obtain ⟨v, hv⟩ := h.exists_view hk
    obtain ⟨hsound, hview⟩ := h.remove hk
    exact ⟨hsound, hview ▸ .drop hv⟩

/-- **A run on shared cells is one on values**, with the same actions. -/
theorem Sound.run (h : s.Sound) (hrun : Run Step s o s') :
    s'.Sound ∧ Run ValueStep s.view o s'.view :=
  hrun.simulate view (fun hs hstep => hs.step hstep) h

/-! ### Owners that do not share among themselves -/

/-- An action that makes none of certain owners share with another one of them. -/
def Action.KeepsApart (p : K → Prop) : Action K V → Prop
  | .clone _ k' => ¬ p k'
  | .move k k' => p k' → p k
  | _ => True

/-- Certain owners have an allocation each. -/
def Apart (p : K → Prop) (s : Shared K V) : Prop :=
  ∀ k k' a b b', p k → p k' → s.references.get k = some ⟨a, b⟩ →
    s.references.get k' = some ⟨a, b'⟩ → k' = k

section Apart

variable {p : K → Prop}

/-- Without references nothing is shared. -/
theorem Apart.empty : Apart p (empty : Shared K V) := nofun

/-- One of these owners gets a reference that no other one of them has. -/
theorem Apart.insert {heap : SharedHeap V} (h : Apart p s) {b : Bool}
    (hother : ∀ k' b', p k' → k' ≠ k → s.references.get k' ≠ some ⟨a, b'⟩) :
    Apart p ⟨heap, s.references.insert k ⟨a, b⟩⟩ := by
  intro k₁ k₂ a' b₁ b₂ hp₁ hp₂ h₁ h₂
  simp only [OrdMap.get_insert] at h₁ h₂
  split at h₁ <;> split at h₂
  · simp_all
  · rename_i hne
    cases h₁
    exact absurd h₂ (hother k₂ b₂ hp₂ hne)
  · rename_i hne _
    cases h₂
    exact absurd h₁ (hother k₁ b₁ hp₁ hne)
  · exact h k₁ k₂ a' b₁ b₂ hp₁ hp₂ h₁ h₂

/-- These owners keep apart when a reference is given up. -/
theorem Apart.remove {heap : SharedHeap V} (h : Apart p s) (k : K) :
    Apart p ⟨heap, s.references.remove k⟩ := by
  intro k₁ k₂ a b₁ b₂ hp₁ hp₂ h₁ h₂
  exact h k₁ k₂ a b₁ b₂ hp₁ hp₂ (OrdMap.get_remove_eq_some.mp h₁).2
    (OrdMap.get_remove_eq_some.mp h₂).2

/-- An owner outside gets a reference. -/
theorem Apart.insert_other {heap : SharedHeap V} (h : Apart p s) (hk : ¬ p k) :
    Apart p ⟨heap, s.references.insert k x⟩ := by
  intro k₁ k₂ a b₁ b₂ hp₁ hp₂ h₁ h₂
  have hne : ∀ {k'}, p k' → k' ≠ k := by
    rintro k' hp rfl
    exact hk hp
  simp only [OrdMap.get_insert, if_neg (hne hp₁), if_neg (hne hp₂)] at h₁ h₂
  exact h k₁ k₂ a b₁ b₂ hp₁ hp₂ h₁ h₂

/-- A step that makes none of them share keeps them apart. -/
theorem Apart.step (h : Apart p s) (hs : s.Sound) (hstep : Step s o s')
    (ho : ∀ x ∈ o, x.KeepsApart p) : Apart p s' := by
  cases hstep with
  | new _ ha => exact h.insert fun _ _ _ _ hk' => hs.ne_of_free hk' ha rfl
  | clone _ _ => exact h.insert_other (ho _ (List.mem_singleton.mpr rfl))
  | @move k k' a hk _ =>
    have hremoved : Apart p ⟨s.heap, s.references.remove k⟩ := h.remove k
    by_cases hp : p k'
    · refine hremoved.insert fun k₁ b₁ hp₁ _ h₁ => ?_
      obtain ⟨hne, h₁⟩ := OrdMap.get_remove_eq_some.mp h₁
      exact hne (h k k₁ a false b₁ (ho _ (List.mem_singleton.mpr rfl) hp) hp₁ hk h₁)
    · exact hremoved.insert_other hp
  | @mutate k a free hk hfree =>
    refine h.insert fun k₁ b₁ hp₁ hne h₁ => ?_
    obtain ⟨c, hget, hstrong⟩ := hs.exists_cell hk
    simp only [SharedHeap.makeMut, hget] at h₁
    split at h₁
    · rename_i hone
      exact hne (eq_of_count hk (hstrong.symm.trans hone) rfl h₁ rfl)
    · exact hs.ne_of_free h₁ hfree rfl
  | write _ => exact h
  | @release k a hk =>
    exact h.insert fun k₁ b₁ _ hne h₁ => hne (hs.alone k k₁ a b₁ hk h₁)
  | read _ _ => exact h
  | take _ => exact h.remove _
  | drop _ => exact h.remove _

/-- They stay apart over a run of such steps. -/
theorem Apart.run (h : Apart p s) (hs : s.Sound) (hrun : Run Step s o s')
    (ho : ∀ x ∈ o, x.KeepsApart p) : Apart p s' := by
  refine (hrun.preserves_of_mem (P := fun s => s.Sound ∧ Apart p s) ?_ ho ⟨hs, h⟩).2
  rintro s o s' hstep ho ⟨hs, h⟩
  exact ⟨(hs.step hstep).1, h.step hs hstep ho⟩

end Apart

/-! ### Owners that nothing happens to -/

/-- The action changes the value of the owner, where each has one of its own. -/
def Action.Changes (k : K) : Action K V → Prop
  | .new k' _ => k' = k
  | .clone _ k' => k' = k
  | .move k' k'' => k' = k ∨ k'' = k
  | .write k' _ => k' = k
  | .take k' _ => k' = k
  | .drop k' => k' = k
  | _ => False

/-- A step is one action. -/
theorem ValueStep.length_eq {m m' : K → Option V} (h : ValueStep m o m') : o.length = 1 := by
  cases h <;> rfl

/-- A step that changes the value of others leaves the value of the owner. -/
theorem ValueStep.unchanged {m m' : K → Option V} (h : ValueStep m o m')
    (ho : ∀ x ∈ o, ¬ x.Changes k) : m' k = m k := by
  cases h with
  | new _ => exact Function.update_of_ne (Ne.symm (ho _ (List.mem_singleton.mpr rfl))) ..
  | clone _ _ => exact Function.update_of_ne (Ne.symm (ho _ (List.mem_singleton.mpr rfl))) ..
  | move _ _ =>
    obtain ⟨hne, hne'⟩ := not_or.mp (ho _ (List.mem_singleton.mpr rfl))
    rw [Function.update_of_ne (Ne.symm hne'), Function.update_of_ne (Ne.symm hne)]
  | write _ => exact Function.update_of_ne (Ne.symm (ho _ (List.mem_singleton.mpr rfl))) ..
  | take _ _ => exact Function.update_of_ne (Ne.symm (ho _ (List.mem_singleton.mpr rfl))) ..
  | drop _ => exact Function.update_of_ne (Ne.symm (ho _ (List.mem_singleton.mpr rfl))) ..
  | _ => rfl

end Shared

end Cozal
