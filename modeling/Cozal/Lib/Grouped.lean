import Mathlib.Data.List.Induction
import Cozal.Lib.OrdMap
import Cozal.Lib.SortedInsert

namespace Cozal

/-!
# Lists grouped by key

A list of pairs is grouped by a map from each key to its values, in the order of the list.

* `valuesAt` — the values of one key; nothing else of the order of a list matters for its groups.
* `Groups` — the map groups the list; `Groups.unique`, only one map does.
* `Groups.snoc`, `Groups.foldl` — one pair more goes to the end of its group, so pairs can be
  grouped one after the other.
* `Groups.flatten` — the groups, one after the other, are the list sorted by key, where pairs of one
  key keep their order; `eq_of_valuesAt`, only one list is.
-/

variable {K V : Type} [LinearOrder K]

/-- The values of a key, in the order of the list. -/
def valuesAt (l : List (K × V)) (k : K) : List V :=
  (l.filter fun e => decide (e.1 = k)).map Prod.snd

/-- The empty list has no values. -/
@[simp] theorem valuesAt_nil (k : K) : valuesAt ([] : List (K × V)) k = [] := rfl

/-- The values of two lists one after the other. -/
theorem valuesAt_append (l l' : List (K × V)) (k : K) :
    valuesAt (l ++ l') k = valuesAt l k ++ valuesAt l' k := by
  simp [valuesAt]

/-- The first pair gives a value when its key is the one asked for. -/
theorem valuesAt_cons (e : K × V) (l : List (K × V)) (k : K) :
    valuesAt (e :: l) k = if e.1 = k then e.2 :: valuesAt l k else valuesAt l k := by
  unfold valuesAt
  by_cases h : e.1 = k <;> simp [h]

/-- A key without values is not in the list. -/
theorem valuesAt_eq_nil {l : List (K × V)} {k : K} :
    valuesAt l k = [] ↔ ∀ e ∈ l, e.1 ≠ k := by
  simp [valuesAt]

/-- A condition on the keys keeps all values of a key or none. -/
theorem valuesAt_filter (l : List (K × V)) (p : K → Bool) (k : K) :
    valuesAt (l.filter fun e => p e.1) k = if p k then valuesAt l k else [] := by
  induction l with
  | nil => simp
  | cons e l ih =>
    rw [List.filter_cons]
    by_cases hk : e.1 = k
    · subst hk
      by_cases hp : p e.1 = true
      · rw [if_pos hp, valuesAt_cons, ih, if_pos hp, valuesAt_cons, if_pos hp]
      · rw [if_neg hp, ih, if_neg hp, if_neg hp]
    · split
      · rw [valuesAt_cons, if_neg hk, ih, valuesAt_cons, if_neg hk]
      · rw [ih, valuesAt_cons, if_neg hk]

/-- The map has the values of each key that occurs. -/
def Groups (m : OrdMap K (List V)) (l : List (K × V)) : Prop :=
  ∀ k, m.get k = if valuesAt l k = [] then none else some (valuesAt l k)

variable {m m' : OrdMap K (List V)} {l l' : List (K × V)}

namespace Groups

/-- The empty map groups the empty list. -/
theorem nil : Groups (.empty : OrdMap K (List V)) [] := fun _ => rfl

/-- A missing group stands for no values. -/
theorem getD (h : Groups m l) (k : K) : (m.get k).getD [] = valuesAt l k := by
  rw [h k]
  split
  · simp_all
  · rfl

/-- Lists with the same values for each key have the same groups. -/
theorem unique (h : Groups m l) (h' : Groups m' l') (heq : ∀ k, valuesAt l k = valuesAt l' k) :
    m = m' := by
  refine OrdMap.eq_of_get fun k => ?_
  rw [h k, h' k, heq k]

/-- Only the values of each key matter. -/
theorem congr (h : Groups m l) (heq : ∀ k, valuesAt l k = valuesAt l' k) : Groups m l' := by
  intro k
  rw [h k, heq k]

/-- A pair is appended to the list when its value is appended to the group of its key. -/
theorem snoc (h : Groups m l) (k : K) (v : V) :
    Groups (m.insert k ((m.get k).getD [] ++ [v])) (l ++ [(k, v)]) := by
  intro k'
  rw [OrdMap.get_insert, valuesAt_append, valuesAt_cons, valuesAt_nil]
  by_cases hk : k' = k
  · subst hk
    simp [h.getD k']
  · rw [if_neg hk, if_neg (Ne.symm hk), List.append_nil]
    exact h k'

/-- No group is empty. -/
theorem ne_nil (h : Groups m l) {g : K × List V} (hg : g ∈ m.entries) : g.2 ≠ [] := by
  have hget := h g.1
  rw [OrdMap.mem_entries.mp hg] at hget
  split at hget
  · cases hget
  · rename_i hne
    rw [Option.some.inj hget]
    exact hne

end Groups

/-- Add a pair to the end of its group. -/
def pushValue (m : OrdMap K (List V)) (e : K × V) : OrdMap K (List V) :=
  m.insert e.1 ((m.get e.1).getD [] ++ [e.2])

/-- Adding one pair after the other groups them. -/
theorem Groups.foldl (l : List (K × V)) : Groups (l.foldl pushValue .empty) l := by
  induction l using List.reverseRecOn with
  | nil => exact nil
  | append_singleton l e ih =>
    rw [List.foldl_append]
    exact ih.snoc e.1 e.2

/-- A pair with the last key goes to the end of the last group. -/
theorem pushValue_last {front : List (K × List V)} {k : K} {vs : List V}
    (h : m.entries = front ++ [(k, vs)]) (v : V) :
    (pushValue m (k, v)).entries = front ++ [(k, vs ++ [v])] := by
  have hget : m.get k = some vs := OrdMap.mem_entries.mp (by simp [h])
  have hsorted := m.sorted
  rw [h, List.pairwise_append] at hsorted
  have hfront : ∀ e ∈ front, e.1 < k := fun e he => hsorted.2.2 e he _ List.mem_cons_self
  show OrdMap.insertEntry k ((m.get k).getD [] ++ [v]) m.entries = _
  rw [hget, h, OrdMap.insertEntry_append hfront]
  simp [OrdMap.insertEntry]

/-- And one with a later key starts a group. -/
theorem pushValue_later {k : K} (h : ∀ e ∈ m.entries, e.1 < k) (v : V) :
    (pushValue m (k, v)).entries = m.entries ++ [(k, [v])] := by
  have hget : m.get k = none := by
    refine Option.eq_none_iff_forall_ne_some.mpr fun vs hvs => ?_
    exact lt_irrefl _ (h _ (OrdMap.mem_entries.mpr hvs))
  show OrdMap.insertEntry k ((m.get k).getD [] ++ [v]) m.entries = _
  have hinsert := OrdMap.insertEntry_append (v := (m.get k).getD [] ++ [v]) h []
  rw [List.append_nil] at hinsert
  rw [hinsert, hget]
  rfl

/-! ### One group after the other -/

/-- The pairs of a list of groups. -/
def ungroup (groups : List (K × List V)) : List (K × V) :=
  groups.flatMap fun g => g.2.map fun v => (g.1, v)

/-- The pairs of one group have the values of the group, under its key alone. -/
theorem valuesAt_group (k k' : K) (vs : List V) :
    valuesAt (vs.map fun v => (k, v)) k' = if k = k' then vs else [] := by
  induction vs with
  | nil => simp
  | cons v vs ih =>
    rw [List.map_cons, valuesAt_cons, ih]
    split <;> rfl

/-- Groups of other keys have no values under a key. -/
theorem valuesAt_ungroup {groups : List (K × List V)} {k : K}
    (h : ∀ g ∈ groups, g.1 ≠ k) : valuesAt (ungroup groups) k = [] := by
  rw [valuesAt_eq_nil]
  intro e he
  obtain ⟨g, hg, hv⟩ := List.mem_flatMap.mp he
  obtain ⟨v, -, rfl⟩ := List.mem_map.mp hv
  exact h g hg

/-- The groups of a map have the values that the map has. -/
theorem valuesAt_entries (m : OrdMap K (List V)) (k : K) :
    valuesAt (ungroup m.entries) k = (m.get k).getD [] := by
  cases hget : m.get k with
  | none =>
    refine valuesAt_ungroup ?_
    rintro ⟨k', g⟩ hmem rfl
    rw [OrdMap.mem_entries, hget] at hmem
    cases hmem
  | some g =>
    -- the groups before and after that of the key are those of other keys
    obtain ⟨front, back, hsplit⟩ := List.append_of_mem (OrdMap.mem_entries.mpr hget)
    have hsorted := m.sorted
    rw [hsplit, List.pairwise_append, List.pairwise_cons] at hsorted
    obtain ⟨-, ⟨hback, -⟩, hfront⟩ := hsorted
    have hnone : valuesAt (ungroup front) k = [] := valuesAt_ungroup fun x hx =>
      (hfront x hx _ List.mem_cons_self).ne
    have hnone' : valuesAt (ungroup back) k = [] := valuesAt_ungroup fun x hx => (hback x hx).ne'
    rw [hsplit, ungroup, List.flatMap_append, List.flatMap_cons, valuesAt_append, valuesAt_append,
      valuesAt_group, if_pos rfl]
    unfold ungroup at hnone hnone'
    rw [hnone, hnone', List.nil_append, List.append_nil]
    rfl

/-- The groups of a map give pairs with increasing keys. -/
theorem ungroup_sorted (m : OrdMap K (List V)) :
    (ungroup m.entries).Pairwise fun a b => a.1 ≤ b.1 := by
  rw [ungroup, List.pairwise_flatMap]
  constructor
  · intro g _
    rw [List.pairwise_map]
    exact List.pairwise_of_forall fun _ _ => le_rfl
  · refine m.sorted.imp ?_
    intro g g' hlt a ha b hb
    obtain ⟨v, -, rfl⟩ := List.mem_map.mp ha
    obtain ⟨v', -, rfl⟩ := List.mem_map.mp hb
    exact hlt.le

/-- **A sorted list is known by the values of its keys.** -/
theorem eq_of_valuesAt (hl : l.Pairwise fun a b => a.1 ≤ b.1)
    (hl' : l'.Pairwise fun a b => a.1 ≤ b.1) (h : ∀ k, valuesAt l k = valuesAt l' k) : l = l' := by
  induction l generalizing l' with
  | nil =>
    cases l' with
    | nil => rfl
    | cons x l' =>
      have hx := h x.1
      rw [valuesAt_nil, valuesAt_cons, if_pos rfl] at hx
      cases hx
  | cons x l ih =>
    cases l' with
    | nil =>
      have hx := h x.1
      rw [valuesAt_nil, valuesAt_cons, if_pos rfl] at hx
      cases hx
    | cons x' l' =>
      obtain ⟨hx, hrest⟩ := List.pairwise_cons.mp hl
      obtain ⟨hx', hrest'⟩ := List.pairwise_cons.mp hl'
      -- the first keys are the least ones, of the same keys
      have hle : ∀ {y y' : K × V} {r r' : List (K × V)}, (∀ e ∈ r', y'.1 ≤ e.1) →
          (∀ k, valuesAt (y :: r) k = valuesAt (y' :: r') k) → y'.1 ≤ y.1 := by
        intro y y' r r' hleast heq
        by_contra hnot
        have hne : valuesAt (y' :: r') y.1 = [] := by
          rw [valuesAt_eq_nil]
          intro e he hkey
          rcases List.mem_cons.mp he with rfl | he
          · exact hnot hkey.le
          · exact hnot (hkey ▸ hleast e he)
        rw [← heq, valuesAt_cons, if_pos rfl] at hne
        cases hne
      have hkey : x.1 = x'.1 := le_antisymm (hle hx fun k => (h k).symm) (hle hx' h)
      have hvalue := h x.1
      rw [valuesAt_cons, valuesAt_cons, if_pos rfl, if_pos hkey.symm] at hvalue
      obtain rfl : x = x' := Prod.ext hkey (List.cons.inj hvalue).1
      refine congrArg (x :: ·) (ih hrest hrest' fun k => ?_)
      have hk := h k
      rw [valuesAt_cons, valuesAt_cons] at hk
      split at hk
      · exact (List.cons.inj hk).2
      · exact hk

/-! ### Sorting -/

/-- A stable sort by key. -/
def sortByKey (l : List (K × V)) : List (K × V) := l.mergeSort fun a b => decide (a.1 ≤ b.1)

/-- Sorting rearranges the list. -/
theorem sortByKey_perm (l : List (K × V)) : (sortByKey l).Perm l := List.mergeSort_perm _ _

/-- The comparison by key is transitive. -/
theorem keyLe_trans (a b c : K × V) (hab : decide (a.1 ≤ b.1) = true)
    (hbc : decide (b.1 ≤ c.1) = true) : decide (a.1 ≤ c.1) = true := by
  simp only [decide_eq_true_eq] at hab hbc ⊢
  exact hab.trans hbc

/-- The comparison by key is total. -/
theorem keyLe_total (a b : K × V) : (decide (a.1 ≤ b.1) || decide (b.1 ≤ a.1)) = true := by
  simpa using le_total a.1 b.1

/-- The keys of a sorted list increase. -/
theorem sortByKey_sorted (l : List (K × V)) : (sortByKey l).Pairwise fun a b => a.1 ≤ b.1 := by
  refine (List.pairwise_mergeSort keyLe_trans keyLe_total l).imp ?_
  exact fun h => of_decide_eq_true h

/-- Pairs of one key keep their order. -/
theorem valuesAt_sortByKey (l : List (K × V)) (k : K) :
    valuesAt (sortByKey l) k = valuesAt l k := by
  let p : K × V → Bool := fun e => decide (e.1 = k)
  have hpair : (l.filter p).Pairwise fun a b => decide (a.1 ≤ b.1) = true := by
    refine List.pairwise_of_forall_mem_list fun a ha b hb => ?_
    simp only [p, List.mem_filter, decide_eq_true_eq] at ha hb ⊢
    rw [ha.2, hb.2]
  have hsub : (l.filter p).Sublist (sortByKey l) :=
    List.sublist_mergeSort keyLe_trans keyLe_total hpair List.filter_sublist
  have hfilter : (l.filter p).Sublist ((sortByKey l).filter p) := by
    have hself := hsub.filter p
    rwa [List.filter_filter, List.filter_congr fun e _ => Bool.and_self (p e)] at hself
  have heq := hfilter.eq_of_length ((sortByKey_perm l).filter p).length_eq.symm
  unfold valuesAt
  rw [← heq]

/-- Of a sorted list, what comes before a bound is what is not greater. -/
theorem takeWhile_sortByKey (l : List (K × V)) (k : K) :
    (sortByKey l).takeWhile (fun e => decide (e.1 ≤ k))
      = sortByKey (l.filter fun e => decide (e.1 ≤ k)) := by
  have hpart : Partitioned (fun e : K × V => decide (e.1 ≤ k)) (sortByKey l) := by
    refine (sortByKey_sorted l).imp ?_
    intro a b hab hb
    rw [decide_eq_true_eq] at hb ⊢
    exact hab.trans hb
  have hfilter : (sortByKey l).takeWhile (fun e => decide (e.1 ≤ k))
      = (sortByKey l).filter fun e => decide (e.1 ≤ k) := by
    conv_rhs => rw [← List.takeWhile_append_dropWhile (p := fun e : K × V => decide (e.1 ≤ k))
      (l := sortByKey l)]
    rw [List.filter_append, List.filter_eq_self.mpr fun e he =>
        List.mem_takeWhile_imp (p := fun e : K × V => decide (e.1 ≤ k)) he,
      List.filter_eq_nil_iff.mpr fun e he => by simp [hpart.dropWhile e he], List.append_nil]
  rw [hfilter]
  refine eq_of_valuesAt ((sortByKey_sorted l).filter _) (sortByKey_sorted _) fun k' => ?_
  rw [valuesAt_sortByKey, valuesAt_filter _ (fun k' => decide (k' ≤ k)),
    valuesAt_filter _ (fun k' => decide (k' ≤ k)), valuesAt_sortByKey]

/-- **The groups one after the other are the sorted list.** -/
theorem Groups.flatten (h : Groups m l) : ungroup m.entries = sortByKey l := by
  refine eq_of_valuesAt (ungroup_sorted m) (sortByKey_sorted l) fun k => ?_
  rw [valuesAt_entries, h.getD, valuesAt_sortByKey]

end Cozal
