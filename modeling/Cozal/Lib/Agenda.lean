import Cozal.Lib.OrdMap
import Cozal.Lib.Run

namespace Cozal

/-!
# Agendas

An agenda is a map of entries by key from which the entry of the least key is handled.  An
action adds an entry, drops one, or handles the first one; nothing else changes an agenda.

* `Agenda.Step` — one action, with the word of it.
* `Agenda.fate` — when no key is added twice, the entries added so far are, each once, those
  on the agenda, those dropped and those handled.
* `Agenda.handled_sorted` — when no key is added below one that has been handled, entries are
  handled in the order of their keys.
-/

namespace Agenda

variable {K V : Type} [LinearOrder K]

/-- An action on an agenda. -/
inductive Action (K V : Type) where
  | add (entry : K × V)
  | drop (entry : K × V)
  | handle (entry : K × V)

/-- The entry an action adds. -/
def Action.added? : Action K V → Option (K × V)
  | .add e => some e
  | _ => none

/-- The entry an action drops. -/
def Action.dropped? : Action K V → Option (K × V)
  | .drop e => some e
  | _ => none

/-- The entry an action handles. -/
def Action.handled? : Action K V → Option (K × V)
  | .handle e => some e
  | _ => none

/-- The entries added, in order. -/
def added (as : List (Action K V)) : List (K × V) := as.filterMap Action.added?

/-- The entries dropped, in order. -/
def dropped (as : List (Action K V)) : List (K × V) := as.filterMap Action.dropped?

/-- The entries handled, in order. -/
def handled (as : List (Action K V)) : List (K × V) := as.filterMap Action.handled?

/-- One action, or none. -/
inductive Step : OrdMap K V → List (Action K V) → OrdMap K V → Prop where
  | none (m : OrdMap K V) : Step m [] m
  | add (m : OrdMap K V) (k : K) (v : V) : Step m [.add (k, v)] (m.insert k v)
  | drop {m : OrdMap K V} {k : K} {v : V} :
      m.get k = some v → Step m [.drop (k, v)] (m.remove k)
  | handle {m : OrdMap K V} {k : K} {v : V} :
      m.getFirst = some (k, v) → Step m [.handle (k, v)] (m.remove k)

/-! ### The fate of an entry -/

/-- **Every entry has one fate.**  The entries there were and those added are, each once, the
    entries there are, those dropped and those handled. -/
theorem fate {m m' : OrdMap K V} {as : List (Action K V)} (h : Run Step m as m')
    (hnodup : ((m.entries ++ added as).map Prod.fst).Nodup) :
    (m.entries ++ added as).Perm (m'.entries ++ (dropped as ++ handled as)) := by
  induction h with
  | refl m => simp [added, dropped, handled]
  | @head m m₁ m' a as hstep hrun ih =>
    cases hstep with
    | none => exact ih hnodup
    | add k v =>
      have hadded : added ([.add (k, v)] ++ as) = (k, v) :: added as := rfl
      rw [hadded] at hnodup ⊢
      -- the new key is none of those there are
      have hfresh : m.get k = none := by
        rw [Option.eq_none_iff_forall_ne_some]
        intro w hw
        have hmem : k ∈ m.entries.map Prod.fst :=
          List.mem_map.mpr ⟨(k, w), OrdMap.mem_entries.mpr hw, rfl⟩
        rw [List.map_append, List.nodup_append] at hnodup
        exact hnodup.2.2 k hmem k (by simp) rfl
      have hperm := OrdMap.entries_insert_perm hfresh v
      have hmove : (m.entries ++ (k, v) :: added as).Perm
          ((m.insert k v).entries ++ added as) :=
        List.perm_middle.trans (hperm.symm.append_right _)
      exact hmove.trans (ih ((hmove.map _).nodup_iff.mp hnodup))
    | @drop k v hk =>
      have hadded : added ([.drop (k, v)] ++ as) = added as := rfl
      have hdropped : dropped ([.drop (k, v)] ++ as) = (k, v) :: dropped as := rfl
      have hhandled : handled ([.drop (k, v)] ++ as) = handled as := rfl
      rw [hadded] at hnodup ⊢
      rw [hdropped, hhandled]
      have hmove := (OrdMap.entries_remove_perm hk).append_right (added as)
      have hrest := ih (List.nodup_cons.mp ((hmove.map _).nodup_iff.mp hnodup)).2
      refine (hmove.trans (hrest.cons _)).trans ?_
      exact List.perm_middle.symm
    | @handle k v hk =>
      have hadded : added ([.handle (k, v)] ++ as) = added as := rfl
      have hdropped : dropped ([.handle (k, v)] ++ as) = dropped as := rfl
      have hhandled : handled ([.handle (k, v)] ++ as) = (k, v) :: handled as := rfl
      rw [hadded] at hnodup ⊢
      rw [hdropped, hhandled]
      have hget : m.get k = some v := (OrdMap.getFirst_eq_some hk).1
      have hmove := (OrdMap.entries_remove_perm hget).append_right (added as)
      have hrest := ih (List.nodup_cons.mp ((hmove.map _).nodup_iff.mp hnodup)).2
      refine (hmove.trans (hrest.cons _)).trans ?_
      rw [← List.append_assoc, ← List.append_assoc]
      exact List.perm_middle.symm

/-! ### The order of handling -/

/-- What is on the agenda was there or has been added. -/
theorem mem_of_get {m m' : OrdMap K V} {as : List (Action K V)} (h : Run Step m as m')
    {k : K} {v : V} (hk : m'.get k = some v) : m.get k = some v ∨ (k, v) ∈ added as := by
  induction h with
  | refl m => exact Or.inl hk
  | @head m m₁ m' a as hstep hrun ih =>
    rcases ih hk with h | h
    · cases hstep with
      | none => exact Or.inl h
      | add k' v' =>
        rw [OrdMap.get_insert] at h
        by_cases heq : k = k'
        · rw [if_pos heq, Option.some.injEq] at h
          exact Or.inr (by rw [heq, ← h]; exact List.mem_cons_self)
        · rw [if_neg heq] at h
          exact Or.inl h
      | drop hk' | handle hk' =>
        exact Or.inl (OrdMap.get_remove_eq_some.mp h).2
    · refine Or.inr ?_
      rw [added, List.filterMap_append]
      exact List.mem_append_right _ h

/-- What is handled was there or has been added. -/
theorem mem_of_handled {m m' : OrdMap K V} {as : List (Action K V)} (h : Run Step m as m')
    {k : K} {v : V} (hk : (k, v) ∈ handled as) :
    m.get k = some v ∨ (k, v) ∈ added as := by
  induction h with
  | refl m => cases hk
  | @head m m₁ m' a as hstep hrun ih =>
    cases hstep with
    | none => exact ih hk
    | add k' v' =>
      rcases ih hk with h | h
      · rw [OrdMap.get_insert] at h
        by_cases heq : k = k'
        · subst heq
          rw [if_pos rfl, Option.some.injEq] at h
          subst h
          exact Or.inr List.mem_cons_self
        · rw [if_neg heq] at h
          exact Or.inl h
      · exact Or.inr (List.mem_cons_of_mem _ h)
    | @drop k' v' hk' =>
      rcases ih hk with h | h
      · exact Or.inl (OrdMap.get_remove_eq_some.mp h).2
      · exact Or.inr h
    | @handle k' v' hk' =>
      rcases List.mem_cons.mp hk with heq | hk
      · cases heq
        exact Or.inl (OrdMap.getFirst_eq_some hk').1
      · rcases ih hk with h | h
        · exact Or.inl (OrdMap.get_remove_eq_some.mp h).2
        · exact Or.inr h

/-- No key is added below one that was handled before. -/
def AddsAbove (as : List (Action K V)) : Prop :=
  as.Pairwise (fun a b => ∀ e ∈ a.handled?, ∀ e' ∈ b.added?, e.1 < e'.1)

/-- **Entries are handled in the order of their keys.** -/
theorem handled_sorted {m m' : OrdMap K V} {as : List (Action K V)} (h : Run Step m as m')
    (habove : AddsAbove as) : (handled as).Pairwise (fun e e' => e.1 < e'.1) := by
  induction h with
  | refl m => exact List.Pairwise.nil
  | @head m m₁ m' a as hstep hrun ih =>
    cases hstep with
    | none => exact ih habove
    | add k v => exact ih (List.pairwise_cons.mp habove).2
    | drop _ => exact ih (List.pairwise_cons.mp habove).2
    | @handle k v hk =>
      obtain ⟨hfirst, hrest⟩ := List.pairwise_cons.mp habove
      have hhandled : handled ([.handle (k, v)] ++ as) = (k, v) :: handled as := rfl
      rw [hhandled, List.pairwise_cons]
      refine ⟨?_, ih hrest⟩
      rintro ⟨k', v'⟩ hk'
      rcases mem_of_handled hrun hk' with h | h
      · -- it was there already, and `k` is the least key there was
        obtain ⟨hne, hk'⟩ := OrdMap.get_remove_eq_some.mp h
        exact lt_of_le_of_ne ((OrdMap.getFirst_eq_some hk).2 k' v' hk') (Ne.symm hne)
      · -- it was added later, so above `k`
        obtain ⟨b, hb, hbk⟩ := List.mem_filterMap.mp h
        exact hfirst b hb (k, v) rfl (k', v') hbk

end Agenda

end Cozal
