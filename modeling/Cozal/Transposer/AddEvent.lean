import Cozal.Lib.Outcome
import Cozal.Lib.SortedInsert
import Cozal.Transposer.StepInputs
import Mathlib.Data.Sigma.Lex

namespace Cozal

open Transposer

/-!
# Adding input events

The events of one type are kept in a vector, and a new one is put at the partition point of a
comparison in which it stands on the left.  So the vector never ascends, and an event comes
before those it compares equal with.

* `StepInputsEntry.addInput`, `StepInputs.addEvent`, `StepInputs.addEvents` — add events.
* `StepInputs.addEvents_eventsOf` — what becomes of the events of one type.
* `StepInputs.addEvents_perm` — no event is lost or handled twice.
* `StepInputs.Keyed.events_pairwise` — the order in which all events are handled.
* `input_order_irrelevant` — it does not depend on the order of adding.
* `declared_order_iff` — when it is the declared one.
-/

variable {T : Type} [Transposer T]

/-! ### The methods -/

namespace StepInputsEntry

/-- An entry for the events of a type. -/
def new (inputType : Input T) : StepInputsEntry T := ⟨inputType, []⟩

/-- Add an event, which has to be of the type of the entry. -/
def addInput (e : StepInputsEntry T) (time : Time T) (input : Input T) (event : InputEvent input) :
    Outcome (StepInputsEntry T) :=
  if h : input = e.inputType then
    let event : InputEvent e.inputType := h ▸ event
    let i := partitionPoint
      (fun existing => (sortInputEvents time e.inputType event existing).isLT) e.values
    return { e with values := e.values.insertIdx i event }
  else .panic .inputType

/-- An event of the type of the entry is inserted among the others. -/
theorem addInput_same (time : Time T) (input : Input T) (values : List (InputEvent input))
    (event : InputEvent input) : (⟨input, values⟩ : StepInputsEntry T).addInput time input event
      = .ok ⟨input, insertDescending (sortInputEvents time input) values event⟩ := by
  simp only [addInput, dif_pos]
  rfl

/-- An event that could be added was of the type of the entry. -/
theorem addInput_ok {e e' : StepInputsEntry T} {time : Time T} {input : Input T}
    {event : InputEvent input} (h : e.addInput time input event = .ok e') :
    ∃ values, e = ⟨input, values⟩ ∧
      e' = ⟨input, insertDescending (sortInputEvents time input) values event⟩ := by
  obtain ⟨inputType, values⟩ := e
  by_cases heq : input = inputType
  · subst heq
    rw [addInput_same, Outcome.ok.injEq] at h
    exact ⟨values, rfl, h.symm⟩
  · rw [addInput, dif_neg heq] at h
    cases h

end StepInputsEntry

namespace StepInputs

/-- No input events. -/
def new (time : Time T) : StepInputs T := ⟨time, .empty⟩

/-- Add an event to the entry of its type. -/
def addEvent (i : StepInputs T) (event : AnyInputEvent T) : Outcome (StepInputs T) := do
  let entry := (i.inputs.get (sort event.1)).getD (.new event.1)
  let entry ← entry.addInput i.time event.1 event.2
  return { i with inputs := i.inputs.insert (sort event.1) entry }

/-- Add events one after the other. -/
def addEvents (i : StepInputs T) : List (AnyInputEvent T) → Outcome (StepInputs T)
  | [] => return i
  | event :: events => do
      let i ← i.addEvent event
      i.addEvents events

end StepInputs

/-! ### The events of one type -/

/-- The events of a type among events of any type. -/
def eventsOf (input : Input T) (events : List (AnyInputEvent T)) : List (InputEvent input) :=
  events.filterMap fun e => if h : e.1 = input then some (h ▸ e.2) else none

/-- An event of the type is one of its events. -/
theorem eventsOf_cons_same (input : Input T) (event : InputEvent input)
    (events : List (AnyInputEvent T)) :
    eventsOf input (⟨input, event⟩ :: events) = event :: eventsOf input events := by
  simp [eventsOf]

/-- An event of another type is none of its events. -/
theorem eventsOf_cons_ne {input : Input T} {event : AnyInputEvent T} (h : event.1 ≠ input)
    (events : List (AnyInputEvent T)) :
    eventsOf input (event :: events) = eventsOf input events := by
  simp [eventsOf, h]

/-- The events of a type in two lists, one after the other. -/
theorem eventsOf_append (input : Input T) (events events' : List (AnyInputEvent T)) :
    eventsOf input (events ++ events') = eventsOf input events ++ eventsOf input events' :=
  List.filterMap_append

namespace StepInputsEntry

/-- The events of an entry, with their type. -/
def events (e : StepInputsEntry T) : List (AnyInputEvent T) :=
  e.values.map fun v => ⟨e.inputType, v⟩

/-- An entry has the events of its own type. -/
theorem eventsOf_same (input : Input T) (values : List (InputEvent input)) :
    eventsOf input (⟨input, values⟩ : StepInputsEntry T).events = values := by
  induction values with
  | nil => rfl
  | cons v values ih => exact (eventsOf_cons_same input v _).trans (congrArg (v :: ·) ih)

/-- An entry has no events of another type. -/
theorem eventsOf_ne {e : StepInputsEntry T} {input : Input T} (h : e.inputType ≠ input) :
    eventsOf input e.events = [] := by
  rw [eventsOf, List.filterMap_eq_nil_iff]
  intro event hmem
  obtain ⟨v, -, rfl⟩ := List.mem_map.mp hmem
  exact dif_neg h

end StepInputsEntry

/-- Input events in the order in which they are handled: by the `SORT` of their types, and within
    a type without ascents. -/
def HandledBefore (time : Time T) : AnyInputEvent T → AnyInputEvent T → Prop :=
  Sigma.Lex (fun input input' => sort input < sort input')
    (fun input a b => (sortInputEvents time input a b).isGE = true)

namespace StepInputs

variable {i i' : StepInputs T} {input : Input T} {event : AnyInputEvent T}
  {events : List (AnyInputEvent T)}

/-- Every entry stands at the `SORT` of its type. -/
def Keyed (i : StepInputs T) : Prop :=
  ∀ k e, i.inputs.get k = some e → sort e.inputType = k

/-- Without entries none is misplaced. -/
theorem Keyed.new (time : Time T) : (StepInputs.new time).Keyed := by
  intro k e h
  cases h

/-- What adding an event does: its entry, which is a new one or one of its type, gets it. -/
theorem addEvent_cases (h : i.addEvent event = .ok i') : ∃ values,
    (i.inputs.get (sort event.1) = some ⟨event.1, values⟩ ∨
      i.inputs.get (sort event.1) = none ∧ values = []) ∧
    i' = ⟨i.time, i.inputs.insert (sort event.1)
      ⟨event.1, insertDescending (sortInputEvents i.time event.1) values event.2⟩⟩ := by
  simp only [addEvent, Outcome.bind_eq_ok, Outcome.pure_eq, Outcome.ok.injEq] at h
  obtain ⟨e, he, rfl⟩ := h
  obtain ⟨values, hentry, rfl⟩ := StepInputsEntry.addInput_ok he
  refine ⟨values, ?_, rfl⟩
  cases hget : i.inputs.get (sort event.1) with
  | none =>
    rw [hget, Option.getD_none, StepInputsEntry.new, StepInputsEntry.mk.injEq] at hentry
    exact Or.inr ⟨rfl, (eq_of_heq hentry.2).symm⟩
  | some e =>
    rw [hget, Option.getD_some] at hentry
    exact Or.inl (congrArg some hentry)

/-- Adding an event leaves every entry at its place. -/
theorem Keyed.addEvent (hi : i.Keyed) (h : i.addEvent event = .ok i') : i'.Keyed := by
  obtain ⟨values, -, rfl⟩ := addEvent_cases h
  intro k e hget
  rw [OrdMap.get_insert] at hget
  split at hget
  · rename_i hk
    rw [hk, ← Option.some.inj hget]
  · exact hi k e hget

/-- The events of a type are those of the entry at its `SORT`. -/
theorem Keyed.eventsOf_events (hi : i.Keyed) (input : Input T) : eventsOf input i.events
    = ((i.inputs.get (sort input)).map fun e => eventsOf input e.events).getD [] := by
  have hflat : eventsOf input i.events
      = i.inputs.values.flatMap fun e => eventsOf input e.events := by
    rw [eventsOf, StepInputs.events, List.filterMap_flatMap]
    rfl
  rw [hflat]
  refine OrdMap.flatMap_values ?_
  intro k e hget hne
  refine StepInputsEntry.eventsOf_ne ?_
  rintro rfl
  exact hne (hi k e hget).symm

/-- An added event goes to the events of its type. -/
theorem Keyed.addEvent_eventsOf (hi : i.Keyed) (h : i.addEvent event = .ok i') (input : Input T) :
    eventsOf input i'.events = (eventsOf input [event]).foldl
      (insertDescending (sortInputEvents i.time input)) (eventsOf input i.events) := by
  rw [(hi.addEvent h).eventsOf_events, hi.eventsOf_events]
  obtain ⟨values, hget, rfl⟩ := addEvent_cases h
  obtain ⟨input', event⟩ := event
  simp only [OrdMap.get_insert]
  by_cases heq : input' = input
  · subst heq
    rw [if_pos rfl, eventsOf_cons_same, Option.map_some, Option.getD_some,
      StepInputsEntry.eventsOf_same]
    rcases hget with hget | ⟨hget, rfl⟩
    · rw [hget, Option.map_some, Option.getD_some, StepInputsEntry.eventsOf_same]
      rfl
    · rw [hget]
      rfl
  · rw [eventsOf_cons_ne heq]
    by_cases hsort : sort input = sort input'
    · -- an entry of another type stands at the `SORT` of the type
      rw [if_pos hsort, Option.map_some, Option.getD_some, StepInputsEntry.eventsOf_ne heq, hsort]
      rcases hget with hget | ⟨hget, -⟩
      · rw [hget, Option.map_some, Option.getD_some, StepInputsEntry.eventsOf_ne heq]
        rfl
      · rw [hget]
        rfl
    · rw [if_neg hsort]
      rfl

/-- An added event is one more event to handle. -/
theorem addEvent_perm (h : i.addEvent event = .ok i') : i'.events.Perm (event :: i.events) := by
  obtain ⟨values, hget, rfl⟩ := addEvent_cases h
  obtain ⟨input, event⟩ := event
  -- the events of the other entries, which stay
  obtain ⟨others, hothers⟩ : ∃ others, ((i.inputs.remove (sort input)).entries.map Prod.snd).flatMap
      StepInputsEntry.events = others := ⟨_, rfl⟩
  have hnew : ((i.inputs.insert (sort input) ⟨input, insertDescending
      (sortInputEvents i.time input) values event⟩).values.flatMap StepInputsEntry.events).Perm
      ((⟨input, event⟩ :: (⟨input, values⟩ : StepInputsEntry T).events) ++ others) := by
    have hperm := ((OrdMap.entries_insert_perm_remove i.inputs (sort input) ⟨input,
      insertDescending (sortInputEvents i.time input) values event⟩).map Prod.snd).flatMap_right
        StepInputsEntry.events
    rw [List.map_cons, List.flatMap_cons, hothers] at hperm
    exact hperm.trans (((insertDescending_perm values event).map _).append_right _)
  have hold : i.events.Perm ((⟨input, values⟩ : StepInputsEntry T).events ++ others) := by
    rcases hget with hget | ⟨hget, rfl⟩
    · have hperm := ((OrdMap.entries_remove_perm hget).map Prod.snd).flatMap_right
        StepInputsEntry.events
      rwa [List.map_cons, List.flatMap_cons, hothers] at hperm
    · rw [OrdMap.entries_remove_of_none hget] at hothers
      exact .of_eq hothers
  exact hnew.trans (hold.symm.cons _)

/-- Adding an event does not change the time. -/
theorem addEvent_time (h : i.addEvent event = .ok i') : i'.time = i.time := by
  obtain ⟨values, -, rfl⟩ := addEvent_cases h
  rfl

/-- An event can be added when the entry at its `SORT` is of its type. -/
theorem addEvent_entry (values : List (InputEvent input))
    (h : (i.inputs.get (sort input)).getD (.new input) = ⟨input, values⟩)
    (event : InputEvent input) : ∃ i', i.addEvent ⟨input, event⟩ = .ok i' := by
  simp only [addEvent, h, StepInputsEntry.addInput_same, Outcome.ok_bind]
  exact ⟨_, rfl⟩

/-- An event can be added when its `SORT` is that of its type alone. -/
theorem Keyed.addEvent_returns (hi : i.Keyed) (hsort : Function.Injective (sort (T := T)))
    (event : AnyInputEvent T) : ∃ i', i.addEvent event = .ok i' := by
  obtain ⟨input, event⟩ := event
  cases hget : i.inputs.get (sort input) with
  | none =>
    refine addEvent_entry [] ?_ event
    rw [hget]
    rfl
  | some e =>
    obtain ⟨input', values⟩ := e
    obtain rfl : input' = input := hsort (hi _ _ hget)
    refine addEvent_entry values ?_ event
    rw [hget]
    rfl

/-! ### Many events -/

/-- The invariant of adding: entries stand where they belong, and each type has its events. -/
theorem addEvents_cases (hi : i.Keyed) (h : i.addEvents events = .ok i') :
    i'.time = i.time ∧ i'.Keyed ∧ i'.events.Perm (events ++ i.events) ∧
      ∀ input, eventsOf input i'.events = (eventsOf input events).foldl
        (insertDescending (sortInputEvents i.time input)) (eventsOf input i.events) := by
  induction events generalizing i with
  | nil =>
    cases h
    exact ⟨rfl, hi, .refl _, fun _ => rfl⟩
  | cons event events ih =>
    simp only [addEvents, Outcome.bind_eq_ok] at h
    obtain ⟨i₁, hadd, h⟩ := h
    obtain ⟨htime, hkeyed, hperm, hof⟩ := ih (hi.addEvent hadd) h
    have htime₁ := addEvent_time hadd
    refine ⟨htime.trans htime₁, hkeyed, ?_, ?_⟩
    · exact hperm.trans (((addEvent_perm hadd).append_left events).trans List.perm_middle)
    · intro input
      rw [hof, hi.addEvent_eventsOf hadd, htime₁, ← List.foldl_append, ← eventsOf_append]
      rfl

/-- Events can be added one after the other when every type has its own `SORT`. -/
theorem Keyed.addEvents_returns (hi : i.Keyed) (hsort : Function.Injective (sort (T := T)))
    (events : List (AnyInputEvent T)) : ∃ i', i.addEvents events = .ok i' := by
  induction events generalizing i with
  | nil => exact ⟨i, rfl⟩
  | cons event events ih =>
    obtain ⟨i₁, hadd⟩ := hi.addEvent_returns hsort event
    obtain ⟨i', h⟩ := ih (hi.addEvent hadd)
    refine ⟨i', ?_⟩
    simp only [addEvents, hadd, Outcome.ok_bind]
    exact h

/-! ### The order of all events -/

/-- The events of entries that never ascend are in order. -/
theorem Keyed.events_pairwise (hi : i.Keyed)
    (hdesc : ∀ input, Descending (sortInputEvents i.time input) (eventsOf input i.events)) :
    i.events.Pairwise (HandledBefore i.time) := by
  refine List.pairwise_flatMap.mpr ⟨?_, ?_⟩
  · intro e he
    obtain ⟨k, hget⟩ := OrdMap.mem_values.mp he
    obtain ⟨input, values⟩ := e
    have hvalues := hdesc input
    rw [hi.eventsOf_events, hi k _ hget, hget, Option.map_some, Option.getD_some,
      StepInputsEntry.eventsOf_same] at hvalues
    exact hvalues.map _ fun a b hab => Sigma.Lex.right a b hab
  · rw [OrdMap.values, List.pairwise_map]
    refine i.inputs.sorted.imp_of_mem ?_
    rintro ⟨k, e⟩ ⟨k', e'⟩ he he' hlt a ha b hb
    obtain ⟨v, -, rfl⟩ := List.mem_map.mp ha
    obtain ⟨v', -, rfl⟩ := List.mem_map.mp hb
    refine Sigma.Lex.left _ _ ?_
    rw [hi k e (OrdMap.mem_entries.mp he), hi k' e' (OrdMap.mem_entries.mp he')]
    exact hlt

end StepInputs

/-- The comparison of the input events of a time is a total preorder for every input type. -/
def SortsInputEvents (T : Type) [Transposer T] (time : Time T) : Prop :=
  ∀ input, Std.TransCmp (sortInputEvents (T := T) time input)

namespace SortsInputEvents

variable {time : Time T} (h : SortsInputEvents T time)
include h

/-- An event may be handled before itself. -/
theorem handledBefore_refl (e : AnyInputEvent T) : HandledBefore time e e := by
  have _ := h e.1
  have hself : sortInputEvents time e.1 e.2 e.2 = .eq := Std.ReflCmp.compare_self
  refine Sigma.Lex.right _ _ ?_
  rw [hself]
  rfl

/-- The order in which the events are handled is transitive. -/
theorem handledBefore_trans (e e' e'' : AnyInputEvent T) (h₁ : HandledBefore time e e')
    (h₂ : HandledBefore time e' e'') : HandledBefore time e e'' := by
  have _ := h
  cases h₁ with
  | left a b hlt =>
    cases h₂ with
    | left _ c hlt' => exact Sigma.Lex.left _ _ (hlt.trans hlt')
    | right _ c _ => exact Sigma.Lex.left _ _ hlt
  | @right input a b hge =>
    have _ := h input
    cases h₂ with
    | left _ c hlt' => exact Sigma.Lex.left _ _ hlt'
    | right _ c hge' => exact Sigma.Lex.right _ _ (Std.TransCmp.isGE_trans hge hge')

/-- Events each of which may be handled before the other are of one type and compare equal. -/
theorem eq_of_handledBefore {e e' : AnyInputEvent T} (h₁ : HandledBefore time e e')
    (h₂ : HandledBefore time e' e) : ∃ input a b, e = ⟨input, a⟩ ∧ e' = ⟨input, b⟩ ∧
      sortInputEvents time input a b = .eq := by
  cases h₁ with
  | left a b hlt =>
    cases h₂ with
    | left _ _ hlt' => exact absurd hlt (lt_asymm hlt')
    | right _ _ _ => exact absurd hlt (lt_irrefl _)
  | @right input a b hge =>
    have _ := h input
    cases h₂ with
    | left _ _ hlt' => exact absurd hlt' (lt_irrefl _)
    | right _ _ hge' => exact ⟨input, a, b, rfl, rfl, Std.OrientedCmp.isGE_antisymm hge hge'⟩

/-- The events that have been added are handled in order. -/
theorem events_pairwise {i : StepInputs T} {events : List (AnyInputEvent T)}
    (hi : (StepInputs.new time).addEvents events = .ok i) :
    i.events.Pairwise (HandledBefore time) := by
  obtain ⟨htime, hkeyed, -, hof⟩ := StepInputs.addEvents_cases (.new time) hi
  rw [← show i.time = time from htime]
  refine hkeyed.events_pairwise ?_
  intro input
  have _ := h input
  rw [hof input, show i.time = time from htime]
  exact Descending.nil.foldl_insertDescending (eventsOf input events)

end SortsInputEvents

/-- **The order of adding does not matter.**  Let the comparison of the events of an input type be
    a total order that is `Equal` only on interchangeable events, and let input types have
    different `SORT`s.  Whatever the order in which the same events are added, they are handled
    in the same order up to interchangeable events: each once, and by the `SORT` of their types. -/
theorem input_order_irrelevant {time : Time T} (hcompare : SortsInputEvents T time)
    (hsort : Function.Injective (sort (T := T)))
    {interchangeable : AnyInputEvent T → AnyInputEvent T → Prop}
    (hequal : ∀ input a b, sortInputEvents time input a b = .eq →
      interchangeable ⟨input, a⟩ ⟨input, b⟩)
    {events events' : List (AnyInputEvent T)} (hperm : events.Perm events') :
    ∃ i i', (StepInputs.new time).addEvents events = .ok i ∧
      (StepInputs.new time).addEvents events' = .ok i' ∧
      List.Forall₂ interchangeable i.events i'.events ∧ i.events.Perm events ∧
      i.events.Pairwise (fun a b => sort a.1 ≤ sort b.1) := by
  obtain ⟨i, hi⟩ := (StepInputs.Keyed.new time).addEvents_returns hsort events
  obtain ⟨i', hi'⟩ := (StepInputs.Keyed.new time).addEvents_returns hsort events'
  obtain ⟨-, -, hevents, -⟩ := StepInputs.addEvents_cases (.new time) hi
  obtain ⟨-, -, hevents', -⟩ := StepInputs.addEvents_cases (.new time) hi'
  rw [show (StepInputs.new time).events = [] from rfl, List.append_nil] at hevents hevents'
  refine ⟨i, i', hi, hi', ?_, hevents, ?_⟩
  · have hforall := forall₂_of_perm hcompare.handledBefore_refl hcompare.handledBefore_trans
      (hcompare.events_pairwise hi) (hcompare.events_pairwise hi')
      ((hevents.trans hperm).trans hevents'.symm)
    refine hforall.imp ?_
    rintro e e' ⟨h₁, h₂⟩
    obtain ⟨input, a, b, rfl, rfl, heq⟩ := hcompare.eq_of_handledBefore h₁ h₂
    exact hequal input a b heq
  · refine (hcompare.events_pairwise hi).imp ?_
    intro a b hab
    cases hab with
    | left _ _ hlt => exact hlt.le
    | right _ _ _ => exact le_refl _

/-! ### A transposer with two input types -/

/-- A transposer that does nothing; its events are numbers, of two types. -/
inductive Keypad where
  | keypad

/-- The times and the events are natural numbers, and every handler is done at once. -/
instance : Transposer Keypad where
  Time := ℕ
  OutputEvent := Unit
  OutputState := Unit
  Scheduled := Unit
  Rng := Unit
  Seed := Unit
  fromSeed := id
  Response := Unit
  Handler := Unit
  Interpolating := Unit
  resume _ := .done .keypad
  resumeInterpolation _ := .done ()
  init _ := ()
  handleScheduled _ _ := ()
  interpolate _ _ _ := ()
  Input := Bool
  InputEvent _ := ℕ
  sort input := if input then 1 else 0
  handleInput _ _ _ := ()
  sortInputEvents _ _ (a b : ℕ) := compare a b

/-- Numbers are sorted by their usual order. -/
theorem Keypad.sortsInputEvents (time : ℕ) : SortsInputEvents Keypad time :=
  fun _ => inferInstanceAs (Std.TransCmp (compare : ℕ → ℕ → Ordering))

/-- Two events of one type and one of the other, added in two orders. -/
theorem input_order_irrelevant_keypad :
    ∃ i i' : StepInputs Keypad,
      (StepInputs.new (0 : ℕ)).addEvents [⟨true, (3 : ℕ)⟩, ⟨false, (2 : ℕ)⟩, ⟨true, (1 : ℕ)⟩]
        = .ok i ∧
      (StepInputs.new (0 : ℕ)).addEvents [⟨true, (1 : ℕ)⟩, ⟨true, (3 : ℕ)⟩, ⟨false, (2 : ℕ)⟩]
        = .ok i' ∧ i.events = i'.events := by
  have hsort : Function.Injective (sort (T := Keypad)) := by
    rintro (_ | _) (_ | _) h
    · rfl
    · cases h
    · cases h
    · rfl
  have hequal : ∀ (input : Input Keypad) (a b : InputEvent input),
      sortInputEvents (0 : ℕ) input a b = .eq → (⟨input, a⟩ : AnyInputEvent Keypad) = ⟨input, b⟩ :=
    fun input a b h => congrArg (Sigma.mk input) (Nat.compare_eq_eq.mp h)
  have hperm : [(⟨true, (3 : ℕ)⟩ : AnyInputEvent Keypad), ⟨false, (2 : ℕ)⟩, ⟨true, (1 : ℕ)⟩].Perm
      [⟨true, (1 : ℕ)⟩, ⟨true, (3 : ℕ)⟩, ⟨false, (2 : ℕ)⟩] :=
    @List.perm_append_comm _ [_, _] [_]
  obtain ⟨i, i', hi, hi', hforall, -⟩ :=
    input_order_irrelevant (Keypad.sortsInputEvents 0) hsort hequal hperm
  exact ⟨i, i', hi, hi', by rwa [List.forall₂_eq_eq_eq] at hforall⟩

/-! ### The declared order -/

/-- **The declared order.**  For every input type whose comparison is a total preorder, the events
    that have been added are handled in nondescending order, and those that compare equal in the
    order in which they were added, exactly when all of them compare equal and their sequence is
    the same backwards. -/
theorem declared_order_iff {time : Time T} {events : List (AnyInputEvent T)} {i : StepInputs T}
    (hi : (StepInputs.new time).addEvents events = .ok i) (input : Input T)
    (hcompare : Std.TransCmp (sortInputEvents (T := T) time input)) :
    StablySorted (sortInputEvents time input) (eventsOf input events) (eventsOf input i.events) ↔
      (∀ a ∈ eventsOf input events, ∀ b ∈ eventsOf input events,
        sortInputEvents time input a b = .eq) ∧
      (eventsOf input events).reverse = eventsOf input events := by
  obtain ⟨-, -, -, hof⟩ := StepInputs.addEvents_cases (.new time) hi
  rw [hof input]
  exact stablySorted_iff (eventsOf input events)

/-- The same event twice is handled in the declared order. -/
theorem declared_order_iff_keypad : ∃ i : StepInputs Keypad,
    (StepInputs.new (0 : ℕ)).addEvents [⟨true, (4 : ℕ)⟩, ⟨true, (4 : ℕ)⟩] = .ok i ∧
      StablySorted (sortInputEvents (T := Keypad) (0 : ℕ) true) [(4 : ℕ), (4 : ℕ)]
        (eventsOf true i.events) := by
  obtain ⟨i, hi⟩ : ∃ i : StepInputs Keypad,
      (StepInputs.new (0 : ℕ)).addEvents [⟨true, (4 : ℕ)⟩, ⟨true, (4 : ℕ)⟩] = .ok i := ⟨_, rfl⟩
  exact ⟨i, hi, (declared_order_iff hi true (Keypad.sortsInputEvents 0 true)).mpr
    ⟨by decide, rfl⟩⟩

/-- The lesser of two events is handled last. -/
theorem declared_order_fails :
    ∃ i : StepInputs Keypad, (StepInputs.new (0 : ℕ)).addEvents [⟨true, (1 : ℕ)⟩, ⟨true, (2 : ℕ)⟩]
        = .ok i ∧ eventsOf true i.events = [(2 : ℕ), (1 : ℕ)] ∧
      Std.TransCmp (sortInputEvents (T := Keypad) (0 : ℕ) true) ∧
      ¬ StablySorted (sortInputEvents (T := Keypad) (0 : ℕ) true) [(1 : ℕ), (2 : ℕ)]
        (eventsOf true i.events) := by
  refine ⟨_, rfl, rfl, Keypad.sortsInputEvents 0 true, ?_⟩
  rintro ⟨hasc, -⟩
  have hpair := (List.pairwise_cons.mp hasc).1 (1 : ℕ) List.mem_cons_self
  cases hpair

end Cozal
