import Cozal.Lib.Grouped
import Cozal.Lib.Run
import Cozal.Transposer.EvaluateTo

namespace Cozal.Transpose

/-!
# The buffer of inputs

`Transpose` keeps the inputs that it has not handed to a step in an `InputBuffer`, by their times.
A step takes all the inputs of the first time; when it is rolled back, they are put back in front of
those that have come since.

* `InputContainer`, `InputBuffer`, `InputBufferEntry` — the buffer and its operations.
* `InputBuffer.contents` — the inputs of each time, whatever they are kept in.
* `BufferStep` — any order of operations, with what is taken.
* `put_back_restores` — **a take that is undone leaves no trace**: inputs that are put back, the
  last ones first, leave the buffer as if they had never been taken, whatever was inserted and
  rolled back in between.
-/

variable {Time Input : Type} [LinearOrder Time]

/-- The inputs of one time: in a vector that can grow, or in a boxed slice. -/
inductive InputContainer (Input : Type) where
  | hot (vec : List Input)
  | cold (slice : List Input)

namespace InputContainer

/-- The vector, which a slice is moved into. -/
def heat : InputContainer Input → List Input
  | hot vec => vec
  | cold slice => slice

/-- The input is appended, to a vector. -/
def push (c : InputContainer Input) (input : Input) : InputContainer Input :=
  .hot (c.heat ++ [input])

/-- A vector with one input. -/
def singleton (input : Input) : InputContainer Input := .hot [input]

/-- `Into<Box<[Input]>>`, `Into<Vec<Input>>` and `into_iter`. -/
def into : InputContainer Input → List Input
  | hot vec => vec
  | cold slice => slice

/-- What is pushed comes last. -/
@[simp] theorem into_push (c : InputContainer Input) (input : Input) :
    (c.push input).into = c.into ++ [input] := by
  cases c <;> rfl

end InputContainer

/-- The inputs that have not been handled, by their times. -/
structure InputBuffer (Time Input : Type) [LinearOrder Time] where
  map : OrdMap Time (InputContainer Input)

/-- An occupied entry of the map. -/
structure InputBufferEntry (Time Input : Type) [LinearOrder Time] where
  buffer : InputBuffer Time Input
  key : Time
  container : InputContainer Input
  occupied : buffer.map.get key = some container

namespace InputBuffer

/-- A buffer without inputs. -/
def new : InputBuffer Time Input := ⟨.empty⟩

/-- An input goes behind those of its time. -/
def insertBack (b : InputBuffer Time Input) (time : Time) (input : Input) :
    InputBuffer Time Input :=
  match b.map.get time with
  | some current => ⟨b.map.insert time (current.push input)⟩
  | none => ⟨b.map.insert time (.singleton input)⟩

/-- Inputs go in front of those of their time. -/
def extendFront (b : InputBuffer Time Input) (time : Time) (inputs : List Input) :
    InputBuffer Time Input :=
  match b.map.get time with
  | some current => ⟨b.map.insert time (.hot (inputs ++ current.into))⟩
  | none => ⟨b.map.insert time (.cold inputs)⟩

/-- The entry with the first time. -/
def firstEntry (b : InputBuffer Time Input) : Option (InputBufferEntry Time Input) :=
  match h : b.map.getFirst with
  | some e => some ⟨b, e.1, e.2, (OrdMap.getFirst_eq_some h).1⟩
  | none => none

/-- What lies at a time or after it is dropped. -/
def rollback (b : InputBuffer Time Input) (time : Time) : InputBuffer Time Input :=
  ⟨(b.map.splitOff time).1⟩

end InputBuffer

namespace InputBufferEntry

/-- The time of the entry. -/
def time (e : InputBufferEntry Time Input) : Time := e.key

/-- The inputs, and the buffer without them. -/
def take (e : InputBufferEntry Time Input) : List Input × InputBuffer Time Input :=
  (e.container.into, ⟨e.buffer.map.remove e.key⟩)

end InputBufferEntry

namespace InputBuffer

/-- The inputs of each time. -/
def contents (b : InputBuffer Time Input) : OrdMap Time (List Input) :=
  b.map.mapValues fun _ c => c.into

variable {b b' : InputBuffer Time Input} {e : InputBufferEntry Time Input} {time : Time}

/-- The inputs of a time are those of its container. -/
theorem contents_get (b : InputBuffer Time Input) (time : Time) :
    b.contents.get time = (b.map.get time).map InputContainer.into :=
  OrdMap.get_mapValues _ _ _

/-- An input goes to the end of those of its time. -/
theorem contents_insertBack (b : InputBuffer Time Input) (time : Time) (input : Input) :
    (b.insertBack time input).contents
      = b.contents.insert time ((b.contents.get time).getD [] ++ [input]) := by
  refine OrdMap.eq_of_get fun t => ?_
  rw [contents_get, OrdMap.get_insert, contents_get, contents_get]
  unfold insertBack
  cases hget : b.map.get time with
  | none =>
    rw [OrdMap.get_insert]
    split <;> rfl
  | some current =>
    rw [OrdMap.get_insert]
    split
    · simp
    · rfl

/-- And inputs that are put back go to the front. -/
theorem contents_extendFront (b : InputBuffer Time Input) (time : Time) (inputs : List Input) :
    (b.extendFront time inputs).contents
      = b.contents.insert time (inputs ++ (b.contents.get time).getD []) := by
  refine OrdMap.eq_of_get fun t => ?_
  rw [contents_get, OrdMap.get_insert, contents_get, contents_get]
  unfold extendFront
  cases hget : b.map.get time with
  | none =>
    rw [OrdMap.get_insert]
    split
    · simp [InputContainer.into]
    · rfl
  | some current =>
    rw [OrdMap.get_insert]
    split <;> rfl

/-- A rollback keeps the contents before its time. -/
theorem contents_rollback (b : InputBuffer Time Input) (time : Time) :
    (b.rollback time).contents = (b.contents.splitOff time).1 := by
  refine OrdMap.eq_of_get fun t => ?_
  rw [contents_get, OrdMap.get_splitOff_fst, contents_get, rollback, OrdMap.get_splitOff_fst]
  split <;> rfl

/-- The first entry is that of the first time, and taking it takes its inputs. -/
theorem firstEntry_eq_some (h : b.firstEntry = some e) :
    b.contents.popFirst = some ((e.time, e.take.1), e.take.2.contents) := by
  unfold firstEntry at h
  split at h
  · rename_i x hfirst
    cases h
    have hget := hfirst
    unfold OrdMap.getFirst at hget
    have hcontents : b.contents.getFirst = some (x.1, x.2.into) := by
      unfold OrdMap.getFirst contents OrdMap.mapValues
      rw [List.head?_map, hget]
      rfl
    rw [OrdMap.popFirst_eq_some]
    refine ⟨hcontents, OrdMap.eq_of_get fun t => ?_⟩
    rw [contents_get, OrdMap.get_remove, contents_get]
    show (OrdMap.get (b.map.remove x.1) t).map InputContainer.into = if t = x.1 then none else _
    rw [OrdMap.get_remove]
    split <;> rfl
  · cases h

/-- Only an empty buffer has no first entry. -/
theorem firstEntry_eq_none (h : b.firstEntry = none) : b.contents.entries = [] := by
  unfold firstEntry at h
  split at h
  · cases h
  · rename_i hfirst
    unfold OrdMap.getFirst at hfirst
    show b.map.entries.map _ = []
    rw [List.head?_eq_none_iff.mp hfirst, List.map_nil]

end InputBuffer

/-! ### Runs -/

/-- What happens to the buffer, with the inputs that are taken. -/
inductive BufferEvent (Time Input : Type) where
  | inserted (time : Time) (input : Input)
  | took (time : Time) (inputs : List Input)
  | rolledBack (time : Time)

open InputBuffer in
/-- An input comes, the first entry is taken, or the inputs from a time on are dropped. -/
inductive BufferStep :
    InputBuffer Time Input → List (BufferEvent Time Input) → InputBuffer Time Input → Prop where
  | insertBack {b : InputBuffer Time Input} (time : Time) (input : Input) :
      BufferStep b [.inserted time input] (b.insertBack time input)
  | take {b : InputBuffer Time Input} {e : InputBufferEntry Time Input}
      (h : b.firstEntry = some e) : BufferStep b [.took e.time e.take.1] e.take.2
  | rollback {b : InputBuffer Time Input} (time : Time) :
      BufferStep b [.rolledBack time] (b.rollback time)

/-- What was taken and lies before the rollbacks since. -/
def BufferEvent.outstanding (taken : List (Time × List Input)) :
    BufferEvent Time Input → List (Time × List Input)
  | inserted _ _ => taken
  | took time inputs => taken ++ [(time, inputs)]
  | rolledBack time => taken.filter fun g => decide (g.1 < time)

/-- The same without taking anything. -/
def BufferEvent.replay (b : InputBuffer Time Input) :
    BufferEvent Time Input → InputBuffer Time Input
  | inserted time input => b.insertBack time input
  | took _ _ => b
  | rolledBack time => b.rollback time

/-- Put back what was taken, the last inputs first. -/
def InputBuffer.putBack (b : InputBuffer Time Input) (taken : List (Time × List Input)) :
    InputBuffer Time Input :=
  taken.foldr (fun g b => b.extendFront g.1 g.2) b

/-! ### Putting back -/

namespace InputBuffer

variable {b b' : InputBuffer Time Input} {taken : List (Time × List Input)}
  {log : List (BufferEvent Time Input)} {time : Time} {input : Input}

/-- What is inserted does not depend on what is put back. -/
theorem insertBack_extendFront (h : b'.contents = (b.insertBack time input).contents)
    (t : Time) (inputs : List Input) : (b'.extendFront t inputs).contents
      = ((b.extendFront t inputs).insertBack time input).contents := by
  refine OrdMap.eq_of_get fun t' => ?_
  rw [contents_extendFront, h, contents_insertBack, contents_insertBack, contents_extendFront]
  simp only [OrdMap.get_insert]
  by_cases ht : t = time
  · subst ht
    by_cases ht' : t' = t <;> simp [ht']
  · by_cases ht' : t' = t
    · subst ht'
      simp [ht]
    · by_cases ht'' : t' = time
      · subst ht''
        simp [ht']
      · simp [ht', ht'']

/-- An input may come before what was taken is put back, or after. -/
theorem insertBack_putBack (time : Time) (input : Input) (taken : List (Time × List Input)) :
    ((b.insertBack time input).putBack taken).contents
      = ((b.putBack taken).insertBack time input).contents := by
  induction taken with
  | nil => rfl
  | cons g taken ih => exact insertBack_extendFront ih g.1 g.2

/-- What is put back from before the time of a rollback may as well have been there. -/
theorem rollback_extendFront (h : b'.contents = (b.rollback time).contents) (t : Time)
    (inputs : List Input) : ((b.extendFront t inputs).rollback time).contents
      = (if t < time then b'.extendFront t inputs else b').contents := by
  refine OrdMap.eq_of_get fun t' => ?_
  rw [contents_rollback, contents_extendFront, OrdMap.get_splitOff_fst, OrdMap.get_insert]
  rw [contents_rollback] at h
  by_cases hbefore : t < time
  · rw [if_pos hbefore, contents_extendFront, h, OrdMap.get_insert, OrdMap.get_splitOff_fst,
      OrdMap.get_splitOff_fst, if_pos hbefore]
    by_cases ht' : t' = t
    · simp [ht', hbefore]
    · simp [ht']
  · rw [if_neg hbefore, h, OrdMap.get_splitOff_fst]
    by_cases ht' : t' = t
    · rw [ht', if_neg hbefore, if_neg hbefore]
    · rw [if_neg ht']

/-- After a rollback it is the same to put back what was taken from before its time. -/
theorem rollback_putBack (time : Time) (taken : List (Time × List Input)) :
    ((b.rollback time).putBack (taken.filter fun g => decide (g.1 < time))).contents
      = ((b.putBack taken).rollback time).contents := by
  induction taken with
  | nil => rfl
  | cons g taken ih =>
    show _ = (((b.putBack taken).extendFront g.1 g.2).rollback time).contents
    rw [rollback_extendFront ih, List.filter_cons]
    by_cases hg : g.1 < time
    · rw [if_pos hg, if_pos (by simpa using hg)]
      rfl
    · rw [if_neg hg, if_neg (by simpa using hg)]

/-- What is put back at once has not been taken. -/
theorem extendFront_take {e : InputBufferEntry Time Input} (h : b.firstEntry = some e) :
    (e.take.2.extendFront e.time e.take.1).contents = b.contents := by
  obtain ⟨hfirst, hrest⟩ := OrdMap.popFirst_eq_some.mp (firstEntry_eq_some h)
  refine OrdMap.eq_of_get fun t => ?_
  rw [contents_extendFront, hrest, OrdMap.get_insert, OrdMap.get_remove, OrdMap.get_remove]
  by_cases ht : t = e.time
  · subst ht
    simpa using (OrdMap.getFirst_eq_some hfirst).1.symm
  · simp [ht]

/-- Only what the buffers contain matters for what is put back. -/
theorem contents_putBack (h : b'.contents = b.contents) (taken : List (Time × List Input)) :
    (b'.putBack taken).contents = (b.putBack taken).contents := by
  induction taken with
  | nil => exact h
  | cons g taken ih =>
    show ((b'.putBack taken).extendFront g.1 g.2).contents
      = ((b.putBack taken).extendFront g.1 g.2).contents
    rw [contents_extendFront, contents_extendFront, ih]

/-- Only the contents matter for what is replayed. -/
theorem contents_replay (h : b'.contents = b.contents) (x : BufferEvent Time Input) :
    (x.replay b').contents = (x.replay b).contents := by
  cases x with
  | inserted time input =>
    show (b'.insertBack time input).contents = (b.insertBack time input).contents
    rw [contents_insertBack, contents_insertBack, h]
  | took time inputs => exact h
  | rolledBack time =>
    show (b'.rollback time).contents = (b.rollback time).contents
    rw [contents_rollback, contents_rollback, h]

/-- Only the contents matter for a log that is replayed. -/
theorem contents_foldl_replay (h : b'.contents = b.contents) :
    (log.foldl BufferEvent.replay b').contents = (log.foldl BufferEvent.replay b).contents := by
  induction log generalizing b b' with
  | nil => exact h
  | cons x log ih => exact ih (contents_replay h x)

end InputBuffer

open InputBuffer in
/-- **A take that is undone leaves no trace.**  Whatever is inserted, taken and rolled back: when
    what was taken is put back, the last inputs first, the buffer has each time the inputs that it
    would have if nothing had been taken. -/
theorem put_back_restores {b b' : InputBuffer Time Input} {log : List (BufferEvent Time Input)}
    (h : Run BufferStep b log b') (taken : List (Time × List Input)) :
    (b'.putBack (log.foldl BufferEvent.outstanding taken)).contents
      = (log.foldl BufferEvent.replay (b.putBack taken)).contents := by
  induction h generalizing taken with
  | refl => rfl
  | head hstep hrun ih =>
    rw [List.foldl_append, List.foldl_append, ih]
    refine contents_foldl_replay ?_
    cases hstep with
    | insertBack time input => exact insertBack_putBack time input taken
    | @take e h =>
      show (e.take.2.putBack (taken ++ [(e.time, e.take.1)])).contents = _
      unfold InputBuffer.putBack
      rw [List.foldr_append]
      exact contents_putBack (extendFront_take h) taken
    | rollback time => exact rollback_putBack time taken

/-- Two inputs are taken, and when they are put back another one of their time has come. -/
theorem put_back_restores_twice : ∃ b : InputBuffer ℕ ℕ,
    b.contents.entries = [(1, [4])] ∧
      (b.putBack [(1, [2, 3])]).contents.entries = [(1, [2, 3, 4])] := by
  have hinserted : Run BufferStep (.new : InputBuffer ℕ ℕ) _ _ :=
    ((Run.single (.insertBack 1 2)).tail (.insertBack 5 9)).tail (.insertBack 1 3)
  have hrun := ((hinserted.tail (.take rfl)).tail (.insertBack 1 4)).tail (.rollback 5)
  exact ⟨_, rfl, (congrArg OrdMap.entries (put_back_restores hrun [])).trans rfl⟩

/-! ### Taking everything -/

namespace InputBuffer

/-- Insert one input after the other. -/
def insertAll (b : InputBuffer Time Input) (inputs : List (Time × Input)) :
    InputBuffer Time Input :=
  inputs.foldl (fun b x => b.insertBack x.1 x.2) b

/-- Inserting all inputs pushes one after the other. -/
theorem contents_insertAll (b : InputBuffer Time Input) (inputs : List (Time × Input)) :
    (b.insertAll inputs).contents = inputs.foldl pushValue b.contents := by
  induction inputs generalizing b with
  | nil => rfl
  | cons x inputs ih =>
    show ((b.insertBack x.1 x.2).insertAll inputs).contents = _
    rw [ih, contents_insertBack]
    rfl

/-- A buffer with inputs has a first entry. -/
theorem exists_firstEntry {b : InputBuffer Time Input} (h : b.contents.entries ≠ []) :
    ∃ e, b.firstEntry = some e := by
  cases hfirst : b.firstEntry with
  | none => exact absurd (firstEntry_eq_none hfirst) h
  | some e => exact ⟨e, rfl⟩

/-- The first entry is the first group of the contents, and the others are left. -/
theorem entries_take {b : InputBuffer Time Input} {e : InputBufferEntry Time Input}
    (h : b.firstEntry = some e) :
    b.contents.entries = (e.time, e.take.1) :: e.take.2.contents.entries := by
  obtain ⟨hfirst, hrest⟩ := OrdMap.popFirst_eq_some.mp (firstEntry_eq_some h)
  rw [hrest]
  exact OrdMap.entries_of_getFirst hfirst

/-- Taking the first entry until there is none takes the groups in order. -/
theorem takes_all (groups : List (Time × List Input)) (b : InputBuffer Time Input)
    (h : b.contents.entries = groups) :
    ∃ b', Run BufferStep b (groups.map fun g => .took g.1 g.2) b' ∧ b'.firstEntry = none := by
  induction groups generalizing b with
  | nil =>
    refine ⟨b, .refl b, ?_⟩
    by_contra hnone
    obtain ⟨e, he⟩ := Option.ne_none_iff_exists'.mp hnone
    rw [entries_take he] at h
    cases h
  | cons g groups ih =>
    obtain ⟨e, he⟩ := exists_firstEntry (b := b) (by simp [h])
    rw [entries_take he] at h
    obtain ⟨hg, hrest⟩ := List.cons.inj h
    obtain ⟨b', hrun, hempty⟩ := ih e.take.2 hrest
    subst hg
    exact ⟨b', .head (.take he) hrun, hempty⟩

end InputBuffer

/-- **The buffer hands out the groups of `evaluate_to`**, in order, when the inputs until then come
    one by one, in any order that keeps that of the inputs of each time. -/
theorem buffer_hands_out_groups {untilTime : Time} {events inserted : List (Time × Input)}
    (h : ∀ t, valuesAt inserted t
      = valuesAt (events.filter fun x => decide (x.1 ≤ untilTime)) t) :
    ∃ b', Run BufferStep ((.new : InputBuffer Time Input).insertAll inserted)
        ((collectEvents untilTime events).map fun g => .took g.1 g.2) b' ∧
      b'.firstEntry = none := by
  refine InputBuffer.takes_all _ _ ?_
  rw [collectEvents_eq, InputBuffer.contents_insertAll]
  exact congrArg OrdMap.entries ((Groups.foldl inserted).unique (Groups.foldl _) h)

/-- Inputs of two times, one of them late, and one that is not collected. -/
theorem buffer_hands_out_groups_late : ∃ b' : InputBuffer ℕ ℕ,
    Run BufferStep ((.new : InputBuffer ℕ ℕ).insertAll [(1, 7), (3, 8), (1, 9)])
        ((collectEvents 4 [(3, 8), (1, 7), (6, 5), (1, 9)]).map fun g => .took g.1 g.2) b' ∧
      b'.firstEntry = none := by
  refine buffer_hands_out_groups fun t => ?_
  by_cases h₁ : t = 1
  · subst h₁
    decide
  · by_cases h₃ : t = 3
    · subst h₃
      decide
    · simp [valuesAt, Ne.symm h₁, Ne.symm h₃]

end Cozal.Transpose
