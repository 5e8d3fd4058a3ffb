import Cozal.Lib.CmpSet
import Cozal.Lib.Outcome
import Mathlib.Order.Lattice

namespace Cozal.Duplicate

/-!
# What a duplicate has not delivered yet

A source is polled by one of its duplicates, and what it emits is stored for the others.  The
duplicates are written against an earlier form of `SourcePoll`, with a `SourcePollOk` for the answers
of a source that is ready; here it has the variants that they make and match.

* `RollbackEvent` — what is stored: an event, a rollback or a finalize.
* `RollbackEvent.cmp` — how stored items are ordered: rollbacks first, and then by time alone.
* `Events` — the queue of a duplicate, a set that is ordered so.
* `Events.firstEventTime`, `Events.handleRollback`, `Events.pollPreviouslyEmitted` — what a
  duplicate does with its queue.
-/

/-- What a source that is ready answers. -/
inductive SourcePollOk (Time Event State : Type) where
  | ready (state : State)
  | scheduled (state : State) (time : Time)
  | event (event : Event) (time : Time)
  | rollback (time : Time)
  | finalize (time : Time)
deriving DecidableEq, Repr

/-- What a source answers: nothing yet, an error, or an answer of a source that is ready. -/
inductive SourcePoll (Time Event State Error : Type) where
  | pending
  | error (e : Error)
  | ok (poll : SourcePollOk Time Event State)
deriving DecidableEq, Repr

/-- `search` is never stored; it is used for searching. -/
inductive RollbackEvent (Time Event : Type) where
  | event (time : Time) (event : Event)
  | rollback (time : Time)
  | finalize (time : Time)
  | search (time : Time)
deriving DecidableEq, Repr

variable {Time Event State Error : Type} [LinearOrder Time]

namespace RollbackEvent

/-- The time of an item, or the time it is searched by. -/
def time : RollbackEvent Time Event → Time
  | event time _ => time
  | rollback time => time
  | search time => time
  | finalize time => time

/-- Rollbacks are compared by their times and come first; the rest are compared by their times. -/
def cmp : RollbackEvent Time Event → RollbackEvent Time Event → Ordering
  | rollback s, rollback o => compare s o
  | _, rollback _ => .gt
  | rollback _, _ => .lt
  | s, o => compare s.time o.time

/-- What is returned for a stored item. -/
def into : RollbackEvent Time Event → Outcome (SourcePollOk Time Event State)
  | event time e => .ok (.event e time)
  | rollback time => .ok (.rollback time)
  | finalize time => .ok (.finalize time)
  | search _ => .panic .unreachable

/-- Rollbacks come before everything else. -/
def rank : RollbackEvent Time Event → ℕ
  | rollback _ => 0
  | _ => 1

/-- The comparison is that of the ranks, and then of the times. -/
theorem cmp_eq : (cmp : RollbackEvent Time Event → RollbackEvent Time Event → Ordering) =
    compareLex (compareOn rank) (compareOn time) := by
  funext a b
  cases a <;> cases b <;> rfl

/-- Items are compared by two keys in turn, so the comparison is a weak order. -/
instance : Std.TransCmp (cmp : RollbackEvent Time Event → RollbackEvent Time Event → Ordering) :=
  @cmp_eq Time Event _ ▸ inferInstance

/-- The item is not an event that occurs after the time. -/
def DueAt (pollTime : Time) : RollbackEvent Time Event → Prop
  | event time _ => time ≤ pollTime
  | _ => True

/-- Only for an event are the times compared. -/
instance (pollTime : Time) :
    DecidablePred (DueAt pollTime : RollbackEvent Time Event → Prop)
  | event time _ => inferInstanceAs (Decidable (time ≤ pollTime))
  | rollback _ => isTrue trivial
  | finalize _ => isTrue trivial
  | search _ => isTrue trivial

/-- An event is due when its time has come. -/
@[simp] theorem dueAt_event {pollTime t : Time} {e : Event} :
    (event t e).DueAt pollTime ↔ t ≤ pollTime := Iff.rfl

/-- The item is thrown away when the source rolls back to the time. -/
def ThrownAwayAt (time : Time) : RollbackEvent Time Event → Prop
  | rollback _ => False
  | item => time ≤ item.time

variable {a b : RollbackEvent Time Event} {t : Time}

/-- Only an event can occur too late. -/
theorem eq_event_of_not_dueAt {pollTime : Time} (h : ¬ a.DueAt pollTime) :
    ∃ t e, a = .event t e := by
  cases a with
  | event t e => exact ⟨t, e, rfl⟩
  | rollback t => exact absurd trivial h
  | finalize t => exact absurd trivial h
  | search t => exact absurd trivial h

/-- What is searched for comes after the rollbacks, and after what is earlier. -/
theorem cmp_search : a.cmp (.search t) = .lt ↔ ¬ a.ThrownAwayAt t := by
  cases a <;> simp [cmp, ThrownAwayAt, time, compare_lt_iff_lt]

/-- Nothing but a rollback comes before a rollback. -/
theorem eq_rollback_of_lt (h : a.cmp (.rollback t) = .lt) : ∃ s, a = .rollback s := by
  cases a <;> simp [cmp] at h ⊢

/-- The item does not occur after the time; a rollback never does. -/
def WithinReach (pollTime : Time) : RollbackEvent Time Event → Prop
  | rollback _ => True
  | item => item.time ≤ pollTime

/-- An item within reach is due. -/
theorem WithinReach.dueAt {pollTime : Time} (h : a.WithinReach pollTime) : a.DueAt pollTime := by
  cases a with
  | event s e => exact h
  | rollback s => trivial
  | finalize s => trivial
  | search s => trivial

/-- What comes before an item within reach is due. -/
theorem WithinReach.dueAt_of_lt {pollTime : Time} (hb : b.WithinReach pollTime)
    (hlt : a.cmp b = .lt) : a.DueAt pollTime := by
  cases a with
  | event s e =>
    cases b with
    | rollback s' => simp [cmp] at hlt
    | event s' e' => exact ((compare_lt_iff_lt.mp hlt).trans_le hb).le
    | finalize s' => exact ((compare_lt_iff_lt.mp hlt).trans_le hb).le
    | search s' => exact ((compare_lt_iff_lt.mp hlt).trans_le hb).le
  | rollback s => trivial
  | finalize s => trivial
  | search s => trivial

end RollbackEvent

/-! ### The queue -/

/-- The items that a duplicate has not delivered yet. -/
abbrev Events (Time Event : Type) [LinearOrder Time] :=
  CmpSet (RollbackEvent.cmp : RollbackEvent Time Event → RollbackEvent Time Event → Ordering)

namespace Events

/-- The search for the time of the first event before the cutoff. -/
def findEventTime (cutoff : Option Time) : List (RollbackEvent Time Event) → Option Time
  | [] => none
  | .event time _ :: rest =>
    match cutoff with
    | some t => if t ≤ time then none else some time
    | none => findEventTime cutoff rest
  | _ :: rest => findEventTime cutoff rest

/-- The time of the first stored event, when there is a cutoff and the event is before it. -/
def firstEventTime (events : Events Time Event) (cutoff : Option Time) : Option Time :=
  findEventTime cutoff events.items

/-- All stored items at or after the time are thrown away. -/
def handleRollback (events : Events Time Event) (time : Time) : Events Time Event :=
  events.splitOff (.search time)

/-- The first item, and the queue without it, unless the item is an event after the time. -/
def pollPreviouslyEmitted (events : Events Time Event) (pollTime : Time) :
    Outcome (Option (RollbackEvent Time Event × Events Time Event)) :=
  let first :=
    match events.first with
    | some (.event time _) => if pollTime < time then none else events.first
    | first => first
  if first.isSome then do
    let popped ← Outcome.unwrap .emptyQueue events.popFirst
    return some popped
  else return none

variable {events : Events Time Event} {pollTime t : Time}

/-- The first item is taken when it is due. -/
theorem pollPreviouslyEmitted_eq : events.pollPreviouslyEmitted pollTime =
    .ok (events.popFirst.filter (fun popped => popped.1.DueAt pollTime)) := by
  obtain ⟨items, hitems⟩ := events
  cases items with
  | nil => rfl
  | cons a rest =>
    cases a with
    | event time e =>
      by_cases hdue : time ≤ pollTime
      · simp [pollPreviouslyEmitted, CmpSet.first, CmpSet.popFirst, Option.filter_some, hdue,
          not_lt.mpr hdue]
      · simp [pollPreviouslyEmitted, CmpSet.first, CmpSet.popFirst, Option.filter_some, hdue,
          not_le.mp hdue]
    | rollback time => rfl
    | finalize time => rfl
    | search time => rfl

/-- What a duplicate returns from its queue is the first item. -/
theorem pollPreviouslyEmitted_eq_some {item : RollbackEvent Time Event}
    {rest : Events Time Event} :
    events.pollPreviouslyEmitted pollTime = .ok (some (item, rest)) ↔
      events.items = item :: rest.items ∧ item.DueAt pollTime := by
  rw [pollPreviouslyEmitted_eq, Outcome.ok.injEq, Option.filter_eq_some_iff,
    CmpSet.popFirst_eq_some, decide_eq_true_eq]

/-- Nothing is returned from a queue that is empty or begins with an event after the time. -/
theorem pollPreviouslyEmitted_eq_none :
    events.pollPreviouslyEmitted pollTime = .ok none ↔
      ∀ item, events.first = some item → ¬ item.DueAt pollTime := by
  obtain ⟨items, hitems⟩ := events
  rw [pollPreviouslyEmitted_eq]
  cases items with
  | nil => simp [CmpSet.first, CmpSet.popFirst]
  | cons a rest => simp [CmpSet.first, CmpSet.popFirst]

/-- Rolling back keeps what is not thrown away. -/
theorem mem_handleRollback {item : RollbackEvent Time Event} :
    item ∈ (events.handleRollback t).items ↔ item ∈ events.items ∧ ¬ item.ThrownAwayAt t := by
  rw [handleRollback, CmpSet.mem_splitOff, RollbackEvent.cmp_search]

end Events

end Cozal.Duplicate
