import Cozal.Duplicate.RollbackEvent
import Cozal.Lib.OrdMap
import Mathlib.Order.MinMax

namespace Cozal.Duplicate

/-!
# The shared source and its duplicates

`Original` holds the queues of all duplicates.  A duplicate that is polled answers from its own
queue while the first item there is due, and polls the source otherwise; what the source emits goes
into the queues of the others.  One poll of a duplicate is one step here.

* `Original.poll`, `Original.distributeEvent` — the source is polled for one duplicate.
* `DuplicateInner.fromOriginal`, `DuplicateInner.poll` — a new duplicate, and a poll of one.
* `scheduled_time_iff` — when the time that a duplicate reports is that of the next event.

How far the source is advanced is the subject of `Advancing`, and the channels of its polls that
of `ChannelMap`.
-/

variable {Time Event State Error : Type} [LinearOrder Time]

/-- The queue of each duplicate, or nothing once the duplicate is dropped. -/
structure Original (Time Event : Type) [LinearOrder Time] where
  children : OrdMap ℕ (Option (Events Time Event))

namespace Original

/-- There are no duplicates at first. -/
def new : Original Time Event := ⟨.empty⟩

/-- The index after the last one that was given out. -/
def getNextIndex (o : Original Time Event) : ℕ :=
  match o.children.getLast with
  | some (i, _) => i + 1
  | none => 0

/-- A duplicate is registered with an empty queue. -/
def registerChild (o : Original Time Event) (index : ℕ) : Original Time Event :=
  ⟨o.children.insert index (some .empty)⟩

/-- A duplicate that is dropped leaves a weak reference that cannot be upgraded. -/
def drop (o : Original Time Event) (index : ℕ) : Original Time Event :=
  ⟨o.children.insert index none⟩

/-- The queue of a duplicate that is registered and not dropped. -/
def queue (o : Original Time Event) (index : ℕ) : Option (Events Time Event) :=
  (o.children.get index).join

/-- Change the queues of the duplicates that are not dropped. -/
def eachChild (o : Original Time Event) (f : ℕ → Events Time Event → Events Time Event) :
    Original Time Event :=
  ⟨o.children.mapValues (fun i dup => dup.map (f i))⟩

/-- Send it to all but the duplicate that polled. -/
def distributeEvent (o : Original Time Event) (rollbackEvent : RollbackEvent Time Event)
    (fromIndex : ℕ) : Original Time Event :=
  o.eachChild (fun i events => if i ≠ fromIndex then events.insert rollbackEvent else events)

/-- The source answers a poll for one of the duplicates. -/
def poll (o : Original Time Event) (poll : SourcePoll Time Event State Error) (fromIndex : ℕ) :
    SourcePoll Time Event State Error × Original Time Event :=
  -- all stored events at or after the time of a rollback are deleted immediately
  let o :=
    match poll with
    | .ok (.rollback t) => o.eachChild (fun _ events => events.handleRollback t)
    | _ => o
  match poll with
  | .pending => (.pending, o)
  | .error e => (.error e, o)
  | .ok (.rollback t) => (.ok (.rollback t), o.distributeEvent (.rollback t) fromIndex)
  | .ok (.event e t) => (.ok (.event e t), o.distributeEvent (.event t e) fromIndex)
  | .ok (.finalize t) => (.ok (.finalize t), o.distributeEvent (.finalize t) fromIndex)
  | .ok (.scheduled s t) => (.ok (.scheduled s t), o)
  | .ok (.ready s) => (.ok (.ready s), o)

end Original

/-- Adjust the scheduled or ready response to account for previously emitted events. -/
def Events.adjust (events : Events Time Event) :
    SourcePoll Time Event State Error → SourcePoll Time Event State Error
  | .ok (.ready s) =>
    match events.firstEventTime none with
    | some t => .ok (.scheduled s t)
    | none => .ok (.ready s)
  | .ok (.scheduled s t1) =>
    match events.firstEventTime (some t1) with
    | some t2 => .ok (.scheduled s (min t1 t2))
    | none => .ok (.scheduled s t1)
  | other => other

namespace DuplicateInner

/-- The index of a new duplicate, which is registered with an empty queue. -/
def fromOriginal (original : Original Time Event) : ℕ × Original Time Event :=
  (original.getNextIndex, original.registerChild original.getNextIndex)

/-- A poll of a duplicate, with what the source answers in case it is polled. -/
def poll (o : Original Time Event) (index : ℕ) (pollTime : Time)
    (sourcePoll : SourcePoll Time Event State Error) :
    Outcome (SourcePoll Time Event State Error × Original Time Event) := do
  let events ← Outcome.unwrap .unregistered (o.queue index)
  match ← events.pollPreviouslyEmitted pollTime with
  | some (event, events) =>
    let pollOk ← event.into
    return (.ok pollOk, ⟨o.children.insert index (some events)⟩)
  | none =>
    let (poll, o) := o.poll sourcePoll index
    let events ← Outcome.unwrap .unregistered (o.queue index)
    return (events.adjust poll, o)

end DuplicateInner

namespace Original

variable {o : Original Time Event} {i index : ℕ}

/-- Every queue that is left is changed. -/
@[simp] theorem queue_eachChild (f : ℕ → Events Time Event → Events Time Event) :
    (o.eachChild f).queue i = (o.queue i).map (f i) := by
  rw [queue, queue, eachChild, OrdMap.get_mapValues]
  cases o.children.get i <;> rfl

/-- Only the entry of one duplicate changes. -/
theorem queue_insert (dup : Option (Events Time Event)) :
    queue ⟨o.children.insert index dup⟩ i = if i = index then dup else o.queue i := by
  rw [queue, OrdMap.get_insert]
  split <;> rfl

/-- The index of a new duplicate has not been used before. -/
theorem getNextIndex_fresh : o.children.get o.getNextIndex = none := by
  unfold getNextIndex
  split
  · rename_i i dup hlast
    rw [Option.eq_none_iff_forall_not_mem]
    intro v hv
    have hle := OrdMap.getLast_eq_some hlast hv
    omega
  · rename_i hlast
    exact OrdMap.getLast_eq_none hlast 0

/-- A duplicate that polls the source gets its answer. -/
theorem poll_fst (sourcePoll : SourcePoll Time Event State Error) :
    (o.poll sourcePoll index).1 = sourcePoll := by
  cases sourcePoll with
  | pending => rfl
  | error e => rfl
  | ok r => cases r <;> rfl

/-- The queue of the duplicate that polls changes at a rollback only. -/
theorem queue_poll_self {events : Events Time Event} (h : o.queue index = some events)
    (sourcePoll : SourcePoll Time Event State Error) :
    ∃ events', (o.poll sourcePoll index).2.queue index = some events' ∧
      ((∀ t, sourcePoll ≠ .ok (.rollback t)) → events' = events) := by
  cases sourcePoll with
  | pending => exact ⟨events, h, fun _ => rfl⟩
  | error e => exact ⟨events, h, fun _ => rfl⟩
  | ok r =>
    cases r with
    | ready s => exact ⟨events, h, fun _ => rfl⟩
    | scheduled s t => exact ⟨events, h, fun _ => rfl⟩
    | event e t => exact ⟨events, by simp [poll, distributeEvent, h], fun _ => rfl⟩
    | finalize t => exact ⟨events, by simp [poll, distributeEvent, h], fun _ => rfl⟩
    | rollback t =>
      exact ⟨events.handleRollback t, by simp [poll, distributeEvent, h],
        fun hne => absurd rfl (hne t)⟩

end Original

namespace DuplicateInner

variable {o : Original Time Event} {index : ℕ} {events : Events Time Event} {pollTime : Time}

/-- A duplicate whose first item is due returns it. -/
theorem poll_stored (hqueue : o.queue index = some events) {item : RollbackEvent Time Event}
    {rest : Events Time Event} (hitems : events.items = item :: rest.items)
    (hdue : item.DueAt pollTime) (sourcePoll : SourcePoll Time Event State Error) :
    poll o index pollTime sourcePoll = (do
      let pollOk ← item.into
      return (.ok pollOk, ⟨o.children.insert index (some rest)⟩)) := by
  have hpop := Events.pollPreviouslyEmitted_eq_some.mpr ⟨hitems, hdue⟩
  unfold poll
  rw [hqueue, Outcome.unwrap_some, Outcome.ok_bind, hpop]
  rfl

/-- A duplicate whose first item is not due polls the source. -/
theorem poll_source (hqueue : o.queue index = some events)
    (hnot : ∀ item, events.first = some item → ¬ item.DueAt pollTime)
    (sourcePoll : SourcePoll Time Event State Error) :
    ∃ events', ((∀ t, sourcePoll ≠ .ok (.rollback t)) → events' = events) ∧
      poll o index pollTime sourcePoll =
        .ok (events'.adjust sourcePoll, (o.poll sourcePoll index).2) := by
  obtain ⟨events', hevents', hsame⟩ := Original.queue_poll_self hqueue sourcePoll
  refine ⟨events', hsame, ?_⟩
  have hpop := Events.pollPreviouslyEmitted_eq_none.mpr hnot
  unfold poll
  rw [hqueue, Outcome.unwrap_some, Outcome.ok_bind, hpop, Outcome.ok_bind]
  simp only [hevents', Outcome.unwrap_some, Outcome.ok_bind, Original.poll_fst, Outcome.pure_eq]

end DuplicateInner

/-! ### The time of the next event -/

/-- The time that is reported with a state, if there is one. -/
def SourcePoll.nextEventTime : SourcePoll Time Event State Error → Option (Option Time)
  | .ok (.ready _) => some none
  | .ok (.scheduled _ t) => some (some t)
  | _ => none

namespace Events

/-- The times of the events that have not been delivered. -/
def eventTimes (events : Events Time Event) : List Time :=
  events.items.filterMap fun
    | .event time _ => some time
    | _ => none

variable {events : Events Time Event}

/-- Without a cutoff the search goes on behind each event. -/
theorem findEventTime_none (items : List (RollbackEvent Time Event)) :
    findEventTime none items = none := by
  induction items with
  | nil => rfl
  | cons item rest ih => cases item <;> exact ih


/-- A source that is ready stays so, whatever is stored. -/
theorem adjust_ready (events : Events Time Event) (s : State) :
    events.adjust (.ok (.ready s) : SourcePoll Time Event State Error) = .ok (.ready s) := by
  simp only [adjust, firstEventTime, findEventTime_none]

/-- A queue that begins with an event has no earlier one. -/
theorem first_le_eventTimes {t : Time} {e : Event} {rest : List (RollbackEvent Time Event)}
    (h : events.items = .event t e :: rest) :
    t ∈ events.eventTimes ∧ ∀ s ∈ events.eventTimes, t ≤ s := by
  constructor
  · simp [eventTimes, h]
  · intro s hs
    obtain ⟨item, hmem, hitem⟩ := List.mem_filterMap.mp hs
    rw [h] at hmem
    rcases List.mem_cons.mp hmem with rfl | hrest
    · cases hitem
      exact le_rfl
    · have hlt := CmpSet.first_lt h hrest
      cases item <;> cases hitem
      simp only [RollbackEvent.cmp, RollbackEvent.time, compare_lt_iff_lt] at hlt
      exact hlt.le

/-- With a cutoff the search stops at the first event, which is all that it needs to look at when
    no other item comes before. -/
theorem adjust_scheduled (hfirst : ∀ item, events.first = some item → ∃ t e, item = .event t e)
    (s : State) (t1 : Time) :
    (events.adjust (.ok (.scheduled s t1) : SourcePoll Time Event State Error)).nextEventTime =
      some (t1 :: events.eventTimes).min? := by
  cases hitems : events.items with
  | nil =>
    simp [adjust, firstEventTime, findEventTime, eventTimes, hitems, SourcePoll.nextEventTime]
  | cons item rest =>
    obtain ⟨t, e, rfl⟩ := hfirst item (by rw [CmpSet.first, hitems]; rfl)
    obtain ⟨hmem, hle⟩ := first_le_eventTimes hitems
    have hmin : (t1 :: events.eventTimes).min? = some (min t1 t) := by
      rw [List.min?_eq_some_iff]
      constructor
      · rcases min_choice t1 t with h | h <;> rw [h]
        · exact List.mem_cons_self
        · exact List.mem_cons_of_mem _ hmem
      · intro b hb
        rcases List.mem_cons.mp hb with rfl | hb
        · exact min_le_left _ _
        · exact (min_le_right _ _).trans (hle b hb)
    rw [hmin]
    by_cases hcutoff : t1 ≤ t
    · simp [adjust, firstEventTime, findEventTime, hitems, hcutoff, SourcePoll.nextEventTime]
    · simp [adjust, firstEventTime, findEventTime, hitems, hcutoff, SourcePoll.nextEventTime]

/-- A queue that begins with an event, if with anything, has no next event only when it is empty. -/
theorem min?_eventTimes_eq_none
    (hfirst : ∀ item, events.first = some item → ∃ t e, item = .event t e) :
    events.eventTimes.min? = none ↔ events.items = [] := by
  rw [List.min?_eq_none_iff]
  constructor
  · intro hnone
    cases hitems : events.items with
    | nil => rfl
    | cons item rest =>
      obtain ⟨t, e, rfl⟩ := hfirst item (by rw [CmpSet.first, hitems]; rfl)
      have hmem := (first_le_eventTimes hitems).1
      rw [hnone] at hmem
      cases hmem
  · intro hnil
    rw [eventTimes, hnil]
    rfl

end Events

/-- The time that is reported is that of the next event: the least of the time that the source has
    scheduled and of those of the events in the queue. -/
def ReportsNextEvent (o : Original Time Event) (index : ℕ) (events : Events Time Event)
    (pollTime : Time) (sourcePoll : SourcePoll Time Event State Error) : Prop :=
  ∀ result o' next, DuplicateInner.poll o index pollTime sourcePoll = .ok (result, o') →
    result.nextEventTime = some next →
      next = (sourcePoll.nextEventTime.join.toList ++ events.eventTimes).min?

section

variable {o : Original Time Event} {index : ℕ} {events : Events Time Event} {pollTime : Time}

/-- A duplicate that returns its first item reports no time. -/
theorem reportsNextEvent_of_due (hqueue : o.queue index = some events)
    {item : RollbackEvent Time Event} (hfirst : events.first = some item)
    (hdue : item.DueAt pollTime) (sourcePoll : SourcePoll Time Event State Error) :
    ReportsNextEvent o index events pollTime sourcePoll := by
  intro result o' next hpoll hnext
  obtain ⟨rest, hitems⟩ := CmpSet.first_eq_some.mp hfirst
  rw [DuplicateInner.poll_stored hqueue hitems hdue] at hpoll
  cases item <;> cases hpoll <;> cases hnext

/-- One that polls the source reports the time of its adjusted answer. -/
theorem reportsNextEvent_iff_adjust (hqueue : o.queue index = some events)
    (hnot : ∀ item, events.first = some item → ¬ item.DueAt pollTime)
    (sourcePoll : SourcePoll Time Event State Error) :
    ∃ events', ((∀ t, sourcePoll ≠ .ok (.rollback t)) → events' = events) ∧
      (ReportsNextEvent o index events pollTime sourcePoll ↔
        ∀ next, (events'.adjust sourcePoll).nextEventTime = some next →
          next = (sourcePoll.nextEventTime.join.toList ++ events.eventTimes).min?) := by
  obtain ⟨events', hsame, hpoll⟩ := DuplicateInner.poll_source hqueue hnot sourcePoll
  refine ⟨events', hsame, ?_⟩
  constructor
  · intro h next hnext
    exact h _ _ next hpoll hnext
  · intro h result o' next hresult hnext
    rw [hpoll] at hresult
    cases hresult
    exact h next hnext

end

/-- The time that is reported is that of the next event exactly when the queue begins with an item
    that is due, the source does not answer that it is ready, or the queue is empty. -/
theorem scheduled_time_iff {o : Original Time Event} {index : ℕ} {events : Events Time Event}
    (hqueue : o.queue index = some events) (pollTime : Time)
    (sourcePoll : SourcePoll Time Event State Error) :
    ReportsNextEvent o index events pollTime sourcePoll ↔
      (∃ item, events.first = some item ∧ item.DueAt pollTime) ∨
        (∀ s, sourcePoll ≠ .ok (.ready s)) ∨ events.items = [] := by
  by_cases hdue : ∃ item, events.first = some item ∧ item.DueAt pollTime
  · obtain ⟨item, hfirst, hitem⟩ := hdue
    exact iff_of_true (reportsNextEvent_of_due hqueue hfirst hitem sourcePoll)
      (.inl ⟨item, hfirst, hitem⟩)
  · simp only [hdue, false_or]
    push Not at hdue
    -- a first item that is not due is an event
    have hfirst : ∀ item, events.first = some item → ∃ t e, item = .event t e :=
      fun item hitem => RollbackEvent.eq_event_of_not_dueAt (hdue item hitem)
    obtain ⟨events', hsame, hreports⟩ := reportsNextEvent_iff_adjust hqueue hdue sourcePoll
    rw [hreports]
    cases sourcePoll with
    | pending => exact iff_of_true nofun (.inl nofun)
    | error e => exact iff_of_true nofun (.inl nofun)
    | ok r =>
      cases r with
      | event e t => exact iff_of_true nofun (.inl nofun)
      | rollback t => exact iff_of_true nofun (.inl nofun)
      | finalize t => exact iff_of_true nofun (.inl nofun)
      | scheduled s t =>
        refine iff_of_true ?_ (.inl nofun)
        rw [hsame nofun, Events.adjust_scheduled hfirst]
        intro next hnext
        exact (Option.some.inj hnext).symm
      | ready s =>
        -- no time is reported, which is right only when there is no event
        rw [hsame nofun, Events.adjust_ready, ← Events.min?_eventTimes_eq_none hfirst]
        constructor
        · intro h
          exact .inr (h none rfl).symm
        · rintro (hready | hnone) next hnext
          · exact absurd rfl (hready s)
          · cases hnext
            exact hnone.symm

/-- An event at 9 is stored. -/
def laterQueue : Events ℕ Unit := CmpSet.insert .empty (.event 9 ())

/-- It is stored for the only duplicate. -/
def laterOriginal : Original ℕ Unit := ⟨OrdMap.insert .empty 0 (some laterQueue)⟩

/-- The source is scheduled later than the stored event, and the time of the event is reported. -/
theorem scheduled_time_iff_later : ReportsNextEvent laterOriginal 0 laterQueue 5
    (.ok (.scheduled () 12) : SourcePoll ℕ Unit Unit Unit) :=
  (scheduled_time_iff rfl 5 _).mpr (.inr (.inl nofun))

/-- When the source is ready, no time is reported although the event is stored. -/
theorem scheduled_time_fails : ¬ ∀ (o : Original ℕ Unit) (index : ℕ) (events : Events ℕ Unit)
    (pollTime : ℕ) (sourcePoll : SourcePoll ℕ Unit Unit Unit),
    o.queue index = some events → ReportsNextEvent o index events pollTime sourcePoll := by
  intro h
  cases h laterOriginal 0 laterQueue 5 (.ok (.ready ())) rfl _ _ none rfl rfl

end Cozal.Duplicate
