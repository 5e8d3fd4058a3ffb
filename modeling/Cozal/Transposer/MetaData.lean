import Cozal.Lib.Outcome
import Cozal.Lib.OrdMap
import Cozal.Transposer.Basic
import Cozal.Transposer.Time

namespace Cozal

open Transposer

/-!
# The metadata of a transposer

What the engine keeps next to a transposer: when it was last updated, the schedule, the two
maps between the handles and the keys of expireable events, the handle factory and the
generator.
-/

variable {T : Type} [Transposer T]

/-- The engine's own state for a transposer. -/
structure TransposerMetaData (T : Type) [Transposer T] where
  lastUpdated : SubStepTime (Time T)
  schedule : OrdMap (ScheduledTime (Time T)) (Scheduled T)
  expireHandlesForward : OrdMap ExpireHandle (ScheduledTime (Time T))
  expireHandlesBackward : OrdMap (ScheduledTime (Time T)) ExpireHandle
  expireHandleFactory : ℕ
  rng : Rng T

namespace TransposerMetaData

/-- The metadata before the initial handler runs. -/
def new (rngSeed : Seed T) (startTime : Time T) : TransposerMetaData T where
  lastUpdated := ⟨0, startTime⟩
  schedule := .empty
  expireHandlesForward := .empty
  expireHandlesBackward := .empty
  expireHandleFactory := 0
  rng := fromSeed rngSeed

/-- Put an event into the schedule. -/
def scheduleEvent (m : TransposerMetaData T) (time : ScheduledTime (Time T))
    (payload : Scheduled T) : TransposerMetaData T :=
  { m with schedule := m.schedule.insert time payload }

/-- Put an event into the schedule, with a new handle that goes into both maps. -/
def scheduleEventExpireable (m : TransposerMetaData T) (time : ScheduledTime (Time T))
    (payload : Scheduled T) : ExpireHandle × TransposerMetaData T :=
  let m := m.scheduleEvent time payload
  let handle := m.expireHandleFactory
  (handle,
    { m with
      expireHandleFactory := m.expireHandleFactory + 1
      expireHandlesForward := m.expireHandlesForward.insert handle time
      expireHandlesBackward := m.expireHandlesBackward.insert time handle })

/-- Take the event of `handle` off the schedule.  The source unwraps what it removes: the
    maps are kept in sync. -/
def expireEvent (m : TransposerMetaData T) (handle : ExpireHandle) :
    Outcome (Except ExpireEventError (Time T × Scheduled T) × TransposerMetaData T) :=
  match m.expireHandlesForward.get handle with
  | some time => do
      let payload ← Outcome.unwrap .expireEvent (m.schedule.get time)
      return (.ok (time.time, payload),
        { m with
          schedule := m.schedule.remove time
          expireHandlesBackward := m.expireHandlesBackward.remove time
          expireHandlesForward := m.expireHandlesForward.remove handle })
  | none => return (.error .invalidOrUsedHandle, m)

/-- The key of the first event of the schedule. -/
def getNextScheduledTime (m : TransposerMetaData T) : Option (ScheduledTime (Time T)) :=
  m.schedule.getFirst.map Prod.fst

/-- Take the first event off the schedule, and its handle out of both maps. -/
def popFirstEvent (m : TransposerMetaData T) :
    Option ((ScheduledTime (Time T) × Scheduled T) × TransposerMetaData T) :=
  match m.schedule.popFirst with
  | some ((k, v), schedule) =>
      match m.expireHandlesBackward.get k with
      | some h =>
          some ((k, v),
            { m with
              schedule
              expireHandlesBackward := m.expireHandlesBackward.remove k
              expireHandlesForward := m.expireHandlesForward.remove h })
      | none =>
          some ((k, v),
            { m with schedule, expireHandlesBackward := m.expireHandlesBackward.remove k })
  | none => none

/-! ### Which fields an update leaves alone -/

/-- To schedule an event is no update. -/
@[simp] theorem scheduleEvent_lastUpdated (m : TransposerMetaData T)
    (time : ScheduledTime (Time T)) (payload : Scheduled T) :
    (m.scheduleEvent time payload).lastUpdated = m.lastUpdated := rfl

/-- Nor is it with a handle. -/
@[simp] theorem scheduleEventExpireable_lastUpdated (m : TransposerMetaData T)
    (time : ScheduledTime (Time T)) (payload : Scheduled T) :
    (m.scheduleEventExpireable time payload).2.lastUpdated = m.lastUpdated := rfl

/-- The event goes into the schedule with a handle as without. -/
@[simp] theorem scheduleEventExpireable_schedule (m : TransposerMetaData T)
    (time : ScheduledTime (Time T)) (payload : Scheduled T) :
    (m.scheduleEventExpireable time payload).2.schedule = m.schedule.insert time payload := rfl

/-! ### What the operations do -/

/-- Either the handle is not in use and nothing changes, or its event leaves the schedule
    and both maps. -/
theorem expireEvent_cases {m m' : TransposerMetaData T} {h : ExpireHandle}
    {r : Except ExpireEventError (Time T × Scheduled T)}
    (hr : m.expireEvent h = .ok (r, m')) :
    (m.expireHandlesForward.get h = none ∧ r = .error .invalidOrUsedHandle ∧ m' = m) ∨
    ∃ k p, m.expireHandlesForward.get h = some k ∧ m.schedule.get k = some p ∧
      r = .ok (k.time, p) ∧
      m' = { m with
        schedule := m.schedule.remove k
        expireHandlesBackward := m.expireHandlesBackward.remove k
        expireHandlesForward := m.expireHandlesForward.remove h } := by
  unfold expireEvent at hr
  cases hf : m.expireHandlesForward.get h with
  | none =>
    simp only [hf, Outcome.pure_eq, Outcome.ok.injEq, Prod.mk.injEq] at hr
    exact Or.inl ⟨rfl, hr.1.symm, hr.2.symm⟩
  | some k =>
    simp only [hf, Outcome.bind_eq_ok, Outcome.unwrap_eq_ok, Outcome.pure_eq,
      Outcome.ok.injEq, Prod.mk.injEq] at hr
    obtain ⟨p, hp, rfl, rfl⟩ := hr
    exact Or.inr ⟨k, p, rfl, hp, rfl, rfl⟩

/-- The popped event is the first of the schedule; it leaves the schedule, and its handle,
    if it has one, leaves both maps. -/
theorem popFirstEvent_cases {m m' : TransposerMetaData T} {k : ScheduledTime (Time T)}
    {p : Scheduled T} (h : m.popFirstEvent = some ((k, p), m')) :
    m.schedule.getFirst = some (k, p) ∧ m'.schedule = m.schedule.remove k ∧
      m'.lastUpdated = m.lastUpdated ∧
      m'.expireHandleFactory = m.expireHandleFactory ∧
      m'.expireHandlesBackward = m.expireHandlesBackward.remove k ∧
      (m.expireHandlesBackward.get k = none ∧
          m'.expireHandlesForward = m.expireHandlesForward ∨
        ∃ e, m.expireHandlesBackward.get k = some e ∧
          m'.expireHandlesForward = m.expireHandlesForward.remove e) := by
  unfold popFirstEvent at h
  cases hp : m.schedule.popFirst with
  | none => simp [hp] at h
  | some q =>
    obtain ⟨⟨k', p'⟩, sched⟩ := q
    have hq := OrdMap.popFirst_eq_some.mp hp
    simp only [hp] at h
    cases hb : m.expireHandlesBackward.get k' with
    | none =>
      simp only [hb, Option.some.injEq, Prod.mk.injEq] at h
      obtain ⟨⟨rfl, rfl⟩, rfl⟩ := h
      exact ⟨hq.1, hq.2, rfl, rfl, rfl, Or.inl ⟨hb, rfl⟩⟩
    | some e =>
      simp only [hb, Option.some.injEq, Prod.mk.injEq] at h
      obtain ⟨⟨rfl, rfl⟩, rfl⟩ := h
      exact ⟨hq.1, hq.2, rfl, rfl, rfl, Or.inr ⟨e, hb, rfl⟩⟩

end TransposerMetaData

end Cozal
