import Cozal.Transposer.Work

namespace Cozal

open Transposer

/-!
# A saturated step leaves nothing behind

While a step at time `t` saturates, its schedule holds nothing before `t`, and when it is
saturated it holds nothing at `t` either and was last updated at `t`.  This is what makes the
times of a chain of steps increase, and what keeps `interpolate` from reporting `TimePast`.

* `InTime` — the invariant of a future that saturates a step at `t`; `InTime.run` keeps it.
* `Drained` — the state it ends in (`InTime.drained`).
-/

variable {T : Type} [Transposer T]

/-- The schedule holds nothing before `t`. -/
def NothingBefore (t : Time T) (m : TransposerMetaData T) : Prop :=
  ∀ k p, m.schedule.get k = some p → t ≤ k.time

/-- The state of a saturated step at `t`. -/
structure Drained (t : Time T) (w : WrappedTransposer T) : Prop where
  lastUpdated : w.metadata.lastUpdated.time = t
  schedule : ∀ k p, w.metadata.schedule.get k = some p → t < k.time

/-- The local times of the body are `t`; at the head of the loop, either `t` was the time of
    the last update already or an event is due. -/
def OnTime (t : Time T) : SaturationFuture T → Prop
  | .running (.init start) _ cx => start = t ∧ cx.metadata.lastUpdated.time = t
  | .running (.input time _) _ _ => time.time = t
  | .running (.scheduled time) _ _ => time.time = t
  | .inputs time _ _ _ => time.time = t
  | .draining time _ cx => time.time = t ∧
      (cx.metadata.lastUpdated.time = t ∨
        cx.metadata.getNextScheduledTime.map (·.time) = some t)

/-- The invariant of a future that saturates a step at `t`. -/
structure InTime (t : Time T) (f : SaturationFuture T) : Prop where
  current : f.cx.time.time = t
  pending : NothingBefore t f.cx.metadata
  onTime : OnTime t f

/-! ### Where futures start -/

/-- Nothing is before a time that the next event is not before. -/
theorem NothingBefore.of_next {t : Time T} {m : TransposerMetaData T}
    {k : ScheduledTime (Time T)} (h : m.getNextScheduledTime = some k) (hk : t ≤ k.time) :
    NothingBefore t m := by
  simp only [TransposerMetaData.getNextScheduledTime, Option.map_eq_some_iff, Prod.exists,
    exists_and_right, exists_eq_right] at h
  obtain ⟨p, hp⟩ := h
  intro k' p' hk'
  exact hk.trans (ScheduledTime.time_le_of_le ((OrdMap.getFirst_eq_some hp).2 k' p' hk'))

/-- Nothing is before any time in an empty schedule. -/
theorem NothingBefore.of_next_none {t : Time T} {m : TransposerMetaData T}
    (h : m.getNextScheduledTime = none) : NothingBefore t m := by
  simp only [TransposerMetaData.getNextScheduledTime, Option.map_eq_none_iff] at h
  intro k p hk
  rw [OrdMap.getFirst_eq_none h k] at hk
  cases hk

/-- Nothing is scheduled before a time that the next event is not before. -/
theorem NothingBefore.of_next_le {t : Time T} {m : TransposerMetaData T}
    (h : ∀ k, m.getNextScheduledTime = some k → t ≤ k.time) : NothingBefore t m := by
  cases hk : m.getNextScheduledTime with
  | none => exact .of_next_none hk
  | some k => exact .of_next hk (h k hk)

/-- One more event, which is not before the time. -/
theorem NothingBefore.insert {t : Time T} {m m' : TransposerMetaData T}
    {k : ScheduledTime (Time T)} {p : Scheduled T} (h : NothingBefore t m) (hk : t ≤ k.time)
    (hs : m'.schedule = m.schedule.insert k p) : NothingBefore t m' := by
  intro k' p' hk'
  rw [hs, OrdMap.get_insert] at hk'
  split at hk'
  · rename_i heq
    rw [heq]
    exact hk
  · exact h k' p' hk'

/-- One event less. -/
theorem NothingBefore.remove {t : Time T} {m m' : TransposerMetaData T}
    {k : ScheduledTime (Time T)} (h : NothingBefore t m)
    (hs : m'.schedule = m.schedule.remove k) : NothingBefore t m' := by
  intro k' p' hk'
  rw [hs, OrdMap.get_remove_eq_some] at hk'
  exact h k' p' hk'.2

/-- The future of the first step is in time. -/
theorem InTime.init (transposer : T) (seed : Seed T) (start : Time T) (n : ℕ) :
    InTime start (WrappedTransposer.init transposer seed start n) where
  current := rfl
  pending := by intro k p h; cases h
  onTime := ⟨rfl, rfl⟩

/-- The future of a scheduled step is in time. -/
theorem InTime.handleScheduled {w : WrappedTransposer T} {k : ScheduledTime (Time T)}
    (h : w.metadata.getNextScheduledTime = some k) (n : ℕ) :
    InTime k.time (w.handleScheduled k.time n) where
  current := rfl
  pending := .of_next h le_rfl
  onTime := ⟨rfl, Or.inr (by
    show w.metadata.getNextScheduledTime.map _ = _
    rw [h]; rfl)⟩

/-- The future of an input step is in time when nothing is due before the inputs. -/
theorem InTime.handleInput {w : WrappedTransposer T} {i : StepInputs T}
    (h : NothingBefore i.time w.metadata) (n : ℕ) : InTime i.time (w.handleInput i n) where
  current := rfl
  pending := h
  onTime := rfl

/-! ### What a piece of work keeps -/

/-- A call on the context changes neither the time nor the time of the last update. -/
theorem ContextWork.times {cx cx' : SubStepUpdateContext T} {l : Label T}
    (h : ContextWork cx l cx') :
    cx'.time = cx.time ∧ cx'.metadata.lastUpdated = cx.metadata.lastUpdated := by
  cases h <;> exact ⟨rfl, rfl⟩

/-- A call on the context schedules nothing before the current time. -/
theorem ContextWork.pending {cx cx' : SubStepUpdateContext T} {l : Label T}
    (h : ContextWork cx l cx') (hp : NothingBefore cx.time.time cx.metadata) :
    NothingBefore cx.time.time cx'.metadata := by
  cases h with
  | silent n rng => exact hp
  | schedule time payload ht | scheduleExpireable time payload ht => exact hp.insert ht rfl
  | expire handle key payload hf hs => exact hp.remove rfl

namespace InTime

variable {t : Time T} {f f' : SaturationFuture T}

/-- A piece of work keeps the invariant. -/
theorem work {l : Label T} (h : InTime t f) (hw : FutureWork f l f') : InTime t f' := by
  obtain ⟨hcur, hpend, hpos⟩ := h
  cases hw with
  | @call caller h h' cx l cx' hcx =>
    obtain ⟨htime, hlast⟩ := hcx.times
    have hcx' : cx'.time.time = cx.time.time := by rw [htime]
    obtain rfl : cx.time.time = t := hcur
    constructor
    case current => exact hcx'
    case pending => exact hcx.pending hpend
    case onTime =>
      cases caller with
      | init start =>
        refine ⟨hpos.1, ?_⟩
        rw [hlast]
        exact hpos.2
      | input time rest => exact hpos
      | scheduled time => exact hpos
  | @done caller h t' cx =>
    cases caller with
    | init start =>
      obtain ⟨rfl, hlast⟩ := hpos
      exact ⟨rfl, hpend, rfl, Or.inl hlast⟩
    | input time rest => exact ⟨hcur, hpend, hpos⟩
    | scheduled time => exact ⟨hcur, hpend, hpos, Or.inl hpos⟩
  | @inputsDone time t' cx => exact ⟨hpos, hpend, hpos, Or.inl hpos⟩
  | input => exact ⟨hcur, hpend, hpos⟩
  | @pop time t' h cx key payload metadata hkey hpop =>
    obtain ⟨-, hsched, -⟩ := TransposerMetaData.popFirstEvent_cases hpop
    exact ⟨hcur, hpend.remove hsched, hpos.1⟩

/-- The future stays in time while it runs. -/
theorem run {ls : List (Label T)} (h : InTime t f) (hr : Run LabelStep f ls f') :
    InTime t f' :=
  hr.preserves (P := InTime t) (fun hs hi => by
    obtain ⟨l, -, hw⟩ := hs.work
    exact hi.work hw) h

/-- A future is only ready at the head of the loop, when nothing is due. -/
theorem drained {w : WrappedTransposer T} (h : InTime t f) (hw : f.advance = .ready w) :
    Drained t w := by
  have hcases := f.advance_cases
  rw [hw] at hcases
  cases hcases with
  | @ready time t' cx hnot =>
    obtain ⟨-, hpend, htime, hdue⟩ := h
    rw [htime] at hnot
    refine ⟨hdue.resolve_right hnot, ?_⟩
    intro k p hk
    refine lt_of_le_of_ne (hpend k p hk) ?_
    -- an event at `t` would be the first of the schedule, or after the first, which is at `t`
    rintro rfl
    apply hnot
    cases hfirst : cx.metadata.schedule.getFirst with
    | none => rw [OrdMap.getFirst_eq_none hfirst k] at hk; cases hk
    | some e =>
      obtain ⟨he, hle⟩ := OrdMap.getFirst_eq_some hfirst
      have h₁ := ScheduledTime.time_le_of_le (hle k p hk)
      have h₂ := hpend e.1 e.2 he
      simp only [TransposerMetaData.getNextScheduledTime, hfirst, Option.map_some,
        Option.some.injEq]
      exact le_antisymm h₁ h₂

end InTime

/-- The next event of a saturated step is due after its time. -/
theorem Drained.next_lt {t : Time T} {w : WrappedTransposer T} (h : Drained t w)
    {k : ScheduledTime (Time T)} (hk : w.metadata.getNextScheduledTime = some k) : t < k.time := by
  simp only [TransposerMetaData.getNextScheduledTime, Option.map_eq_some_iff] at hk
  obtain ⟨e, hfirst, rfl⟩ := hk
  exact h.schedule e.1 e.2 (OrdMap.getFirst_eq_some hfirst).1

end Cozal
