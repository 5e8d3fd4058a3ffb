import Mathlib.Order.Bounds.Basic
import Mathlib.Tactic.Common

namespace Cozal

/-!
# Timetables

What a component that puts out timed events one after the other has before it: a list of events,
which may go on for ever and is told by its finite prefixes, and the times at which something is
due.  Events happen at due times only.

* `Timetable.Covers` — a list that holds every event up to a time.
* `Timetable.NextDue` — the first due time after a time, if there is one.
* `Timetable.Covers.until_next` — what covers a time covers all times before the next due one, so
  who has been handed all of it may sleep until then.
-/

variable {τ ε : Type}

/-- The finite prefixes of a list of timed events, and the times at which something is due. -/
structure Timetable (τ ε : Type) where
  Outputs : List (τ × ε) → Prop
  Due : τ → Prop
  of_append : ∀ {out more}, Outputs (out ++ more) → Outputs out
  due_of_mem : ∀ {out x}, Outputs out → x ∈ out → Due x.1

namespace Timetable

variable [LinearOrder τ] {D : Timetable τ ε} {out : List (τ × ε)} {t t' : τ} {next : Option τ}

/-- Every event after `out` is later than `t`. -/
def Covers (D : Timetable τ ε) (out : List (τ × ε)) (t : τ) : Prop :=
  ∀ rest, D.Outputs (out ++ rest) → ∀ x ∈ rest, t < x.1

/-- The first due time after `t`, or none. -/
inductive NextDue (D : Timetable τ ε) (t : τ) : Option τ → Prop where
  | some {u : τ} : IsLeast {v | D.Due v ∧ t < v} u → NextDue D t (some u)
  | none : (∀ v, D.Due v → v ≤ t) → NextDue D t none

/-- **What covers a time** covers every time before the next due one. -/
theorem Covers.until_next (h : D.Covers out t) (hnext : D.NextDue t next)
    (ht : ∀ u ∈ next, t' < u) : D.Covers out t' := by
  intro rest hrest x hx
  have hdue : D.Due x.1 := D.due_of_mem hrest (List.mem_append_right _ hx)
  have hlt : t < x.1 := h rest hrest x hx
  cases hnext with
  | @some u hleast =>
    have hle : u ≤ x.1 := hleast.2 ⟨hdue, hlt⟩
    exact (ht u rfl).trans_le hle
  | none hnone => exact absurd hlt (not_lt.mpr (hnone _ hdue))

end Timetable

end Cozal
