import Mathlib.Data.Prod.Lex
import Mathlib.Order.Lattice
import Mathlib.Tactic.Common

namespace Cozal

/-!
# Times within a step

* `SubStepTime` — a point of the canonical order: a time and the index of the sub step.
* `ScheduledTime` — the key of a scheduled event: its time, the index of the sub step that
  scheduled it and the number of events that sub step had scheduled before, compared in this
  order (`ScheduledTime.lt_iff`).
-/

variable {Time : Type}

/-- A time with the canonical index of what happened at it. -/
structure SubStepTime (Time : Type) where
  index : ℕ
  time : Time
deriving DecidableEq, Repr

/-- The key of a scheduled event. -/
@[ext] structure ScheduledTime (Time : Type) where
  time : Time
  parentIndex : ℕ
  emissionIndex : ℕ
deriving DecidableEq, Repr

namespace SubStepTime

/-- The point the initial handler runs at. -/
def newInit (time : Time) : SubStepTime Time := ⟨0, time⟩

/-- The key of the event scheduled for `time` from this point as number `emissionIndex`. -/
def spawnScheduled (s : SubStepTime Time) (time : Time) (emissionIndex : ℕ) :
    ScheduledTime Time :=
  ⟨time, s.index, emissionIndex⟩

/-- The key stands at the time it is made for. -/
@[simp] theorem spawnScheduled_time (s : SubStepTime Time) (t : Time) (e : ℕ) :
    (s.spawnScheduled t e).time = t := rfl

end SubStepTime

namespace ScheduledTime

/-- The place of a key among those of its time: who scheduled it, and as which number. -/
def rank (k : ScheduledTime Time) : ℕ ×ₗ ℕ := toLex (k.parentIndex, k.emissionIndex)

/-- The fields in the order in which keys are compared. -/
def fields (k : ScheduledTime Time) : Time ×ₗ ℕ ×ₗ ℕ := toLex (k.time, k.rank)

/-- Keys with the same fields are the same. -/
theorem fields_injective : Function.Injective (fields : ScheduledTime Time → _) := by
  intro a b h
  simp only [fields, rank, EmbeddingLike.apply_eq_iff_eq, Prod.mk.injEq] at h
  exact ScheduledTime.ext h.1 h.2.1 h.2.2

variable [LinearOrder Time]

/-- Keys are compared by their fields, one after the other. -/
instance : LinearOrder (ScheduledTime Time) := LinearOrder.lift' fields fields_injective

/-- Keys are compared by time, then by rank. -/
theorem lt_iff {a b : ScheduledTime Time} :
    a < b ↔ a.time < b.time ∨ (a.time = b.time ∧ a.rank < b.rank) :=
  Prod.Lex.toLex_lt_toLex

/-- A smaller key is not later. -/
theorem time_le_of_le {a b : ScheduledTime Time} (h : a ≤ b) : a.time ≤ b.time := by
  rcases h.eq_or_lt with rfl | h
  · exact le_rfl
  · rcases lt_iff.mp h with h | h
    · exact h.le
    · exact h.1.le

end ScheduledTime

end Cozal
