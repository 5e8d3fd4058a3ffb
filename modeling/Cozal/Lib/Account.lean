import Mathlib.Data.List.Perm.Basic
import Mathlib.Tactic.Common

namespace Cozal

/-!
# Accounts of a broadcast

What one receiver of a broadcast has been sent: each item that was emitted has been received, or
was cancelled by a later one, or is still owed.  That these three add up is a field, so an account
that loses an item, or lists one twice, cannot be built.

* `Account` — the four lists, and that they balance.
* `Account.emit`, `Account.take` — an item is emitted; it is owed, or received at once.
* `Account.deliver`, `Account.settle` — an item that was owed is received, or all of them are.
-/

variable {α : Type}

/-- The items that were emitted, and what became of each. -/
structure Account (cancels : α → α → Prop) where
  emitted : List α
  received : List α
  cancelled : List α
  owed : List α
  balanced : emitted.Perm (received ++ cancelled ++ owed)
  /-- An item that was cancelled comes before one that cancels it. -/
  excused : ∀ item ∈ cancelled, ∃ front canceller back,
    emitted = front ++ canceller :: back ∧ item ∈ front ∧ cancels canceller item

namespace Account

variable {cancels : α → α → Prop}

/-- Nothing has been emitted. -/
def new : Account cancels := ⟨[], [], [], [], List.Perm.refl _, fun _ h => by cases h⟩

/-- What is owed was emitted. -/
theorem mem_emitted (a : Account cancels) {item : α} (h : item ∈ a.owed) : item ∈ a.emitted :=
  a.balanced.mem_iff.mpr (List.mem_append_right _ h)

/-- The last item of a list may as well stand in the middle. -/
theorem perm_middle_last (l l' : List α) (item : α) :
    (l ++ l' ++ [item]).Perm (l ++ [item] ++ l') := by
  rw [List.append_assoc, List.append_assoc]
  exact List.perm_append_comm.append_left l

variable [DecidableRel cancels]

/-- What is owed and stays so when the item is emitted. -/
def kept (a : Account cancels) (item : α) : List α :=
  a.owed.filter (fun other => ¬ cancels item other)

/-- What the item cancels when it is emitted, in addition to what was cancelled before. -/
def cancelledBy (a : Account cancels) (item : α) : List α :=
  a.cancelled ++ a.owed.filter (fun other => cancels item other)

/-- The item only moves what it cancels. -/
theorem balanced_cancelledBy (a : Account cancels) (item : α) :
    a.emitted.Perm (a.received ++ a.cancelledBy item ++ a.kept item) := by
  have hsplit : (a.owed.filter (fun other => decide (cancels item other)) ++
      a.owed.filter (fun other => decide (¬ cancels item other))).Perm a.owed := by
    simpa using List.filter_append_perm (fun other => decide (cancels item other)) a.owed
  have h := a.balanced.trans (hsplit.symm.append_left (a.received ++ a.cancelled))
  simpa [cancelledBy, kept, List.append_assoc] using h

/-- What has been cancelled was emitted before what cancels it. -/
theorem excused_cancelledBy (a : Account cancels) (item : α) :
    ∀ other ∈ a.cancelledBy item, ∃ front canceller back,
      a.emitted ++ [item] = front ++ canceller :: back ∧ other ∈ front ∧
        cancels canceller other := by
  intro other hother
  rcases List.mem_append.mp hother with hold | hnew
  · obtain ⟨front, canceller, back, hemitted, hmem, hcancels⟩ := a.excused other hold
    exact ⟨front, canceller, back ++ [item], by simp [hemitted], hmem, hcancels⟩
  · obtain ⟨howed, hcancels⟩ := List.mem_filter.mp hnew
    exact ⟨a.emitted, item, [], rfl, a.mem_emitted howed, of_decide_eq_true hcancels⟩

/-- An item is emitted, and is owed. -/
def emit (a : Account cancels) (item : α) : Account cancels where
  emitted := a.emitted ++ [item]
  received := a.received
  cancelled := a.cancelledBy item
  owed := a.kept item ++ [item]
  balanced := by
    rw [← List.append_assoc]
    exact (a.balanced_cancelledBy item).append_right [item]
  excused := a.excused_cancelledBy item

/-- An item is emitted, and is received at once. -/
def take (a : Account cancels) (item : α) : Account cancels where
  emitted := a.emitted ++ [item]
  received := a.received ++ [item]
  cancelled := a.cancelledBy item
  owed := a.kept item
  balanced := by
    have h := (a.balanced_cancelledBy item).append_right [item]
    rw [List.append_assoc a.received] at h
    rw [List.append_assoc (a.received ++ [item])]
    exact h.trans (perm_middle_last _ _ item)
  excused := a.excused_cancelledBy item

/-- An item that was owed is received. -/
def deliver (a : Account cancels) (item : α) (rest : List α) (h : a.owed.Perm (item :: rest)) :
    Account cancels where
  emitted := a.emitted
  received := a.received ++ [item]
  cancelled := a.cancelled
  owed := rest
  balanced := by
    have hlast : a.owed.Perm (rest ++ [item]) := h.trans (List.perm_append_singleton item rest).symm
    have hall := a.balanced.trans (hlast.append_left (a.received ++ a.cancelled))
    rw [← List.append_assoc, List.append_assoc a.received] at hall
    rw [List.append_assoc (a.received ++ [item])]
    exact hall.trans (perm_middle_last _ _ item)
  excused := a.excused

/-- All that was owed is received, in some order. -/
def settle (a : Account cancels) (all : List α) (h : a.owed.Perm all) : Account cancels where
  emitted := a.emitted
  received := a.received ++ all
  cancelled := a.cancelled
  owed := []
  balanced := by
    have hall := a.balanced.trans (h.append_left (a.received ++ a.cancelled))
    rw [List.append_nil, List.append_assoc]
    rw [List.append_assoc] at hall
    exact hall.trans (List.perm_append_comm.append_left a.received)
  excused := a.excused

end Account

end Cozal
