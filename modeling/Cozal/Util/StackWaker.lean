import Cozal.Lib.OrdMap
import Mathlib.Data.List.Destutter

namespace Cozal.Util

/-!
# Many wakers for one task

`StackWaker` wakes everyone who registered with it.  Only the first to register is given a waker of
the `StackWaker`, and is to poll with it; the others go to sleep, and rely on it.

* `StackWaker.register`, `StackWaker.unRegister`, `StackWaker.Wakes` — the operations.
* `StackWaker.Ran` — any sequence of them on a `StackWaker` that is kept alive.
* `latest`, `HandedOut` — what the sequence says of the wakers.
* `no_lost_wakeups` — whoever is asleep is woken by a waker that has been given away.
-/

/-- What a waker is made of: the address of the task and that of the functions for it. -/
structure Waker where
  data : ℕ
  vtable : ℕ
deriving DecidableEq, Repr

namespace Waker

/-- The two wake the same task. -/
def willWake (w1 w2 : Waker) : Bool := w1.data = w2.data && w1.vtable = w2.vtable

/-- The order of the pairs of addresses. -/
def addressLe (w1 w2 : Waker) : Bool :=
  w1.data < w2.data || (w1.data = w2.data && w1.vtable ≤ w2.vtable)

/-- A waker wakes the task that it wakes. -/
theorem willWake_refl (w : Waker) : w.willWake w = true := by simp [willWake]

/-- Two wakers that wake the same task do so either way around. -/
theorem willWake_symm {w1 w2 : Waker} (h : w1.willWake w2 = true) : w2.willWake w1 = true := by
  simp only [willWake, Bool.and_eq_true, decide_eq_true_eq] at h ⊢
  exact ⟨h.1.symm, h.2.symm⟩

end Waker

/-- Of wakers that stand next to each other and wake the same task, the first is kept. -/
def dedupByWillWake (wakers : List Waker) : List Waker :=
  wakers.destutter (fun w2 w1 => ¬ w1.willWake w2 = true)

/-- The wakers that are called when these are drained, in the order of the calls. -/
def wokenOf (drained : List Waker) : List Waker :=
  dedupByWillWake (drained.mergeSort Waker.addressLe)

/-- A `Weak<StackWaker>`: the wakers by their keys, or nothing when there is no `StackWaker`. -/
abbrev StackWaker := Option (OrdMap ℕ Waker)

namespace StackWaker

/-- A `Weak` that cannot be upgraded. -/
def newEmpty : StackWaker := none

/-- No waker is registered. -/
def isEmpty (weak : StackWaker) : Bool := (weak.getD .empty).entries.isEmpty

/-- Register a waker; whether the caller is given a waker of the `StackWaker` to poll with, because
    it is the only one who waits. -/
def register (weak : StackWaker) (key : ℕ) (waker : Waker) : Bool × StackWaker :=
  let wakers := weak.getD .empty
  (wakers.entries.isEmpty, some (wakers.insert key waker))

/-- Take away the waker of a key, if there is one. -/
def unRegister (weak : StackWaker) (key : ℕ) : StackWaker :=
  weak.map fun wakers => wakers.remove key

/-- The `StackWaker` is woken: its wakers are drained in any order, and all of them are gone. -/
inductive Wakes : StackWaker → List Waker → StackWaker → Prop
  | drain {wakers : OrdMap ℕ Waker} {drained : List Waker} (h : drained.Perm wakers.values) :
      Wakes (some wakers) (wokenOf drained) (some .empty)

/-- What happened to a `StackWaker`; of a registration, whether a waker was given away. -/
inductive Happening where
  | registered (key : ℕ) (waker : Waker) (emitted : Bool)
  | unRegistered (key : ℕ)
  | woke (woken : List Waker)
deriving DecidableEq, Repr

/-- The sequences of operations on one `StackWaker`, the last operation first, with what the
    `StackWaker` is after each. -/
inductive Ran : List (Happening × StackWaker) → StackWaker → Prop
  | new : Ran [] newEmpty
  | register {log : List (Happening × StackWaker)} {weak : StackWaker} (h : Ran log weak) (key : ℕ)
      (waker : Waker) :
      Ran ((.registered key waker (weak.register key waker).1, (weak.register key waker).2) :: log)
        (weak.register key waker).2
  | unRegister {log : List (Happening × StackWaker)} {weak : StackWaker} (h : Ran log weak)
      (key : ℕ) : Ran ((.unRegistered key, weak.unRegister key) :: log) (weak.unRegister key)
  | wake {log : List (Happening × StackWaker)} {weak weak' : StackWaker} {woken : List Waker}
      (h : Ran log weak) (hwakes : Wakes weak woken weak') : Ran ((.woke woken, weak') :: log) weak'

/-- The waker that was registered for the key last, unless it was taken away or woken since. -/
def latest : List (Happening × StackWaker) → ℕ → Option Waker
  | [], _ => none
  | (.registered key waker _, _) :: log, k => if k = key then some waker else latest log k
  | (.unRegistered key, _) :: log, k => if k = key then none else latest log k
  | (.woke _, _) :: _, _ => none

/-- A waker of the `StackWaker` has been given away, and since then it has never been empty. -/
def HandedOut (log : List (Happening × StackWaker)) : Prop :=
  ∃ recent key waker after older, log = recent ++ (.registered key waker true, after) :: older ∧
    after.isEmpty = false ∧ ∀ e ∈ recent, e.2.isEmpty = false

/-! ### Who is woken -/

/-- Each waker is kept, or one before it that wakes the same task. -/
theorem exists_mem_destutter' (a : Waker) (wakers : List Waker) : ∀ w ∈ a :: wakers,
    ∃ w' ∈ wakers.destutter' (fun w2 w1 => ¬ w1.willWake w2 = true) a, w.willWake w' = true := by
  induction wakers generalizing a with
  | nil =>
    intro w hw
    rw [List.mem_singleton.mp hw]
    exact ⟨a, List.mem_destutter' _ _ a, a.willWake_refl⟩
  | cons b rest ih =>
    intro w hw
    rw [List.destutter'_cons]
    split
    · rcases List.mem_cons.mp hw with rfl | hw
      · exact ⟨w, List.mem_cons_self, w.willWake_refl⟩
      · obtain ⟨w', hmem, hwake⟩ := ih b w hw
        exact ⟨w', List.mem_cons_of_mem _ hmem, hwake⟩
    · rename_i hsame
      rcases List.mem_cons.mp hw with rfl | hw
      · exact ih w w List.mem_cons_self
      rcases List.mem_cons.mp hw with rfl | hw
      · exact ⟨a, List.mem_destutter' _ _ a, not_not.mp hsame⟩
      · exact ih a w (List.mem_cons_of_mem _ hw)

/-- Each waker that is drained is called, or one that wakes the same task. -/
theorem exists_mem_wokenOf {drained : List Waker} {w : Waker} (h : w ∈ drained) :
    ∃ w' ∈ wokenOf drained, w'.willWake w = true := by
  have hsorted : w ∈ drained.mergeSort Waker.addressLe := List.mem_mergeSort.mpr h
  unfold wokenOf dedupByWillWake
  cases hlist : drained.mergeSort Waker.addressLe with
  | nil =>
    rw [hlist] at hsorted
    cases hsorted
  | cons a rest =>
    rw [hlist] at hsorted
    obtain ⟨w', hmem, hwake⟩ := exists_mem_destutter' a rest w hsorted
    exact ⟨w', hmem, Waker.willWake_symm hwake⟩

/-! ### What holds after any sequence of operations -/

variable {weak : StackWaker} {log : List (Happening × StackWaker)}

/-- The wakers are those that were registered last for their keys. -/
theorem Ran.get (h : Ran log weak) (key : ℕ) : (weak.getD .empty).get key = latest log key := by
  induction h with
  | new => rfl
  | register h key' waker ih =>
    rw [latest, ← ih]
    exact OrdMap.get_insert _ key' key waker
  | @unRegister log weak h key' ih =>
    rw [latest, ← ih]
    cases weak with
    | none => exact (ite_self _).symm
    | some wakers => exact OrdMap.get_remove wakers key' key
  | wake h hwakes ih =>
    cases hwakes
    rfl

/-- Taking a waker away does not fill the `StackWaker`. -/
theorem isEmpty_of_unRegister {key : ℕ} (h : (weak.unRegister key).isEmpty = false) :
    weak.isEmpty = false := by
  cases weak with
  | none => exact h
  | some wakers =>
    cases hempty : isEmpty (some wakers) with
    | false => rfl
    | true =>
      have hnil : wakers.entries = [] := List.isEmpty_iff.mp hempty
      simp [unRegister, isEmpty, OrdMap.remove, hnil] at h

/-- A waker that has been given away stays so as long as others are registered. -/
theorem HandedOut.cons (h : HandedOut log) {e : Happening × StackWaker}
    (hfull : e.2.isEmpty = false) : HandedOut (e :: log) := by
  obtain ⟨recent, key, waker, after, older, rfl, hafter, hrecent⟩ := h
  refine ⟨e :: recent, key, waker, after, older, rfl, hafter, ?_⟩
  intro e' he'
  rcases List.mem_cons.mp he' with rfl | hmem
  · exact hfull
  · exact hrecent e' hmem

/-- A `StackWaker` with a waker has given one of its own away since it was empty. -/
theorem Ran.handedOut (h : Ran log weak) (hfull : weak.isEmpty = false) : HandedOut log := by
  induction h with
  | new => cases hfull
  | @register log weak h key waker ih =>
    cases hbefore : weak.isEmpty with
    | false => exact (ih hbefore).cons hfull
    | true =>
      have hemitted : (weak.register key waker).1 = true := hbefore
      rw [hemitted]
      exact ⟨[], key, waker, _, log, rfl, hfull, nofun⟩
  | unRegister h key ih => exact (ih (isEmpty_of_unRegister hfull)).cons hfull
  | wake h hwakes ih =>
    cases hwakes
    cases hfull

/-- Whatever is done to a `StackWaker` that is kept alive: a waker that is registered with it relies
    on one that has been given away; the next is given away exactly when no waker is registered; and
    waking it wakes whoever registered last for each key, and leaves no waker behind. -/
theorem no_lost_wakeups (h : Ran log weak) :
    (weak.isEmpty = false → HandedOut log) ∧
    (∀ key waker, (weak.register key waker).1 = true ↔ weak.isEmpty = true) ∧
    ∀ woken weak', Wakes weak woken weak' →
      (∀ key waker, latest log key = some waker → ∃ w ∈ woken, w.willWake waker = true) ∧
      weak'.isEmpty = true ∧ ∀ key waker, (weak'.register key waker).1 = true := by
  refine ⟨h.handedOut, fun _ _ => Iff.rfl, ?_⟩
  rintro woken weak' ⟨hdrained⟩
  refine ⟨?_, rfl, fun _ _ => rfl⟩
  intro key waker hlatest
  rw [← h.get key] at hlatest
  exact exists_mem_wokenOf (hdrained.mem_iff.mpr (OrdMap.mem_values.mpr ⟨key, hlatest⟩))

/-- Two keys are registered, and the second waker is told apart from the first by its address. -/
theorem no_lost_wakeups_two :
    (∃ w ∈ wokenOf [⟨16, 32⟩, ⟨64, 32⟩], w.willWake ⟨64, 32⟩ = true) ∧
      isEmpty (some .empty) = true := by
  have hran : Ran _ _ := .register (.register .new 0 ⟨16, 32⟩) 1 ⟨64, 32⟩
  obtain ⟨-, -, hwakes⟩ := no_lost_wakeups hran
  obtain ⟨hwoken, hempty, -⟩ :=
    hwakes _ _ (.drain (List.Perm.refl [Waker.mk 16 32, Waker.mk 64 32]))
  exact ⟨hwoken 1 ⟨64, 32⟩ rfl, hempty⟩

end StackWaker

end Cozal.Util
