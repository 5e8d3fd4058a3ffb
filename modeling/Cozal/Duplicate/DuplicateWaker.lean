import Cozal.Lib.Account
import Cozal.Lib.OrdMap
import Cozal.Lib.Run

namespace Cozal.Duplicate

/-!
# The wakers of the duplicates

A duplicate that polls the shared source registers its own waker first, and hands the source one
that wakes every duplicate.  So whichever duplicate the source was polled for, all of them learn of
an event.

* `EventWakers.getNewWaker`, `EventWakers.wake` — a registration, and what the waker of the source
  does.
* `EventWakersStep` — registrations and wakes, until the source and its wakers are dropped.
* `event_wakers_wake` — every waker that is registered is woken once, unless the duplicate has
  registered another one since; a wake leaves none behind.
-/

variable {Waker : Type}

/-- The map behind an `Arc` that the original holds.  The wakers of the source hold a `Weak` to
    it. -/
structure EventWakers (Waker : Type) where
  wakers : OrdMap ℕ Waker

namespace EventWakers

/-- No waker is stored. -/
def new : EventWakers Waker := ⟨.empty⟩

/-- Register a waker; what is returned is a `DuplicateEventWaker`. -/
def getNewWaker (e : EventWakers Waker) (index : ℕ) (eventWaker : Waker) : EventWakers Waker :=
  ⟨e.wakers.insert index eventWaker⟩

/-- A `DuplicateEventWaker` is woken: it wakes all that is split off, in the order of the
    duplicates. -/
def wake (e : EventWakers Waker) : List (ℕ × Waker) × EventWakers Waker :=
  let (kept, splitOff) := e.wakers.splitOff 0
  (splitOff.entries, ⟨kept⟩)

end EventWakers

/-- What happens to the wakers. -/
inductive WakerHappening (Waker : Type) where
  | registered (index : ℕ) (eventWaker : Waker)
  | woke (woken : List (ℕ × Waker))

/-- What happens to the map.  A wake comes from whoever holds a waker of the source. -/
inductive EventWakersStep :
    EventWakers Waker → List (WakerHappening Waker) → EventWakers Waker → Prop where
  | register {e} (index : ℕ) (eventWaker : Waker) :
      EventWakersStep e [.registered index eventWaker] (e.getNewWaker index eventWaker)
  | wake {e} : EventWakersStep e [.woke e.wake.1] e.wake.2

/-- The wakers that have been registered, each with the index of its duplicate. -/
def registrations (log : List (WakerHappening Waker)) : List (ℕ × Waker) :=
  log.flatMap fun
    | .registered index eventWaker => [(index, eventWaker)]
    | .woke _ => []

/-- The wakers that have been woken. -/
def wokenIn (log : List (WakerHappening Waker)) : List (ℕ × Waker) :=
  log.flatMap fun
    | .registered _ _ => []
    | .woke woken => woken

/-- Two registrations of one duplicate. -/
def SameDuplicate (a b : ℕ × Waker) : Prop := a.1 = b.1

/-- Two entries are compared by the indices of their duplicates. -/
instance : DecidableRel (SameDuplicate : ℕ × Waker → ℕ × Waker → Prop) :=
  fun a b => inferInstanceAs (Decidable (a.1 = b.1))

/-- What became of each registration. -/
abbrev WakerAccount (Waker : Type) :=
  Account (SameDuplicate : ℕ × Waker → ℕ × Waker → Prop)

namespace EventWakers

variable {e e' : EventWakers Waker}

/-- A wake wakes all there are, and leaves none. -/
theorem wake_eq (e : EventWakers Waker) : e.wake = (e.wakers.entries, new) := by
  have hall : ∀ x ∈ e.wakers.entries, decide (0 ≤ x.1) = true := by simp
  have hnone : ∀ x ∈ e.wakers.entries, ¬ decide (x.1 < 0) = true := by simp
  simp only [wake, OrdMap.splitOff, List.filter_eq_self.mpr hall, List.filter_eq_nil_iff.mpr hnone]
  rfl

/-- What is registered for the duplicates: the registrations that are owed a wake. -/
def Owes (a : WakerAccount Waker) (e : EventWakers Waker) : Prop :=
  a.owed.Perm e.wakers.entries

/-- A registration takes the place of that of the same duplicate. -/
theorem Owes.register {a : WakerAccount Waker} (h : Owes a e) (index : ℕ)
    (eventWaker : Waker) :
    Owes (a.emit (index, eventWaker)) (e.getNewWaker index eventWaker) := by
  have hkept : (a.kept (index, eventWaker)).Perm (e.wakers.remove index).entries := by
    refine (h.filter _).trans (List.Perm.of_eq ?_)
    refine List.filter_congr ?_
    intro x _
    exact decide_eq_decide.mpr (not_congr eq_comm)
  exact ((hkept.append_right _).trans (List.perm_append_singleton _ _)).trans
    (e.wakers.entries_insert_perm_remove index eventWaker).symm

/-- A wake settles all accounts. -/
theorem Owes.wake {a : WakerAccount Waker} (h : Owes a e) :
    Owes (a.settle e.wake.1 (e.wake_eq ▸ h)) e.wake.2 := by
  unfold Owes
  rw [show e.wake.2 = new by rw [wake_eq]]
  exact List.Perm.nil

/-- **A run** of registrations and wakes. -/
theorem Owes.run {log : List (WakerHappening Waker)} (hrun : Run EventWakersStep e log e')
    {a : WakerAccount Waker} (h : Owes a e) :
    ∃ a', a'.emitted = a.emitted ++ registrations log ∧
      a'.received = a.received ++ wokenIn log ∧ Owes a' e' := by
  induction hrun generalizing a with
  | refl e => exact ⟨a, (List.append_nil _).symm, (List.append_nil _).symm, h⟩
  | @head e u e' o os hstep _ ih =>
    cases hstep with
    | register index eventWaker =>
      obtain ⟨a', hemitted, hreceived, howes⟩ := ih (h.register index eventWaker)
      refine ⟨a', ?_, ?_, howes⟩
      · rw [hemitted, Account.emit, List.append_assoc]
        rfl
      · rw [hreceived]
        rfl
    | wake =>
      obtain ⟨a', hemitted, hreceived, howes⟩ := ih h.wake
      refine ⟨a', ?_, ?_, howes⟩
      · rw [hemitted]
        rfl
      · rw [hreceived, Account.settle, List.append_assoc]
        rfl

/-- After a wake nothing is registered. -/
theorem run_woke {before : List (WakerHappening Waker)} {woken : List (ℕ × Waker)}
    (hrun : Run EventWakersStep e (before ++ [.woke woken]) e') : e' = new := by
  obtain ⟨u, -, hlast⟩ := hrun.last fun hstep => by cases hstep <;> rfl
  cases hlast with
  | wake => rw [wake_eq]

end EventWakers

open EventWakers in
/-- **No registration is lost.**  In every run of registrations and wakes each waker that has been
    registered has been woken once, or was replaced by a later one of the same duplicate, or is
    still there to be woken; and after a wake none is. -/
theorem event_wakers_wake {log : List (WakerHappening Waker)} {e : EventWakers Waker}
    (h : Run EventWakersStep .new log e) :
    ∃ a : WakerAccount Waker, a.emitted = registrations log ∧ a.received = wokenIn log ∧
      a.owed.Perm e.wakers.entries ∧
      ∀ before woken, log = before ++ [.woke woken] → a.owed = [] := by
  obtain ⟨a, hemitted, hreceived, howes⟩ := Owes.run h (a := .new) List.Perm.nil
  refine ⟨a, hemitted, hreceived, howes, ?_⟩
  rintro before woken rfl
  obtain rfl := run_woke h
  exact List.Perm.eq_nil howes

/-- Two duplicates register, one of them twice, and the source wakes them. -/
theorem event_wakers_wake_twice : ∃ a : WakerAccount ℕ,
    a.emitted = [(1, 5), (0, 6), (1, 7)] ∧ a.received = [(0, 6), (1, 7)] ∧ a.owed = [] := by
  have hrun : Run EventWakersStep (EventWakers.new : EventWakers ℕ) _ _ :=
    (((Run.single (.register 1 5)).tail (.register 0 6)).tail (.register 1 7)).tail .wake
  obtain ⟨a, hemitted, hreceived, -, hwoke⟩ := event_wakers_wake hrun
  exact ⟨a, hemitted, hreceived, hwoke _ _ rfl⟩

end Cozal.Duplicate
