import Mathlib.Data.Int.Notation
import Cozal.Lib.Run
import Cozal.Lib.Since

namespace Cozal

/-!
# Wakers that can be replaced

A `ReplaceWaker` passes a wake on to the waker that was registered last, and remembers that it was
woken until the next registration.  It lives as long as a waker of it does; what is registered while
there is none is forgotten at once.

* `ReplaceWaker.register`, `ReplaceWaker.getWaker`, `ReplaceWaker.wake` — the operations, and what
  else a waker can do: it is cloned or dropped.
* `ReplaceWaker.Step` — any order of them on what one `Weak` points to.
* `Woken`, `Registered` — what a log says: somebody has been woken, or a waker has been registered,
  since a waker of the `ReplaceWaker` was last not there.
* `replace_waker_log` — in every run a registration returns a waker exactly when the log says that
  it was woken, and a wake goes to the waker that the log says was registered.
-/

variable {W : Type}

/-- What a `Weak<ReplaceWaker>` points to while it can be upgraded: the inner state, and how many
    `Arc`s there are.  Before a registration the waker is a dummy. -/
structure ReplaceWaker (W : Type) where
  waker : Option W
  woken : Bool
  arcs : ℕ
  alive : 0 < arcs

namespace ReplaceWaker

/-- A `Weak` that cannot be upgraded. -/
def newEmpty : Option (ReplaceWaker W) := none

/-- One more `Arc`. -/
def clone (r : ReplaceWaker W) : ReplaceWaker W :=
  { r with arcs := r.arcs + 1, alive := Nat.succ_pos _ }

/-- One `Arc` less; with the last one everything is gone. -/
def drop (r : ReplaceWaker W) : Option (ReplaceWaker W) :=
  if h : 0 < r.arcs - 1 then some { r with arcs := r.arcs - 1, alive := h } else none

/-- The `Arc` for a `Weak`, counted, and what the `Weak` points to then. -/
def getArcSelf : Option (ReplaceWaker W) → ReplaceWaker W
  | some r => r.clone
  | none => ⟨none, false, 1, Nat.one_pos⟩

/-- Whether a waker is returned, which then is an `Arc` more. -/
def register (weak : Option (ReplaceWaker W)) (waker : W) : Bool × Option (ReplaceWaker W) :=
  let lock := { getArcSelf weak with waker := some waker }
  if !lock.woken then (false, lock.drop)
  else
    let newWaker := { lock with woken := false }.clone
    (true, newWaker.drop)

/-- A waker of the `ReplaceWaker`, which is made when there is none. -/
def getWaker (weak : Option (ReplaceWaker W)) : ReplaceWaker W := getArcSelf weak

/-- Who is woken.  The `Arc` that is woken is consumed. -/
def wake (r : ReplaceWaker W) : Option W × Option (ReplaceWaker W) :=
  let lock := { r with woken := true }
  (lock.waker, lock.drop)

/-- `Waker::wake_by_ref` clones the `Arc` and wakes the clone. -/
def wakeByRef (r : ReplaceWaker W) : Option W × Option (ReplaceWaker W) := r.clone.wake

/-! ### Runs -/

/-- What happened. -/
inductive Happening (W : Type) where
  | registered (waker : W) (returned : Bool)
  | gotWaker
  | cloned
  | dropped
  | woke (target : Option W)
  | wokeByRef (target : Option W)

/-- The owner of the `Weak` registers or gets a waker, or somebody who holds a waker uses it. -/
inductive Step : Option (ReplaceWaker W) → List (Happening W) → Option (ReplaceWaker W) → Prop
    where
  | register {weak} (waker : W) :
      Step weak [.registered waker (register weak waker).1] (register weak waker).2
  | getWaker {weak} : Step weak [.gotWaker] (some (getWaker weak))
  | clone {r} : Step (some r) [.cloned] (some r.clone)
  | drop {r} : Step (some r) [.dropped] r.drop
  | wake {r} : Step (some r) [.woke r.wake.1] r.wake.2
  | wakeByRef {r} : Step (some r) [.wokeByRef r.wakeByRef.1] r.wakeByRef.2

/-- The wakers that are handed out with what happens, less those that are given up. -/
def Happening.handles : Happening W → ℤ
  | .registered _ returned => if returned then 1 else 0
  | .gotWaker => 1
  | .cloned => 1
  | .dropped => -1
  | .woke _ => -1
  | .wokeByRef _ => 0

/-- How many wakers of the `ReplaceWaker` there are. -/
def handles : List (Happening W) → ℤ
  | [] => 0
  | x :: log => x.handles + handles log

/-- Somebody has woken it. -/
def Happening.IsWake : Happening W → Prop
  | .woke _ => True
  | .wokeByRef _ => True
  | _ => False

/-- A waker has been registered. -/
def Happening.IsRegistration : Happening W → Prop
  | .registered _ _ => True
  | _ => False

/-- It has been woken since the last registration, and there has been a waker of it ever since. -/
def Woken (log : List (Happening W)) : Prop :=
  Since Happening.IsWake (fun x => ¬ x.IsRegistration) (fun log => 0 < handles log) log

/-- The waker was registered last, and there has been a waker of it ever since. -/
def Registered (waker : W) (log : List (Happening W)) : Prop :=
  Since (fun x => ∃ returned, x = .registered waker returned) (fun x => ¬ x.IsRegistration)
    (fun log => 0 < handles log) log

/-- The state is what the log says. -/
structure Reflects (weak : Option (ReplaceWaker W)) (log : List (Happening W)) : Prop where
  counted : handles log = weak.elim 0 fun r => (r.arcs : ℤ)
  woken : (weak.elim false (·.woken)) = true ↔ Woken log
  waker : ∀ w, (weak.bind (·.waker)) = some w ↔ Registered w log

/-- The handles of a log and those of what happens next. -/
theorem handles_concat (log : List (Happening W)) (x : Happening W) :
    handles (log ++ [x]) = handles log + x.handles := by
  induction log with
  | nil => simp [handles]
  | cons y log ih => simp [handles, ih, Int.add_assoc]

/-- What happens next wakes it, or is no registration and leaves it woken. -/
theorem woken_concat {log : List (Happening W)} {x : Happening W} : Woken (log ++ [x]) ↔
    0 < handles (log ++ [x]) ∧ (x.IsWake ∨ ¬ x.IsRegistration ∧ Woken log) := since_concat

/-- What happens next registers the waker, or is no registration and leaves the waker registered. -/
theorem registered_concat {log : List (Happening W)} {x : Happening W} {waker : W} :
    Registered waker (log ++ [x]) ↔ 0 < handles (log ++ [x]) ∧
      ((∃ returned, x = .registered waker returned) ∨
        ¬ x.IsRegistration ∧ Registered waker log) := since_concat

/-- An `Arc` is dropped, and what is left is what the log says while there is one. -/
theorem reflects_drop {r : ReplaceWaker W} {log : List (Happening W)}
    (hhandles : handles log = r.arcs - 1)
    (hwoken : 0 < handles log → (r.woken = true ↔ Woken log))
    (hwaker : 0 < handles log → ∀ w, r.waker = some w ↔ Registered w log) :
    Reflects r.drop log := by
  unfold drop
  split
  · rename_i hpos
    have hlog : 0 < handles log := by omega
    exact ⟨by simp only [Option.elim_some]; omega, hwoken hlog, hwaker hlog⟩
  · rename_i hpos
    -- the log says nothing when there is no `Arc`
    have halive := r.alive
    have hlog : ¬ 0 < handles log := by omega
    refine ⟨?_, ?_, ?_⟩
    · simp only [Option.elim_none]
      omega
    · exact iff_of_false Bool.noConfusion fun h => hlog h.at_end
    · exact fun w => iff_of_false nofun fun h => hlog h.at_end

variable {weak weak' : Option (ReplaceWaker W)} {log o : List (Happening W)} {x : Happening W}

/-- Only a registration changes what is registered. -/
theorem registered_concat_other (hx : ¬ x.IsRegistration) (hpos : 0 < handles (log ++ [x]))
    (waker : W) : Registered waker (log ++ [x]) ↔ Registered waker log := by
  have hne : ¬ ∃ returned, x = .registered waker returned := by
    rintro ⟨returned, rfl⟩
    exact hx trivial
  rw [registered_concat]
  tauto

/-- Only a registration or a wake changes whether it was woken. -/
theorem woken_concat_other (hx : ¬ x.IsRegistration) (hx' : ¬ x.IsWake)
    (hpos : 0 < handles (log ++ [x])) : Woken (log ++ [x]) ↔ Woken log := by
  rw [woken_concat]
  tauto

/-- A waker is returned when it was woken. -/
theorem register_fst (weak : Option (ReplaceWaker W)) (waker : W) :
    (register weak waker).1 = weak.elim false (·.woken) := by
  cases weak with
  | none => rfl
  | some r => cases hw : r.woken <;> simp [register, getArcSelf, clone, hw]

/-- What a registration leaves: it has the waker, and is not woken. -/
theorem register_eq (weak : Option (ReplaceWaker W)) (waker : W) :
    ∃ r : ReplaceWaker W, (register weak waker).2 = r.drop ∧ r.waker = some waker ∧
      r.woken = false ∧ (r.arcs : ℤ) = (weak.elim 0 fun r => (r.arcs : ℤ)) + 1 +
        (Happening.registered waker (register weak waker).1).handles := by
  cases weak with
  | none =>
    refine ⟨⟨some waker, false, 1, Nat.one_pos⟩, rfl, rfl, rfl, ?_⟩
    simp [register, getArcSelf, Happening.handles]
  | some r =>
    cases hw : r.woken with
    | false =>
      have hreg : register (some r) waker = (false, { r.clone with waker := some waker }.drop) := by
        simp [register, getArcSelf, clone, hw]
      rw [hreg]
      refine ⟨{ r.clone with waker := some waker }, rfl, rfl, hw, ?_⟩
      simp [clone, Happening.handles]
    | true =>
      have hreg : register (some r) waker
          = (true, { r.clone.clone with waker := some waker, woken := false }.drop) := by
        simp [register, getArcSelf, clone, hw]
      rw [hreg]
      refine ⟨{ r.clone.clone with waker := some waker, woken := false }, rfl, rfl, rfl, ?_⟩
      simp [clone, Happening.handles]

/-- A registration is reflected. -/
theorem Reflects.register (h : Reflects weak log) (waker : W) :
    Reflects (register weak waker).2
      (log ++ [.registered waker (ReplaceWaker.register weak waker).1]) := by
  obtain ⟨r, heq, hwaker, hwoken, harcs⟩ := register_eq weak waker
  have hhandles := h.counted
  rw [heq]
  refine reflects_drop ?_ ?_ ?_
  · rw [handles_concat, hhandles, harcs]
    omega
  · intro _
    rw [hwoken, woken_concat]
    refine iff_of_false Bool.noConfusion ?_
    rintro ⟨-, hwake | ⟨hnot, -⟩⟩
    · exact hwake
    · exact hnot trivial
  · intro hpos w
    rw [hwaker, registered_concat, Option.some.injEq]
    constructor
    · rintro rfl
      exact ⟨hpos, Or.inl ⟨_, rfl⟩⟩
    · rintro ⟨-, ⟨returned, heq⟩ | ⟨hnot, -⟩⟩
      · exact (Happening.registered.inj heq).1
      · exact absurd trivial hnot

/-- An `Arc` is given away. -/
theorem Reflects.getWaker (h : Reflects weak log) :
    Reflects (some (getWaker weak)) (log ++ [.gotWaker]) := by
  have hcounted := h.counted
  have hlog : handles (log ++ [.gotWaker]) = handles log + 1 := handles_concat _ _
  have hpos : 0 < handles (log ++ [Happening.gotWaker]) := by
    cases weak with
    | none => simp_all
    | some r =>
      simp only [Option.elim_some] at hcounted
      omega
  have hstate : (getArcSelf weak).woken = weak.elim false (·.woken) ∧
      (getArcSelf weak).waker = weak.bind (·.waker) := by
    cases weak <;> exact ⟨rfl, rfl⟩
  refine ⟨?_, ?_, ?_⟩
  · rw [hlog, hcounted]
    cases weak <;> rfl
  · show (getArcSelf weak).woken = true ↔ _
    rw [woken_concat_other id id hpos, ← h.woken, hstate.1]
  · intro w
    show (getArcSelf weak).waker = some w ↔ _
    rw [registered_concat_other id hpos, ← h.waker, hstate.2]

/-- An `Arc` is cloned. -/
theorem Reflects.clone {r : ReplaceWaker W} (h : Reflects (some r) log) :
    Reflects (some r.clone) (log ++ [.cloned]) := by
  have hcounted : handles log = r.arcs := h.counted
  have hlog : handles (log ++ [.cloned]) = r.arcs + 1 := by
    rw [handles_concat, hcounted]
    rfl
  have hpos : 0 < handles (log ++ [Happening.cloned]) := by omega
  refine ⟨hlog, ?_, ?_⟩
  · rw [woken_concat_other id id hpos, ← h.woken]
    rfl
  · intro w
    rw [registered_concat_other id hpos, ← h.waker]
    rfl

/-- An `Arc` is dropped. -/
theorem Reflects.drop {r : ReplaceWaker W} (h : Reflects (some r) log) :
    Reflects r.drop (log ++ [.dropped]) := by
  have hcounted : handles log = r.arcs := h.counted
  refine reflects_drop ?_ ?_ ?_
  · rw [handles_concat, hcounted]
    rfl
  · intro hpos
    rw [woken_concat_other id id hpos, ← h.woken]
    rfl
  · intro hpos w
    rw [registered_concat_other id hpos, ← h.waker]
    rfl

/-- An `Arc` is woken, and dropped after that. -/
theorem Reflects.wake {r : ReplaceWaker W} (h : Reflects (some r) log) (r' : ReplaceWaker W)
    (hwaker : r'.waker = r.waker) (hx : ¬ x.IsRegistration) (hx' : x.IsWake)
    (hcount : r.arcs + x.handles = r'.arcs - 1) : Reflects r'.wake.2 (log ++ [x]) := by
  have hcounted : handles log = r.arcs := h.counted
  refine reflects_drop ?_ ?_ ?_
  · rw [handles_concat, hcounted]
    exact hcount
  · exact fun hpos => iff_of_true rfl (woken_concat.mpr ⟨hpos, Or.inl hx'⟩)
  · intro hpos w
    rw [registered_concat_other hx hpos, ← h.waker]
    show r'.waker = _ ↔ r.waker = _
    rw [hwaker]

/-- **Whatever happens** the state stays what the log says. -/
theorem Reflects.step (h : Reflects weak log) (hstep : Step weak o weak') :
    Reflects weak' (log ++ o) := by
  cases hstep with
  | register waker => exact h.register waker
  | getWaker => exact h.getWaker
  | clone => exact h.clone
  | drop => exact h.drop
  | wake => exact h.wake _ rfl id trivial rfl
  | @wakeByRef r =>
    refine h.wake r.clone rfl id trivial ?_
    simp [ReplaceWaker.clone, Happening.handles]

/-- What happens in a run is reflected. -/
theorem Reflects.run (hrun : Run Step weak o weak') (h : Reflects weak log) :
    Reflects weak' (log ++ o) := by
  induction hrun generalizing log with
  | refl => simpa using h
  | head hstep _ ih =>
    rw [← List.append_assoc]
    exact ih (h.step hstep)

/-- One thing happens at a time. -/
theorem Step.length_eq (h : Step weak o weak') : o.length = 1 := by
  cases h <;> rfl

/-- The state that something happens in, and what the log said then. -/
theorem reflects_before {before after : List (Happening W)}
    (hrun : Run Step newEmpty (before ++ x :: after) weak) :
    ∃ u u', Reflects u before ∧ Step u [x] u' := by
  rw [List.append_cons] at hrun
  obtain ⟨v, hv, -⟩ := hrun.split fun hstep => Nat.le_of_eq hstep.length_eq
  obtain ⟨u, hu, hstep⟩ := hv.last fun hstep => hstep.length_eq
  have hnew : Reflects (newEmpty : Option (ReplaceWaker W)) [] :=
    ⟨rfl, iff_of_false Bool.noConfusion not_since_nil,
      fun w => iff_of_false nofun not_since_nil⟩
  exact ⟨u, v, hnew.run hu, hstep⟩

end ReplaceWaker

open ReplaceWaker in
/-- **What is not lost.**  In every run a registration returns a waker to poll with exactly when
    there has been a wake since the last registration, and a waker of the `ReplaceWaker` ever since;
    and a wake goes to the waker that was registered last, if there has been one ever since, and
    else to nobody. -/
theorem replace_waker_log {log : List (Happening W)} {weak : Option (ReplaceWaker W)}
    (h : Run ReplaceWaker.Step newEmpty log weak) :
    (∀ before waker returned after, log = before ++ .registered waker returned :: after →
      (returned = true ↔ Woken before)) ∧
    ∀ before x after, log = before ++ x :: after → ∀ target,
      x = .woke target ∨ x = .wokeByRef target → ∀ w, target = some w ↔ Registered w before := by
  refine ⟨?_, ?_⟩
  · rintro before waker returned after rfl
    obtain ⟨u, u', hreflects, hstep⟩ := reflects_before h
    cases hstep with
    | register waker =>
      rw [register_fst]
      exact hreflects.woken
  · rintro before x after rfl target hx
    obtain ⟨u, u', hreflects, hstep⟩ := reflects_before h
    rcases hx with rfl | rfl
    · cases hstep with
      | wake => exact hreflects.waker
    · cases hstep with
      | wakeByRef => exact hreflects.waker

open ReplaceWaker in
/-- A wake that uses up the last waker is forgotten; a wake by reference is not. -/
theorem replace_waker_log_last :
    ¬ Woken [.gotWaker, .registered 5 false, .woke (some 5)] ∧
      Woken [.gotWaker, .registered 5 false, .wokeByRef (some 5)] := by
  have hstart : Run ReplaceWaker.Step (newEmpty : Option (ReplaceWaker ℕ))
      [.gotWaker, .registered 5 false] _ :=
    (Run.single ReplaceWaker.Step.getWaker).tail (ReplaceWaker.Step.register 5)
  have hwoke : Run ReplaceWaker.Step (newEmpty : Option (ReplaceWaker ℕ))
      [.gotWaker, .registered 5 false, .woke (some 5), .registered 6 false] _ :=
    (hstart.tail ReplaceWaker.Step.wake).tail (ReplaceWaker.Step.register 6)
  have hwokeByRef : Run ReplaceWaker.Step (newEmpty : Option (ReplaceWaker ℕ))
      [.gotWaker, .registered 5 false, .wokeByRef (some 5), .registered 6 true] _ :=
    (hstart.tail ReplaceWaker.Step.wakeByRef).tail (ReplaceWaker.Step.register 6)
  exact ⟨fun h => Bool.noConfusion (((replace_waker_log hwoke).1 _ 6 false [] rfl).mpr h),
    ((replace_waker_log hwokeByRef).1 _ 6 true [] rfl).mp rfl⟩

end Cozal
