import Mathlib.Algebra.Group.Nat.Defs
import Mathlib.Tactic.Common

namespace Cozal

/-!
# Outcomes of a call

A call of the program ends in one of three ways: it returns, it panics, or it is still
running when the steps granted to it are used up.  `Outcome` records which, as a monad, so
that a method reads like its source: `?` on a panic site is a bind.

* `Outcome.bind_eq_ok` — a sequence returns exactly when its parts do; the rule every proof
  about a returning call takes a `do` block apart with.
* `Outcome.Avoids` — a call does not panic at one of some sites, with a rule for each way to
  build a call.
* `BuildProfile`, `usizeSub` — machine arithmetic on `usize`: an overflow panics where overflow
  checks are on and wraps where they are off.
-/

/-- The site of a panic. -/
inductive Panic where
  | trySend | acknowledgement | expireEvent | popFirstEvent
  | initSaturated | saturateTake | saturateClone | stepPoll | interpolate
  | overflow | assertion | dequeIndex | checkpoint | nextUnsaturated
  | answer | sequenceNumber | repeatStepWakers | repeatStepEmitted | blockedReason
  | inputType | divideByZero | zeroChannel | unregistered | advancement | emptyQueue | unreachable
deriving DecidableEq, Repr

/-- What became of a call: it returned, it panicked, or it has not ended yet. -/
inductive Outcome (α : Type) where
  | ok (a : α)
  | panic (site : Panic)
  | running
deriving DecidableEq, Repr

namespace Outcome

variable {α β γ : Type}

/-- Run `f` on the value `x` returns; a panic or an unfinished call stays what it is. -/
def bind (x : Outcome α) (f : α → Outcome β) : Outcome β :=
  match x with
  | .ok a => f a
  | .panic p => .panic p
  | .running => .running

/-- Programs are put together in sequence. -/
instance : Monad Outcome where
  pure := .ok
  bind := bind

/-- To return is to have returned. -/
@[simp] theorem pure_eq (a : α) : (pure a : Outcome α) = .ok a := rfl

/-- A sequence goes on with what its first part returns. -/
@[simp] theorem ok_bind (a : α) (f : α → Outcome β) : (Outcome.ok a >>= f) = f a := rfl

/-- A sequence panics when its first part does. -/
@[simp] theorem panic_bind (p : Panic) (f : α → Outcome β) :
    ((Outcome.panic p : Outcome α) >>= f) = .panic p := rfl

/-- A sequence does not end when its first part does not. -/
@[simp] theorem running_bind (f : α → Outcome β) :
    ((Outcome.running : Outcome α) >>= f) = .running := rfl

/-- A sequence returns exactly when its first part returns and then its second does. -/
theorem bind_eq_ok {x : Outcome α} {f : α → Outcome β} {b : β} :
    (x >>= f) = .ok b ↔ ∃ a, x = .ok a ∧ f a = .ok b := by
  cases x <;> simp

/-- A sequence panics exactly when its first part panics, or returns and then its second
    does. -/
theorem bind_eq_panic {x : Outcome α} {f : α → Outcome β} {p : Panic} :
    (x >>= f) = .panic p ↔ x = .panic p ∨ ∃ a, x = .ok a ∧ f a = .panic p := by
  cases x <;> simp

/-- `Option::unwrap`, with the site it panics at. -/
def unwrap (p : Panic) : Option α → Outcome α
  | some a => .ok a
  | none => .panic p

/-- What is there is returned. -/
@[simp] theorem unwrap_some (p : Panic) (a : α) : unwrap p (some a) = .ok a := rfl

/-- What is missing is a panic. -/
@[simp] theorem unwrap_none (p : Panic) : unwrap p (none : Option α) = .panic p := rfl

/-- Unwrapping returns exactly what is there. -/
theorem unwrap_eq_ok {p : Panic} {o : Option α} {a : α} :
    unwrap p o = .ok a ↔ o = some a := by
  cases o <;> simp [unwrap]

/-- `Result::unwrap`, with the site it panics at. -/
def expect {ε : Type} (p : Panic) : Except ε α → Outcome α
  | .ok a => .ok a
  | .error _ => .panic p

/-- A success is returned. -/
@[simp] theorem expect_ok {ε : Type} (p : Panic) (a : α) :
    expect p (.ok a : Except ε α) = .ok a := rfl

/-- An error is a panic. -/
@[simp] theorem expect_error {ε : Type} (p : Panic) (e : ε) :
    expect p (.error e : Except ε α) = .panic p := rfl

/-- Expecting a success returns exactly what succeeded. -/
theorem expect_eq_ok {ε : Type} {p : Panic} {r : Except ε α} {a : α} :
    expect p r = .ok a ↔ r = .ok a := by
  cases r <;> simp [expect]

/-- Panic at `p` unless the condition holds. -/
def assert (p : Panic) (c : Prop) [Decidable c] : Outcome Unit :=
  if c then .ok () else .panic p

/-- An assertion returns exactly when the condition holds. -/
theorem assert_eq_ok {p : Panic} {c : Prop} [Decidable c] {u : Unit} :
    assert p c = .ok u ↔ c := by
  unfold assert
  by_cases hc : c
  · simp [hc]
  · simp [hc]

/-! ### Where a call does not panic -/

/-- The call does not panic at one of the sites. -/
def Avoids (sites : Panic → Prop) (x : Outcome α) : Prop :=
  ∀ site, sites site → x ≠ .panic site

variable {sites : Panic → Prop}

/-- A call that returns avoids every site. -/
theorem Avoids.ok (a : α) : (Outcome.ok a).Avoids sites := by
  intro site _ h
  cases h

/-- A call that does not end avoids every site. -/
theorem Avoids.running : (Outcome.running : Outcome α).Avoids sites := by
  intro site _ h
  cases h

/-- A panic avoids every other site. -/
theorem Avoids.panic {p : Panic} (hp : ¬ sites p) : (Outcome.panic p : Outcome α).Avoids sites := by
  intro site hsite h
  cases h
  exact hp hsite

/-- A call that avoids some sites avoids the fewer. -/
theorem Avoids.mono {sites' : Panic → Prop} {x : Outcome α} (h : x.Avoids sites)
    (hsub : ∀ site, sites' site → sites site) : x.Avoids sites' :=
  fun site hsite => h site (hsub site hsite)

/-- A sequence avoids what its parts avoid. -/
theorem Avoids.bind {x : Outcome α} {f : α → Outcome β} (hx : x.Avoids sites)
    (hf : ∀ a, x = .ok a → (f a).Avoids sites) : (x >>= f).Avoids sites := by
  intro site hsite h
  rcases bind_eq_panic.mp h with hpanic | ⟨a, ha, hpanic⟩
  · exact hx site hsite hpanic
  · exact hf a ha site hsite hpanic

/-- Unwrapping panics at its own site only. -/
theorem Avoids.unwrap {p : Panic} (hp : ¬ sites p) (o : Option α) :
    (Outcome.unwrap p o).Avoids sites := by
  cases o with
  | some a => exact .ok a
  | none => exact .panic hp

/-- Expecting a success panics at its own site only. -/
theorem Avoids.expect {ε : Type} {p : Panic} (hp : ¬ sites p) (r : Except ε α) :
    (Outcome.expect p r).Avoids sites := by
  cases r with
  | ok a => exact .ok a
  | error _ => exact .panic hp

/-- An assertion panics at its own site only. -/
theorem Avoids.assert {p : Panic} (hp : ¬ sites p) (c : Prop) [Decidable c] :
    (Outcome.assert p c).Avoids sites := by
  unfold Outcome.assert
  split
  · exact .ok ()
  · exact .panic hp

end Outcome

/-- How the program was built: with `cfg(debug_assertions)` and overflow checks, or without
    either. -/
class BuildProfile where
  debugAssertions : Bool

/-- A build with debug assertions and overflow checks. -/
abbrev debugBuild : BuildProfile := ⟨true⟩

/-- A build without them. -/
abbrev releaseBuild : BuildProfile := ⟨false⟩

section Usize

variable [BuildProfile]

/-- The number of values of a `usize`. -/
def usizeSize : ℕ := 2 ^ 64

/-- `a - b` on `usize`. -/
def usizeSub (a b : ℕ) : Outcome ℕ :=
  if b ≤ a then .ok (a - b)
  else if BuildProfile.debugAssertions then .panic .overflow
  else .ok (a + usizeSize - b)

/-- To subtract something that is not larger does not overflow. -/
theorem usizeSub_of_le {a b : ℕ} (h : b ≤ a) : usizeSub a b = .ok (a - b) := by
  simp [usizeSub, h]

/-- What was added can be subtracted again. -/
theorem usizeSub_add_left (a b : ℕ) : usizeSub (a + b) a = .ok b := by
  rw [usizeSub_of_le (Nat.le_add_right a b), Nat.add_sub_cancel_left]

/-- One can be subtracted from a successor. -/
theorem usizeSub_succ (a : ℕ) : usizeSub (a + 1) 1 = .ok a := by
  rw [usizeSub_of_le (Nat.le_add_left 1 a), Nat.add_sub_cancel]

/-- Without overflow checks a subtraction wraps. -/
example : @usizeSub releaseBuild 0 1 = .ok (usizeSize - 1) := rfl

/-- A subtraction panics by an overflow only. -/
theorem Outcome.Avoids.usizeSub {sites : Panic → Prop} (h : ¬ sites .overflow) (a b : ℕ) :
    (usizeSub a b).Avoids sites := by
  unfold Cozal.usizeSub
  split
  · exact .ok _
  · split
    · exact .panic h
    · exact .ok _

/-- A result of unsigned arithmetic on `size` values, which may be too large. -/
def fitting (size v : ℕ) : Outcome ℕ :=
  if v < size then .ok v
  else if BuildProfile.debugAssertions then .panic .overflow
  else .ok (v % size)

/-- A value that fits is returned as it is. -/
theorem fitting_of_lt {size v : ℕ} (h : v < size) : fitting size v = .ok v := by
  simp [fitting, h]

/-- `a + b` on `usize`. -/
def usizeAdd (a b : ℕ) : Outcome ℕ := fitting usizeSize (a + b)

/-- `a * b` on `usize`. -/
def usizeMul (a b : ℕ) : Outcome ℕ := fitting usizeSize (a * b)

/-- The number of values of a `u128`. -/
def u128Size := 2 ^ 128

/-- `a + b` on `u128`. -/
def u128Add (a b : ℕ) : Outcome ℕ := fitting u128Size (a + b)

/-- `a * b` on `u128`. -/
def u128Mul (a b : ℕ) : Outcome ℕ := fitting u128Size (a * b)

end Usize

/-- `a / b` on unsigned integers, which only panics. -/
def divide (a b : ℕ) : Outcome ℕ := if b = 0 then .panic .divideByZero else .ok (a / b)

/-- `usize::checked_mul`. -/
def checkedMul (a b : ℕ) : Option ℕ := if a * b < usizeSize then some (a * b) else none

end Cozal
