import Cozal.Source.Reachable

namespace Cozal

open Transposer

/-!
# Evaluating calls

A sequence of calls on `Steps` can be run.  This gives the states of long runs, which are needed
where something happens only once there are too many checkpoints.

* `Steps.Call.eval`, `Steps.evalAll` — what calls leave behind.
* `Steps.reachable_of_evalAll` — it is reachable.
* `Outcome.check` — a condition on it that can be decided.
* `Steps.eachInTurn` — the calls that saturate one step after the other.
-/

variable {T : Type} [Transposer T]

/-- What a call returns meets a condition. -/
def Outcome.check {α : Type} (x : Outcome α) (p : α → Bool) : Bool :=
  match x with
  | .ok a => p a
  | .panic _ => false
  | .running => false

/-- A call that passes the check has returned. -/
theorem Outcome.exists_of_check {α : Type} {x : Outcome α} {p : α → Bool}
    (h : x.check p = true) : ∃ a, x = .ok a ∧ p a = true := by
  cases x with
  | ok a => exact ⟨a, rfl, h⟩
  | panic _ | running => cases h

namespace Steps

variable {s s' : Steps T}

section Build

variable [BuildProfile]

/-- What a call leaves behind. -/
def Call.eval (c : Call T) (s : Steps T) : Outcome (Steps T) :=
  match c with
  | .getBeforeOrAt fuel time pinnedTimes => do
      let (_, s) ← s.getBeforeOrAt fuel time pinnedTimes
      return s
  | .getBeforeOrAtEvents time pinnedTimes => do
      let (_, s) ← s.getBeforeOrAtEvents time pinnedTimes
      return s
  | .deleteBefore time => do
      let (_, s) ← s.deleteBefore time
      return s
  | .poll i fuel answers => do
      let step ← Outcome.unwrap .dequeIndex s.steps[i]?
      Outcome.assert .stepPoll (step.isSaturating = true)
      let p ← step.poll fuel answers
      return s.setStep i p.step

/-- What a call is evaluated to is what it does. -/
theorem Call.does_of_eval {c : Call T} (h : c.eval s = .ok s') : c.Does s s' := by
  cases c with
  | getBeforeOrAt fuel time pinnedTimes =>
    simp only [Call.eval, Outcome.bind_eq_ok, Outcome.pure_eq, Outcome.ok.injEq] at h
    obtain ⟨⟨r, s₁⟩, hr, rfl⟩ := h
    exact .getBeforeOrAt fuel time pinnedTimes hr
  | getBeforeOrAtEvents time pinnedTimes =>
    simp only [Call.eval, Outcome.bind_eq_ok, Outcome.pure_eq, Outcome.ok.injEq] at h
    obtain ⟨⟨r, s₁⟩, hr, rfl⟩ := h
    exact .getBeforeOrAtEvents time pinnedTimes hr
  | deleteBefore time =>
    simp only [Call.eval, Outcome.bind_eq_ok, Outcome.pure_eq, Outcome.ok.injEq] at h
    obtain ⟨⟨r, s₁⟩, hr, rfl⟩ := h
    exact .deleteBefore time hr
  | poll i fuel answers =>
    simp only [Call.eval, Outcome.bind_eq_ok, Outcome.unwrap_eq_ok, Outcome.pure_eq,
      Outcome.ok.injEq, Outcome.assert_eq_ok] at h
    obtain ⟨step, hstep, -, hsat, p, hp, rfl⟩ := h
    exact .poll i fuel answers hstep hsat hp

/-- What one call after the other leaves behind. -/
def evalAll : List (Call T) → Steps T → Outcome (Steps T)
  | [], s => return s
  | c :: calls, s => do
      let s ← c.eval s
      evalAll calls s

/-- Evaluating calls extends a run. -/
theorem reachable_of_evalAll {transposer : T} {startTime : Time T} {rngSeed : Seed T}
    {calls calls' : List (Call T)}
    (h : Reachable transposer startTime rngSeed calls s) (heval : evalAll calls' s = .ok s') :
    Reachable transposer startTime rngSeed (calls ++ calls') s' := by
  induction calls' generalizing calls s with
  | nil =>
    obtain rfl := Outcome.ok.inj heval
    simpa using h
  | cons c calls' ih =>
    obtain ⟨s₁, hc, heval⟩ := Outcome.bind_eq_ok.mp heval
    simpa using ih (h.call trivial (Call.does_of_eval hc)) heval

end Build

/-- Nothing is pushed behind a last step that is not saturated. -/
theorem tryNextScheduled_eq_self {last : Step T} (hlast : s.steps.getLast? = some last)
    (hsat : last.isSaturated = false) : s.tryNextScheduled = .ok s := by
  simp [tryNextScheduled, getLast, hlast, hsat]

/-- Complete the first step, and then complete each of the next `n` steps of a transposer that has
    something scheduled at each time. -/
def eachInTurn (fuel : ℕ) : ℕ → List (Call Script)
  | 0 => [.poll 0 fuel []]
  | n + 1 => eachInTurn fuel n ++
      [.getBeforeOrAtEvents (n + 1 : ℕ) [], .poll (n + 1) fuel []]

end Steps

end Cozal
