import Cozal.Lib.Outcome

namespace Cozal

/-!
# Loops that end when their body says so

`Outcome.loop body` runs the body on one input after the other until it returns a result.  The
inputs stand for what a round of the loop gets from outside; a loop that uses them up is still
running.

* `Outcome.loop_ok` — the rule for a loop that returns: what the rounds keep holds before the
  last of them.
* `Outcome.Avoids.loop` — the rule for the sites a loop does not panic at.
* `Outcome.AllRounds` — a condition on every round the loop gets to.
-/

namespace Outcome

variable {ι σ α : Type}

/-- Run the body until it returns a result. -/
def loop (body : ι → σ → Outcome (Option α × σ)) : List ι → σ → Outcome (α × σ)
  | [], _ => .running
  | i :: is, s => do
      let (a, s) ← body i s
      match a with
      | some a => return (a, s)
      | none => loop body is s

/-- Every round the loop gets to meets a condition on its input and the state before it. -/
def AllRounds (body : ι → σ → Outcome (Option α × σ)) (meets : ι → σ → Prop) :
    List ι → σ → Prop
  | [], _ => True
  | i :: is, s => meets i s ∧ ∀ s', body i s = .ok (none, s') → AllRounds body meets is s'

variable {body : ι → σ → Outcome (Option α × σ)} {meets : ι → σ → Prop} {P : σ → Prop}

/-- Every round meets a condition that always holds. -/
theorem AllRounds.of_forall (h : ∀ i s, meets i s) (is : List ι) (s : σ) :
    AllRounds body meets is s := by
  induction is generalizing s with
  | nil => trivial
  | cons i is ih => exact ⟨h i s, fun s' _ => ih s'⟩

/-- Rounds that meet a condition meet another one that follows from it and from what they keep. -/
theorem AllRounds.imp {meets' : ι → σ → Prop} {is : List ι} {s : σ}
    (h : AllRounds body meets is s) (hs : P s)
    (hnext : ∀ i s s', P s → meets i s → body i s = .ok (none, s') → P s')
    (himp : ∀ i s, P s → meets i s → meets' i s) : AllRounds body meets' is s := by
  induction is generalizing s with
  | nil => trivial
  | cons i is ih =>
    obtain ⟨hmeets, hrest⟩ := h
    exact ⟨himp i s hs hmeets, fun s' hbody => ih (hrest s' hbody) (hnext i s s' hs hmeets hbody)⟩

/-- Every round meets a condition that follows from what the rounds keep. -/
theorem AllRounds.of_invariant (hmeets : ∀ i s, P s → meets i s)
    (hnext : ∀ i s s', P s → body i s = .ok (none, s') → P s') (is : List ι) {s : σ} (hs : P s) :
    AllRounds body meets is s := by
  have htrue : AllRounds body (fun _ _ => True) is s := .of_forall (fun _ _ => trivial) is s
  refine htrue.imp hs ?_ ?_
  · exact fun i s s' hs _ hbody => hnext i s s' hs hbody
  · exact fun i s hs _ => hmeets i s hs

/-- A loop that returns, returns in a round before which everything the rounds keep holds. -/
theorem loop_ok {is : List ι} {s s' : σ} {a : α} (h : loop body is s = .ok (a, s'))
    (hmeets : AllRounds body meets is s) (hs : P s)
    (hnext : ∀ i s s', P s → meets i s → body i s = .ok (none, s') → P s') :
    ∃ i t, P t ∧ meets i t ∧ body i t = .ok (some a, s') := by
  induction is generalizing s with
  | nil => cases h
  | cons i is ih =>
    simp only [loop, bind_eq_ok] at h
    obtain ⟨⟨r, t⟩, hbody, h⟩ := h
    cases r with
    | some a' =>
      simp only [pure_eq, ok.injEq, Prod.mk.injEq] at h
      obtain ⟨rfl, rfl⟩ := h
      exact ⟨i, s, hs, hmeets.1, hbody⟩
    | none => exact ih h (hmeets.2 t hbody) (hnext i s t hs hmeets.1 hbody)

/-- A loop avoids the sites its rounds avoid after what the rounds keep. -/
theorem Avoids.loop {sites : Panic → Prop} {is : List ι} {s : σ}
    (hmeets : AllRounds body meets is s) (hs : P s)
    (hnext : ∀ i s s', P s → meets i s → body i s = .ok (none, s') → P s')
    (hbody : ∀ i s, P s → meets i s → (body i s).Avoids sites) :
    (loop body is s).Avoids sites := by
  induction is generalizing s with
  | nil => exact .running
  | cons i is ih =>
    refine (hbody i s hs hmeets.1).bind ?_
    rintro ⟨a, t⟩ ht
    cases a with
    | some a => exact .ok _
    | none => exact ih (hmeets.2 t ht) (hnext i s t hs hmeets.1 ht)

end Outcome

end Cozal
