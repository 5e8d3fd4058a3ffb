import Mathlib.Data.List.Basic
import Mathlib.Tactic.Common

namespace Cozal

/-!
# Runs of a system with outputs

A system is a relation `step s o s'`: from `s` one step leads to `s'` and puts out the list
`o`.  `Run step s o s'` is a finite sequence of such steps, `o` what they put out together.

* `Run.preserves` — what one step preserves, a run preserves.
* `Run.simulate` — a simulation of the steps is one of the runs.
* `Run.split`, `Run.last` — a run can be cut anywhere in what it puts out.
* `EachCall` — every call of a sequence meets a condition in the state it finds;
  `EachCall.keeps_iff`, an invariant that a call keeps exactly under a condition holds all along the
  sequence exactly when every call meets it.
* `Functional` — one step at most leaves each state.
* `Functional.total` — then of two runs from one state, one continues the other; so what
  they put out are prefixes of one another, and two runs that cannot be continued end in the
  same state with the same outputs (`Functional.halted_unique`).
-/

variable {σ ω : Type}

/-- A finite sequence of steps from one state to another, with everything it puts out. -/
inductive Run (step : σ → List ω → σ → Prop) : σ → List ω → σ → Prop where
  | refl (s : σ) : Run step s [] s
  | head {s s' s'' : σ} {o os : List ω} :
      step s o s' → Run step s' os s'' → Run step s (o ++ os) s''

namespace Run

variable {step : σ → List ω → σ → Prop}

/-- A step is a run. -/
theorem single {s s' : σ} {o : List ω} (h : step s o s') : Run step s o s' := by
  simpa using Run.head h (.refl s')

/-- Two runs make one, whose outputs are those of the first and then those of the second. -/
theorem trans {s s' s'' : σ} {o o' : List ω} (h : Run step s o s') (h' : Run step s' o' s'') :
    Run step s (o ++ o') s'' := by
  induction h with
  | refl => simpa using h'
  | head hstep _ ih => rw [List.append_assoc]; exact .head hstep (ih h')

/-- A run is extended by a step at its end. -/
theorem tail {s s' s'' : σ} {o o' : List ω} (h : Run step s o s') (h' : step s' o' s'') :
    Run step s (o ++ o') s'' :=
  h.trans (.single h')

/-- What every step preserves, a run preserves. -/
theorem preserves {P : σ → Prop} (hP : ∀ {s o s'}, step s o s' → P s → P s')
    {s s' : σ} {o : List ω} (h : Run step s o s') (hs : P s) : P s' := by
  induction h with
  | refl => exact hs
  | head hstep _ ih => exact ih (hP hstep hs)

/-- What every step with certain outputs preserves, a run with such outputs preserves. -/
theorem preserves_of_mem {P : σ → Prop} {Q : ω → Prop}
    (hP : ∀ {s o s'}, step s o s' → (∀ x ∈ o, Q x) → P s → P s')
    {s s' : σ} {o : List ω} (h : Run step s o s') (ho : ∀ x ∈ o, Q x) (hs : P s) : P s' := by
  induction h with
  | refl => exact hs
  | head hstep _ ih =>
    have hs' := hP hstep (fun x hx => ho x (List.mem_append_left _ hx)) hs
    exact ih (fun x hx => ho x (List.mem_append_right _ hx)) hs'

/-- A run of one system is a run of another when each step is one there, between the images
    of the states and with the image of the outputs. -/
theorem map {σ' ω' : Type} {step' : σ' → List ω' → σ' → Prop} (f : σ → σ') (g : ω → ω')
    (hstep : ∀ {s o s'}, step s o s' → step' (f s) (o.map g) (f s'))
    {s s' : σ} {o : List ω} (h : Run step s o s') : Run step' (f s) (o.map g) (f s') := by
  induction h with
  | refl => exact .refl _
  | head h _ ih => rw [List.map_append]; exact .head (hstep h) ih

/-- A run of one system is a run of another with the same outputs when each step from a state
    that meets the invariant is one there, and keeps the invariant. -/
theorem simulate {σ' : Type} {step' : σ' → List ω → σ' → Prop} {P : σ → Prop} (f : σ → σ')
    (hstep : ∀ {s o s'}, P s → step s o s' → P s' ∧ step' (f s) o (f s'))
    {s s' : σ} {o : List ω} (h : Run step s o s') (hs : P s) :
    P s' ∧ Run step' (f s) o (f s') := by
  induction h with
  | refl => exact ⟨hs, .refl _⟩
  | head h _ ih =>
    obtain ⟨hs', h'⟩ := hstep hs h
    obtain ⟨hend, hrun⟩ := ih hs'
    exact ⟨hend, .head h' hrun⟩

/-- Where a step puts out one thing at most, a run can be cut anywhere in what it puts out. -/
theorem split (hstep : ∀ {s o s'}, step s o s' → o.length ≤ 1) {s s' : σ} {o o' : List ω}
    (h : Run step s (o ++ o') s') : ∃ u, Run step s o u ∧ Run step u o' s' := by
  generalize hall : o ++ o' = all at h
  induction h generalizing o with
  | refl s =>
    obtain ⟨rfl, rfl⟩ := List.append_eq_nil_iff.mp hall
    exact ⟨s, .refl s, .refl s⟩
  | @head s u s' a as hs hrun ih =>
    cases o with
    | nil => exact ⟨s, .refl s, by rw [List.nil_append] at hall; exact hall ▸ .head hs hrun⟩
    | cons x o =>
      rcases List.append_eq_append_iff.mp hall with ⟨bs, rfl, rfl⟩ | ⟨bs, heq, rfl⟩
      · -- the step puts out all of the first part, so the cut is behind it
        have hbs : bs = [] := by
          have hlen := hstep hs
          rw [List.length_append, List.length_cons] at hlen
          exact List.length_eq_zero_iff.mp (by omega)
        subst hbs
        rw [List.append_nil] at hs
        obtain ⟨v, hv, hrest⟩ := ih (o := []) rfl
        exact ⟨v, by simpa using Run.head hs hv, by simpa using hrest⟩
      · obtain ⟨v, hv, hrest⟩ := ih (o := bs) rfl
        exact ⟨v, heq ▸ .head hs hv, hrest⟩

/-- Where a step puts out one thing, a run that puts out something starts with a step. -/
theorem uncons (hstep : ∀ {s o s'}, step s o s' → o.length = 1) {s s' : σ} {o : List ω} {x : ω}
    (h : Run step s (x :: o) s') : ∃ u, step s [x] u ∧ Run step u o s' := by
  generalize hall : x :: o = all at h
  cases h with
  | refl => cases hall
  | @head _ u _ a as hs hrest =>
    obtain ⟨y, rfl⟩ := List.length_eq_one_iff.mp (hstep hs)
    obtain ⟨rfl, rfl⟩ := List.cons.inj hall
    exact ⟨u, hs, hrest⟩

/-- And one that puts out nothing does nothing. -/
theorem eq_of_nil (hstep : ∀ {s o s'}, step s o s' → o.length = 1) {s s' : σ}
    (h : Run step s [] s') : s' = s := by
  generalize hall : ([] : List ω) = all at h
  cases h with
  | refl => rfl
  | head hs _ =>
    have hlen := congrArg List.length hall
    rw [List.length_append, hstep hs, List.length_nil] at hlen
    omega

/-- Where a step puts out one thing, a run that puts out something last ends with that step. -/
theorem last (hstep : ∀ {s o s'}, step s o s' → o.length = 1) {s s' : σ} {o : List ω} {x : ω}
    (h : Run step s (o ++ [x]) s') : ∃ u, Run step s o u ∧ step u [x] s' := by
  obtain ⟨u, hu, hlast⟩ := h.split fun hs => Nat.le_of_eq (hstep hs)
  refine ⟨u, hu, ?_⟩
  generalize hall : [x] = all at hlast
  cases hlast with
  | refl => cases hall
  | @head _ v _ a as hs hrest =>
    have hlen := congrArg List.length hall
    rw [List.length_append, hstep hs, List.length_singleton] at hlen
    obtain rfl : as = [] := List.length_eq_zero_iff.mp (by omega)
    rw [List.append_nil] at hall
    generalize hnil : ([] : List ω) = none at hrest
    cases hrest with
    | refl => exact hall ▸ hs
    | head hs' _ =>
      -- a further step would put out something
      have hlen' := congrArg List.length hnil
      rw [List.length_append, hstep hs', List.length_nil] at hlen'
      omega

end Run

/-! ### Sequences of calls -/

section Calls

variable {κ : Type} {apply : σ → κ → σ}

/-- Each call meets the condition in the state that those before it have led to. -/
def EachCall (apply : σ → κ → σ) (meets : σ → κ → Prop) : σ → List κ → Prop
  | _, [] => True
  | s, c :: calls => meets s c ∧ EachCall apply meets (apply s c) calls

/-- When an allowed call keeps the invariant exactly if it is good, the invariant holds after
    every part of a sequence of allowed calls exactly if all of them are good. -/
theorem EachCall.keeps_iff {P : σ → Prop} {allowed good : σ → κ → Prop}
    (hstep : ∀ {s c}, P s → allowed s c → (P (apply s c) ↔ good s c)) {s : σ} {calls : List κ}
    (hs : P s) (hcalls : EachCall apply allowed s calls) :
    (∀ front, front <+: calls → P (front.foldl apply s)) ↔ EachCall apply good s calls := by
  induction calls generalizing s with
  | nil =>
    refine iff_of_true ?_ trivial
    intro front hfront
    rw [List.prefix_nil.mp hfront]
    exact hs
  | cons c calls ih =>
    obtain ⟨hc, hcalls⟩ := hcalls
    constructor
    · intro hall
      have hkeeps : P (apply s c) :=
        hall [c] (List.cons_prefix_cons.mpr ⟨rfl, List.nil_prefix⟩)
      refine ⟨(hstep hs hc).mp hkeeps, (ih hkeeps hcalls).mp ?_⟩
      intro front hfront
      exact hall (c :: front) (List.cons_prefix_cons.mpr ⟨rfl, hfront⟩)
    · rintro ⟨hgood, hrest⟩ front hfront
      rcases List.prefix_cons_iff.mp hfront with rfl | ⟨tail, rfl, htail⟩
      · exact hs
      · exact (ih ((hstep hs hc).mpr hgood) hcalls).mpr hrest tail htail

end Calls

/-- At most one step leaves each state. -/
def Functional (step : σ → List ω → σ → Prop) : Prop :=
  ∀ ⦃s o o' s' s''⦄, step s o s' → step s o' s'' → o = o' ∧ s' = s''

/-- No step leaves the state. -/
def Halted (step : σ → List ω → σ → Prop) (s : σ) : Prop := ∀ o s', ¬ step s o s'

namespace Functional

variable {step : σ → List ω → σ → Prop}

/-- Of two runs from one state, one continues the other. -/
theorem total (hf : Functional step) {s s₁ s₂ : σ} {o₁ o₂ : List ω}
    (h₁ : Run step s o₁ s₁) (h₂ : Run step s o₂ s₂) :
    (∃ o, o₂ = o₁ ++ o ∧ Run step s₁ o s₂) ∨ (∃ o, o₁ = o₂ ++ o ∧ Run step s₂ o s₁) := by
  induction h₁ generalizing o₂ s₂ with
  | refl s => exact Or.inl ⟨o₂, rfl, h₂⟩
  | @head s s' s₁ a as hstep hrun ih =>
    cases h₂ with
    | refl => exact Or.inr ⟨a ++ as, rfl, .head hstep hrun⟩
    | @head _ s'' _ b bs hstep' hrun' =>
      obtain ⟨rfl, rfl⟩ := hf hstep hstep'
      rcases ih hrun' with ⟨o, rfl, h⟩ | ⟨o, rfl, h⟩
      · exact Or.inl ⟨o, by simp, h⟩
      · exact Or.inr ⟨o, by simp, h⟩

/-- A run continues up to every halted state that the start leads to. -/
theorem continues (hf : Functional step) {s s₁ s₂ : σ} {o₁ o₂ : List ω}
    (h₁ : Run step s o₁ s₁) (h₂ : Run step s o₂ s₂) (hs : Halted step s₂) :
    ∃ o, o₂ = o₁ ++ o ∧ Run step s₁ o s₂ := by
  rcases hf.total h₁ h₂ with h | ⟨o, rfl, h⟩
  · exact h
  · cases h with
    | refl => exact ⟨[], by simp, .refl _⟩
    | head hstep _ => exact absurd hstep (hs _ _)

/-- Two runs from one state that cannot be continued are alike. -/
theorem halted_unique (hf : Functional step) {s s₁ s₂ : σ} {o₁ o₂ : List ω}
    (h₁ : Run step s o₁ s₁) (h₂ : Run step s o₂ s₂) (hs₁ : Halted step s₁)
    (hs₂ : Halted step s₂) : o₁ = o₂ ∧ s₁ = s₂ := by
  obtain ⟨o, rfl, h⟩ := hf.continues h₁ h₂ hs₂
  cases h with
  | refl => simp
  | head hstep _ => exact absurd hstep (hs₁ _ _)

end Functional

end Cozal
