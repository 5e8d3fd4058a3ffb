import Cozal.Transposer.InTime
import Cozal.Transposer.Uninterrupted

namespace Cozal

open Transposer

/-!
# What a transposer without inputs does

This is what a source is for, told without steps, checkpoints and channels: run `init` with
everything due at the start, then everything due at the next due time, and so on, each once.

* `RefStep` — one piece of work at a time, or the change to the next due time.
* `Reference.Outputs` — the finite prefixes of the events of this run, with their times.
* `Reference.StateAt` — the transposer once everything due at or before a time is done.
* `Reference.Covers` — a list of events that holds every event at or before a time.
* `Reference.Point` — the `n`-th due time, with the future that is run there.
* `Reference.Outputs.total`, `Reference.StateAt.unique` — for a deterministic transposer there is
  one list of events and one state at each time.
-/

variable {T : Type} [Transposer T]

/-- The time it is, and the future that is run. -/
abbrev RefState (T : Type) [Transposer T] := Time T × SaturationFuture T

/-- Work at the time it is, or on to the next due time. -/
inductive RefStep : RefState T → List (Time T × OutputEvent T) → RefState T → Prop where
  | work {t f o f'} : FutureStep f o f' → RefStep (t, f) (o.map (t, ·)) (t, f')
  | next {t f w k} : f.advance = .ready w → w.metadata.getNextScheduledTime = some k →
      RefStep (t, f) [] (k.time, w.handleScheduled k.time 0)

/-- A transposer, where it starts and with which seed. -/
structure Reference (T : Type) [Transposer T] where
  transposer : T
  startTime : Time T
  rngSeed : Seed T

namespace Reference

/-- The run starts with the future of the first step. -/
def start (R : Reference T) : RefState T :=
  (R.startTime, WrappedTransposer.init R.transposer R.rngSeed R.startTime 0)

/-- A finite prefix of the events of the run. -/
def Outputs (R : Reference T) (o : List (Time T × OutputEvent T)) : Prop :=
  ∃ σ, Run RefStep R.start o σ

/-- Everything due at or before `t` is done, and `w` is what it has made of the transposer. -/
def StateAt (R : Reference T) (t : Time T) (w : WrappedTransposer T) : Prop :=
  ∃ o u f, Run RefStep R.start o (u, f) ∧ f.advance = .ready w ∧ u ≤ t ∧
    ∀ k, w.metadata.getNextScheduledTime = some k → t < k.time

/-- Every event after `o` is later than `t`. -/
def Covers (R : Reference T) (o : List (Time T × OutputEvent T)) (t : Time T) : Prop :=
  ∀ rest, R.Outputs (o ++ rest) → ∀ x ∈ rest, t < x.1

/-- The `n`-th due time is `t`, the future `f` starts there and `o` is emitted before. -/
inductive Point (R : Reference T) :
    ℕ → List (Time T × OutputEvent T) → Time T → SaturationFuture T → Prop where
  | init : Point R 0 [] R.startTime (WrappedTransposer.init R.transposer R.rngSeed R.startTime 0)
  | next {n o t f os w k} : Point R n o t f → Completes f os w →
      w.metadata.getNextScheduledTime = some k →
      Point R (n + 1) (o ++ os.map (t, ·)) k.time (w.handleScheduled k.time 0)

end Reference

/-! ### One run -/

/-- A deterministic transposer leaves the reference one thing to do. -/
theorem RefStep.functional (hd : Deterministic T) :
    Functional (RefStep : RefState T → _ → _ → Prop) := by
  intro σ o o' σ' σ'' h h'
  cases h with
  | work h =>
    cases h' with
    | work h' =>
      obtain ⟨rfl, rfl⟩ := FutureStep.functional hd h h'
      exact ⟨rfl, rfl⟩
    | next hw _ => exact absurd h (halted_of_ready hw _ _)
  | next hw hk =>
    cases h' with
    | work h' => exact absurd h' (halted_of_ready hw _ _)
    | next hw' hk' =>
      rw [hw, Progress.ready.injEq] at hw'
      subst hw'
      rw [hk, Option.some.injEq] at hk'
      subst hk'
      exact ⟨rfl, rfl⟩

/-- A piece of work of the reference is one of the pieces a future can do. -/
theorem FutureStep.work {f f' : SaturationFuture T} {o : List (OutputEvent T)}
    (h : FutureStep f o f') : ∃ l, FutureWork f l f' := by
  cases h with
  | next h => exact ⟨_, futureWork_of_next h⟩
  | emit h => exact ⟨_, futureWork_of_emit h⟩
  | await x h => exact ⟨_, futureWork_of_await h x⟩

/-- A step of the run keeps the future in time. -/
theorem RefStep.inTime {σ σ' : RefState T} {o : List (Time T × OutputEvent T)}
    (h : RefStep σ o σ') (hσ : InTime σ.1 σ.2) : InTime σ'.1 σ'.2 := by
  cases h with
  | work hf =>
    obtain ⟨l, hw⟩ := hf.work
    exact hσ.work hw
  | next _ hk => exact .handleScheduled hk 0

/-- What a run emits lies between the times it starts and ends at, in order. -/
theorem refRun_times {σ σ' : RefState T} {o : List (Time T × OutputEvent T)}
    (h : Run RefStep σ o σ') (hσ : InTime σ.1 σ.2) :
    σ.1 ≤ σ'.1 ∧ (∀ x ∈ o, σ.1 ≤ x.1) ∧ o.Pairwise (fun a b => a.1 ≤ b.1) := by
  induction h with
  | refl σ => exact ⟨le_rfl, by simp, List.Pairwise.nil⟩
  | @head σ σ₁ σ' o os hstep _ ih =>
    obtain ⟨hle, hge, hsorted⟩ := ih (hstep.inTime hσ)
    cases hstep with
    | @work t f o' f' hf =>
      refine ⟨hle, ?_, ?_⟩
      · intro x hx
        rcases List.mem_append.mp hx with hx | hx
        · obtain ⟨e, -, rfl⟩ := List.mem_map.mp hx
          exact le_rfl
        · exact hge x hx
      · refine List.pairwise_append.mpr ⟨?_, hsorted, ?_⟩
        · exact List.pairwise_map.mpr (List.pairwise_of_forall (fun _ _ => le_rfl))
        · intro x hx y hy
          obtain ⟨e, -, rfl⟩ := List.mem_map.mp hx
          exact hge y hy
    | @next t f w k hw hk =>
      have hlt : t < k.time := (InTime.drained hσ hw).next_lt hk
      refine ⟨hlt.le.trans hle, ?_, hsorted⟩
      intro x hx
      exact hlt.le.trans (hge x hx)

/-- What follows a future that is ready is later than a time before the next due time. -/
theorem refRun_after_ready {t u : Time T} {f : SaturationFuture T} {w : WrappedTransposer T}
    (hw : f.advance = .ready w) (hnext : ∀ k, w.metadata.getNextScheduledTime = some k → t < k.time)
    {o : List (Time T × OutputEvent T)} {σ : RefState T} (h : Run RefStep (u, f) o σ) :
    (σ = (u, f) ∧ o = []) ∨ t < σ.1 ∧ ∀ x ∈ o, t < x.1 := by
  cases h with
  | refl => exact Or.inl ⟨rfl, rfl⟩
  | head hstep hrun =>
    cases hstep with
    | work hf => exact absurd hf (halted_of_ready hw _ _)
    | next hw' hk =>
      rw [hw, Progress.ready.injEq] at hw'
      subst hw'
      obtain ⟨hle, hge, -⟩ := refRun_times hrun (.handleScheduled hk 0)
      exact Or.inr ⟨(hnext _ hk).trans_le hle, fun x hx => (hnext _ hk).trans_le (hge x hx)⟩

namespace Reference

variable {R : Reference T}

/-- The run starts in time. -/
theorem start_inTime : InTime R.start.1 R.start.2 := .init _ _ _ 0

/-- The events of the run are in order. -/
theorem Outputs.sorted {o : List (Time T × OutputEvent T)} (h : R.Outputs o) :
    o.Pairwise (fun a b => a.1 ≤ b.1) := by
  obtain ⟨σ, hσ⟩ := h
  exact (refRun_times hσ start_inTime).2.2

/-- **There is one list of events**: of two finite prefixes one continues the other. -/
theorem Outputs.total (hd : Deterministic T) {o o' : List (Time T × OutputEvent T)}
    (h : R.Outputs o) (h' : R.Outputs o') : o <+: o' ∨ o' <+: o := by
  obtain ⟨σ, hσ⟩ := h
  obtain ⟨σ', hσ'⟩ := h'
  rcases (RefStep.functional hd).total hσ hσ' with ⟨os, rfl, -⟩ | ⟨os, rfl, -⟩
  · exact Or.inl (List.prefix_append _ _)
  · exact Or.inr (List.prefix_append _ _)

/-- **There is one state at each time.** -/
theorem StateAt.unique (hd : Deterministic T) {t : Time T} {w w' : WrappedTransposer T}
    (h : R.StateAt t w) (h' : R.StateAt t w') : w = w' := by
  obtain ⟨o, u, f, hr, hw, hle, hnext⟩ := h
  obtain ⟨o', u', f', hr', hw', hle', hnext'⟩ := h'
  -- the later of the two runs has not left the ready future of the other one
  have heq : (u, f) = (u', f') := by
    rcases (RefStep.functional hd).total hr hr' with ⟨os, -, hrun⟩ | ⟨os, -, hrun⟩
    · rcases refRun_after_ready hw hnext hrun with ⟨heq, -⟩ | ⟨hlt, -⟩
      · exact heq.symm
      · exact absurd hle' (not_le.mpr hlt)
    · rcases refRun_after_ready hw' hnext' hrun with ⟨heq, -⟩ | ⟨hlt, -⟩
      · exact heq
      · exact absurd hle (not_le.mpr hlt)
  obtain ⟨rfl, rfl⟩ := Prod.mk.inj heq
  rw [hw] at hw'
  exact Progress.ready.inj hw'

/-- More events cover the same times. -/
theorem Covers.append {o o' : List (Time T × OutputEvent T)} {t : Time T} (h : R.Covers o t) :
    R.Covers (o ++ o') t := by
  intro rest hrest x hx
  rw [List.append_assoc] at hrest
  exact h _ hrest x (List.mem_append_right _ hx)

/-- What has been emitted up to a point of the run covers a time when all that follows is
    later. -/
theorem covers_of_run (hd : Deterministic T) {o os : List (Time T × OutputEvent T)}
    {t : Time T} {σ : RefState T} (hr : Run RefStep R.start o σ)
    (hafter : ∀ o' σ', Run RefStep σ o' σ' → ∀ x ∈ o', t < x.1) (ho : o <+: os) :
    R.Covers os t := by
  obtain ⟨o', rfl⟩ := ho
  refine Covers.append ?_
  rintro rest ⟨σ', hσ'⟩ x hx
  rcases (RefStep.functional hd).total hr hσ' with ⟨o'', heq, hrun⟩ | ⟨o'', heq, -⟩
  · obtain rfl := List.append_cancel_left heq
    exact hafter _ _ hrun x hx
  · -- the other run is no longer, so nothing is left
    rw [List.append_assoc] at heq
    have hnil := List.append_cancel_left (heq.symm.trans (List.append_nil o).symm)
    rw [(List.append_eq_nil_iff.mp hnil).1] at hx
    cases hx

/-- What has been emitted when everything up to `t` is done covers `t`. -/
theorem covers_of_ready (hd : Deterministic T) {o os : List (Time T × OutputEvent T)}
    {t u : Time T} {f : SaturationFuture T} {w : WrappedTransposer T}
    (hr : Run RefStep R.start o (u, f)) (hw : f.advance = .ready w)
    (hnext : ∀ k, w.metadata.getNextScheduledTime = some k → t < k.time) (ho : o <+: os) :
    R.Covers os t := by
  refine covers_of_run hd hr ?_ ho
  intro o' σ' hrun x hx
  rcases refRun_after_ready hw hnext hrun with ⟨-, rfl⟩ | ⟨-, hlt⟩
  · cases hx
  · exact hlt x hx

/-! ### The due times -/

namespace Point

variable {n m : ℕ} {o o' : List (Time T × OutputEvent T)} {t t' : Time T}
  {f f' : SaturationFuture T}

/-- The future at a due time is in time. -/
theorem inTime (h : R.Point n o t f) : InTime t f := by
  cases h with
  | init => exact .init _ _ _ 0
  | next _ _ hk => exact .handleScheduled hk 0

/-- The future at a due time swallows no outputs. -/
theorem fresh (h : R.Point n o t f) : f.cx.outputsToSwallow = 0 := by
  cases h <;> rfl

/-- The run of the reference gets to the due time. -/
theorem run (h : R.Point n o t f) : Run RefStep R.start o (t, f) := by
  induction h with
  | init => exact .refl _
  | @next n o t f os w k _ hc hk ih =>
    obtain ⟨g, hg, hw⟩ := hc
    have hmap : Run RefStep (t, f) (os.map (t, ·)) (t, g) :=
      hg.map (fun f => (t, f)) (fun e => (t, e)) .work
    have hnext : Run RefStep (t, g) [] (k.time, w.handleScheduled k.time 0) :=
      .single (.next hw hk)
    simpa using (ih.trans hmap).trans hnext

/-- The run of the reference gets to the end of the due time. -/
theorem run_completes {os : List (OutputEvent T)} {w : WrappedTransposer T} (h : R.Point n o t f)
    (hc : Completes f os w) :
    ∃ g, Run RefStep R.start (o ++ os.map (t, ·)) (t, g) ∧ g.advance = .ready w := by
  obtain ⟨g, hg, hw⟩ := hc
  exact ⟨g, h.run.trans (hg.map (fun f => (t, f)) (fun e => (t, e)) .work), hw⟩

/-- Some of the events of a due time are emitted. -/
theorem outputs {os : List (OutputEvent T)} (h : R.Point n o t f) (he : Emits f os) :
    R.Outputs (o ++ os.map (t, ·)) := by
  obtain ⟨g, hg⟩ := he
  exact ⟨_, h.run.trans (hg.map (fun f => (t, f)) (fun e => (t, e)) .work)⟩

/-- A deterministic transposer has one `n`-th due time. -/
theorem unique (hd : Deterministic T) (h : R.Point n o t f) (h' : R.Point n o' t' f') :
    o = o' ∧ t = t' ∧ f = f' := by
  induction h generalizing o' t' f' with
  | init => cases h'; exact ⟨rfl, rfl, rfl⟩
  | next _ hc hk ih =>
    cases h' with
    | next h' hc' hk' =>
      obtain ⟨rfl, rfl, rfl⟩ := ih h'
      obtain ⟨rfl, rfl⟩ := hc.unique hd hc'
      rw [hk, Option.some.injEq] at hk'
      subst hk'
      exact ⟨rfl, rfl, rfl⟩

/-- The due time after one that has ended. -/
theorem succ (hd : Deterministic T) {os : List (OutputEvent T)} {w : WrappedTransposer T}
    (h : R.Point n o t f) (hc : Completes f os w) (h' : R.Point (n + 1) o' t' f') :
    ∃ k, w.metadata.getNextScheduledTime = some k ∧ o' = o ++ os.map (t, ·) ∧ t' = k.time ∧
      f' = w.handleScheduled k.time 0 := by
  cases h' with
  | next h'' hc' hk =>
    obtain ⟨rfl, rfl, rfl⟩ := h.unique hd h''
    obtain ⟨rfl, rfl⟩ := hc.unique hd hc'
    exact ⟨_, hk, rfl, rfl, rfl⟩

/-- No due time follows one that ends with nothing scheduled. -/
theorem le_of_completes (hd : Deterministic T) {os : List (OutputEvent T)}
    {w : WrappedTransposer T} (h : R.Point n o t f) (hc : Completes f os w)
    (hnone : w.metadata.getNextScheduledTime = none) (h' : R.Point m o' t' f') : m ≤ n := by
  induction h' with
  | init => exact Nat.zero_le n
  | @next m o' t' f' os' w' k h' hc' hk ih =>
    rcases Nat.lt_or_ge m n with hlt | hge
    · exact hlt
    · obtain rfl : n = m := by omega
      obtain ⟨k', hk', -⟩ := h.succ hd hc (.next h' hc' hk)
      rw [hnone] at hk'
      cases hk'

/-- What is emitted at a due time is emitted before every later one. -/
theorem prefix_of_lt (hd : Deterministic T) {os : List (OutputEvent T)}
    {w : WrappedTransposer T} (h : R.Point n o t f) (hc : Completes f os w)
    (h' : R.Point m o' t' f') (hlt : n < m) : o ++ os.map (t, ·) <+: o' := by
  induction h' with
  | init => omega
  | @next m o' t' f' os' w' k h' hc' hk ih =>
    rcases Nat.lt_or_ge n m with hnm | hge
    · exact (ih hnm).trans (List.prefix_append _ _)
    · obtain rfl : n = m := by omega
      obtain ⟨-, -, heq, -, -⟩ := h.succ hd hc (.next h' hc' hk)
      exact heq ▸ List.prefix_rfl

end Point

end Reference

end Cozal
