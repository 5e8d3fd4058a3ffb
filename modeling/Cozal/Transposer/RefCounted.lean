import Mathlib.Data.Prod.Lex
import Cozal.Lib.SharedHeap
import Cozal.Transposer.Script
import Cozal.Transposer.Step

namespace Cozal

open Transposer

/-!
# References to transposers

A saturated step holds a reference to its transposer.  An interpolation gets a reference of its own
and reads it whenever it is polled; `saturate_take` hands the reference on to the future that
saturates the next step, which only makes the transposer its own when it is first polled.  So a
transposer that is interpolated may be shared with the handler that is about to change it.

* `Holder` — who holds references.
* `SharingEvent.actions` — what the methods of `Step` and the futures do with them.
* `transposers_are_values` — in every order of these it is as if each holder had a transposer of
  its own, and a transposer is copied exactly when an interpolation still refers to it.
* `interpolation_reads_its_step` — so an interpolation reads the step that it was made of, and a
  handler starts from the step before.
-/

/-- Who holds a reference: a step or the future that saturates it, the future of an interpolation,
    and what that has borrowed since it was first polled. -/
inductive Holder where
  | step (n : ℕ)
  | interpolation (m : ℕ)
  | borrowed (m : ℕ)
deriving Repr

namespace Holder

/-- Steps come first, then interpolations and what they have borrowed, each by its number. -/
def key : Holder → ℕ ×ₗ ℕ
  | step n => toLex (0, n)
  | interpolation m => toLex (1, m)
  | borrowed m => toLex (2, m)

/-- The kind and the number tell holders apart. -/
theorem key_injective : Function.Injective key := by
  intro a b h
  cases a <;> cases b <;> simp_all [key]

/-- Holders are ordered by kind and number. -/
instance : LinearOrder Holder := LinearOrder.lift' key key_injective

end Holder

variable {T : Type} [Transposer T]

/-- What happens to the references, with the transposers that are read. -/
inductive SharingEvent (T : Type) [Transposer T] where
  | initialized (n : ℕ) (w : WrappedTransposer T)
  | interpolated (n m : ℕ) (w : WrappedTransposer T)
  | startedInterpolation (m : ℕ)
  | polledInterpolation (m : ℕ) (w : WrappedTransposer T)
  | cancelledInterpolation (m : ℕ)
  | finishedInterpolation (m : ℕ)
  | took (n n' : ℕ)
  | cloned (n n' : ℕ) (w : WrappedTransposer T)
  | startedHandler (n : ℕ) (w : WrappedTransposer T)
  | handled (n : ℕ) (w : WrappedTransposer T)
  | saturated (n : ℕ)
  | readSchedule (n : ℕ) (w : WrappedTransposer T)
  | desaturated (n : ℕ)

/-- What is done with the references, in the order of the source. -/
def SharingEvent.actions :
    SharingEvent T → List (Shared.Action Holder (WrappedTransposer T))
  -- `S::Transposer::new(Box::new(new))` at the end of `WrappedTransposer::init`
  | initialized n w => [.new (.step n) w]
  -- `wrapped_transposer.clone()` in `Step::interpolate`, which compares the time
  | interpolated n m w => [.clone (.step n) (.interpolation m), .read (.interpolation m) w]
  -- `create_fut`, which is polled for the first time, and whenever it is polled
  | startedInterpolation m => [.clone (.interpolation m) (.borrowed m)]
  | polledInterpolation m w => [.read (.borrowed m) w]
  -- it is dropped, before it was first polled or after
  | cancelledInterpolation m => [.drop (.interpolation m)]
  | finishedInterpolation m => [.drop (.borrowed m), .drop (.interpolation m)]
  -- `Step::take` and `Step::clone`
  | took n n' => [.move (.step n) (.step n')]
  | cloned n n' w => [.read (.step n) w, .new (.step n') w]
  -- the future of `Step::saturate`: `mutate` when it is first polled, and then the handlers
  | startedHandler n w => [.mutate (.step n), .read (.step n) w]
  | handled n w => [.write (.step n) w]
  | saturated n => [.release (.step n)]
  -- `get_next_scheduled_time` in `Step::next_unsaturated`
  | readSchedule n w => [.read (.step n) w]
  | desaturated n => [.drop (.step n)]

/-- The references to the transposers. -/
abbrev Sharing (T : Type) [Transposer T] := Shared Holder (WrappedTransposer T)

/-- Something happens to the references. -/
def SharingStep (s : Sharing T) (o : List (SharingEvent T)) (s' : Sharing T) : Prop :=
  ∃ e, o = [e] ∧ Run Shared.Step s e.actions s'

variable {s s' s₁ s₂ s₃ : Sharing T} {log middle : List (SharingEvent T)} {e : SharingEvent T}
  {n n' m : ℕ} {w w' : WrappedTransposer T} {P : WrappedTransposer T → Prop}

/-- What happens is a run of the actions that it stands for. -/
theorem SharingStep.actions_run (h : Run SharingStep s log s') :
    Run Shared.Step s (log.flatMap SharingEvent.actions) s' := by
  induction h with
  | refl => exact .refl _
  | head hstep _ ih =>
    obtain ⟨e, rfl, hrun⟩ := hstep
    rw [List.flatMap_append, List.flatMap_singleton]
    exact hrun.trans ih

/-! ### The values of the holders -/

/-- What happens to one holder's transposer in a step with one event. -/
theorem SharingStep.values (h : SharingStep s [e] s') (hs : s.Sound) :
    s'.Sound ∧ Run Shared.ValueStep s.view e.actions s'.view := by
  obtain ⟨e', heq, hrun⟩ := h
  obtain rfl := List.singleton_inj.mp heq
  exact hs.run hrun

/-- What the future of an interpolation refers to, if to anything. -/
def Refers (m : ℕ) (P : WrappedTransposer T → Prop)
    (view : Holder → Option (WrappedTransposer T)) : Prop :=
  (∀ u ∈ view (.interpolation m), P u) ∧ ∀ u ∈ view (.borrowed m), P u

/-- An action that gives an interpolation no other reference than the one it has. -/
def KeepsReference (m : ℕ) : Shared.Action Holder (WrappedTransposer T) → Prop
  | .new k _ => k ≠ .interpolation m ∧ k ≠ .borrowed m
  | .clone k k' => k' ≠ .interpolation m ∧ (k' = .borrowed m → k = .interpolation m)
  | .move _ k' => k' ≠ .interpolation m ∧ k' ≠ .borrowed m
  | .write k _ => k ≠ .interpolation m ∧ k ≠ .borrowed m
  | _ => True

/-- Only making the interpolation gives it a reference. -/
theorem keepsReference_of_ne (h : ∀ n w, e ≠ .interpolated n m w) :
    ∀ x ∈ e.actions, KeepsReference m x := by
  cases e with
  | interpolated n m' w =>
    have hne : m' ≠ m := by
      rintro rfl
      exact h n w rfl
    simp [SharingEvent.actions, KeepsReference, hne]
  | startedInterpolation m' =>
    simp only [SharingEvent.actions, List.mem_singleton, forall_eq, KeepsReference]
    exact ⟨Holder.noConfusion, fun heq => by rw [Holder.borrowed.inj heq]⟩
  | _ => simp [SharingEvent.actions, KeepsReference]

/-- What the interpolation refers to stays so over an action that gives it no other reference. -/
theorem Refers.step {view view' : Holder → Option (WrappedTransposer T)}
    {o : List (Shared.Action Holder (WrappedTransposer T))} (h : Refers m P view)
    (hstep : Shared.ValueStep view o view') (ho : ∀ x ∈ o, KeepsReference m x) :
    Refers m P view' := by
  have hupdate : ∀ {view : Holder → Option (WrappedTransposer T)} {k r}, Refers m P view →
      (k = .interpolation m ∨ k = .borrowed m → ∀ u ∈ r, P u) →
      Refers m P (Function.update view k r) := by
    intro view k r h hr
    constructor
    · by_cases hk : k = .interpolation m
      · rw [hk, Function.update_self]
        exact hr (Or.inl hk)
      · rw [Function.update_of_ne (Ne.symm hk)]
        exact h.1
    · by_cases hk : k = .borrowed m
      · rw [hk, Function.update_self]
        exact hr (Or.inr hk)
      · rw [Function.update_of_ne (Ne.symm hk)]
        exact h.2
  cases hstep with
  | new _ =>
    obtain ⟨hne, hne'⟩ := ho _ (List.mem_singleton.mpr rfl)
    exact hupdate h fun hk => absurd hk (not_or.mpr ⟨hne, hne'⟩)
  | @clone k k' v hk _ =>
    obtain ⟨hne, hborrowed⟩ := ho _ (List.mem_singleton.mpr rfl)
    refine hupdate h ?_
    rintro (hk' | hk') u hu
    · exact absurd hk' hne
    · -- what it borrows is what it refers to
      cases hu
      exact h.1 v (by rw [← hborrowed hk', hk]; rfl)
  | move _ _ =>
    obtain ⟨hne, hne'⟩ := ho _ (List.mem_singleton.mpr rfl)
    exact hupdate (hupdate h (by simp)) fun hk => absurd hk (not_or.mpr ⟨hne, hne'⟩)
  | write _ =>
    obtain ⟨hne, hne'⟩ := ho _ (List.mem_singleton.mpr rfl)
    exact hupdate h fun hk => absurd hk (not_or.mpr ⟨hne, hne'⟩)
  | take _ _ => exact hupdate h (by simp)
  | drop _ => exact hupdate h (by simp)
  | _ => exact h

/-- The step of a run that something is read in. -/
theorem read_of_run {view view' : Holder → Option (WrappedTransposer T)} {k : Holder}
    {o : List (Shared.Action Holder (WrappedTransposer T))}
    (h : Run Shared.ValueStep view (.read k w :: o) view') :
    view k = some w ∧ Run Shared.ValueStep view o view' := by
  obtain ⟨u, hread, hrest⟩ := h.uncons fun hstep => hstep.length_eq
  cases hread with
  | read hk => exact ⟨hk, hrest⟩

/-- The values of a run on shared references are those of a run without sharing. -/
theorem values_of_run (h : Run SharingStep s log s') (hs : s.Sound) :
    s'.Sound ∧ Run Shared.ValueStep s.view (log.flatMap SharingEvent.actions) s'.view :=
  hs.run (SharingStep.actions_run h)

/-- Until another interpolation of that name is made, it refers to what it did. -/
theorem Refers.run (hrun : Run SharingStep s log s') (hs : s.Sound) (h : Refers m P s.view)
    (hlog : ∀ n w, .interpolated n m w ∉ log) : Refers m P s'.view := by
  refine (values_of_run hrun hs).2.preserves_of_mem (Q := KeepsReference m)
    (fun hstep ho h => h.step hstep ho) ?_ h
  intro x hx
  obtain ⟨e, he, hx⟩ := List.mem_flatMap.mp hx
  refine keepsReference_of_ne ?_ x hx
  rintro n w rfl
  exact hlog n w he

/-! ### A run -/

/-- A transposer before its handler has run. -/
def scriptBefore : WrappedTransposer Script := ⟨⟨[], [], [], 0⟩, .new () (0 : ℕ)⟩

/-- What the handler leaves. -/
def scriptAfter : WrappedTransposer Script := ⟨⟨[], [], [], 1⟩, .new () (2 : ℕ)⟩

/-- A step is interpolated, and the next one takes its transposer and changes it, while the
    interpolation is polled. -/
theorem sharing_run :
    ∃ s, Run SharingStep .empty [.initialized 0 scriptBefore] s ∧
    ∃ s₁, SharingStep s [.interpolated 0 0 scriptBefore] s₁ ∧
    ∃ s₂, SharingStep s₁ [.startedInterpolation 0] s₂ ∧
    ∃ s₃, SharingStep s₂ [.took 0 1] s₃ ∧ SharingStep s₃ [.polledInterpolation 0 scriptBefore] s₃ ∧
    ∃ s₄, SharingStep s₃ [.startedHandler 1 scriptBefore] s₄ ∧
    ∃ s₅, SharingStep s₄ [.handled 1 scriptAfter] s₅ ∧
      SharingStep s₅ [.polledInterpolation 0 scriptBefore] s₅ ∧
      s₅.heap.cells.entries.length = 2 := by
  refine ⟨_, .single ⟨_, rfl, .single (Shared.Step.new (a := 0) rfl rfl)⟩, ?_⟩
  refine ⟨_, ⟨_, rfl, .head (Shared.Step.clone (a := 0) rfl rfl)
    (.single (Shared.Step.read rfl rfl))⟩, ?_⟩
  refine ⟨_, ⟨_, rfl, .single (Shared.Step.clone (a := 0) rfl rfl)⟩, ?_⟩
  refine ⟨_, ⟨_, rfl, .single (Shared.Step.move (a := 0) rfl rfl)⟩, ?_⟩
  refine ⟨⟨_, rfl, .single (Shared.Step.read rfl rfl)⟩, ?_⟩
  refine ⟨_, ⟨_, rfl, .head (@Shared.Step.mutate _ _ _ _ _ 0 1 rfl rfl)
    (.single (Shared.Step.read rfl rfl))⟩, ?_⟩
  refine ⟨_, ⟨_, rfl, .single (Shared.Step.write (a := 1) rfl)⟩, ?_⟩
  exact ⟨⟨_, rfl, .single (Shared.Step.read rfl rfl)⟩, rfl⟩

/-! ### What the sharing amounts to -/

/-- Sharing cannot be seen, nothing is leaked, who changes a transposer is the only one to hold it,
    and it is copied for that only when an interpolation refers to it. -/
structure Isolated (log : List (SharingEvent T)) (s : Sharing T) : Prop where
  values : Run Shared.ValueStep (fun _ => none) (log.flatMap SharingEvent.actions) s.view
  owned : ∀ a, (∃ c, s.heap.cells.get a = some c) ↔ ∃ k b, s.references.get k = some ⟨a, b⟩
  alone : ∀ n k a b, s.references.get (.step n) = some ⟨a, true⟩ →
    s.references.get k = some ⟨a, b⟩ → k = .step n
  copies : ∀ n a free, s.references.get (.step n) = some ⟨a, false⟩ →
    s.heap.cells.get free = none →
    ((s.heap.makeMut a free).1 ≠ a ↔
      ∃ m b, s.references.get (.interpolation m) = some ⟨a, b⟩ ∨
        s.references.get (.borrowed m) = some ⟨a, b⟩)

/-- The holder is a step, or the future that saturates it. -/
def Holder.IsStep (k : Holder) : Prop := ∃ n, k = .step n

/-- No event makes two steps share. -/
theorem SharingEvent.keepsApart (e : SharingEvent T) :
    ∀ x ∈ e.actions, x.KeepsApart Holder.IsStep := by
  cases e <;> simp [actions, Shared.Action.KeepsApart, Holder.IsStep]

/-- No two steps share a transposer. -/
theorem steps_apart (h : Run SharingStep .empty log s) : Shared.Apart Holder.IsStep s := by
  have hempty : Shared.Apart Holder.IsStep (Shared.empty : Sharing T) := Shared.Apart.empty
  refine hempty.run Shared.Sound.new (SharingStep.actions_run h) ?_
  intro x hx
  obtain ⟨e, -, hx⟩ := List.mem_flatMap.mp hx
  exact e.keepsApart x hx

/-- **The transposers behave as values.** -/
theorem transposers_are_values (h : Run SharingStep .empty log s) : Isolated log s := by
  obtain ⟨hs, hrun⟩ := values_of_run h Shared.Sound.new
  refine ⟨hrun, ?_, fun n k a b hn hk => hs.alone _ k a b hn hk, ?_⟩
  · intro a
    rw [← Shared.mem_owners_iff]
    constructor
    · rintro ⟨c, hget⟩
      exact hs.counted.mem_owners hget
    · intro ha
      obtain ⟨c, hget, -⟩ := hs.counted.exists_cell ha
      exact ⟨c, hget⟩
  · intro n a free hn hfree
    rw [Ne, hs.makeMut_eq_iff hn hfree]
    constructor
    · intro hshared
      simp only [not_forall] at hshared
      obtain ⟨k, b, hk, hne⟩ := hshared
      cases k with
      | step n' => exact absurd (steps_apart h _ _ a _ b ⟨n, rfl⟩ ⟨n', rfl⟩ hn hk) hne
      | interpolation m => exact ⟨m, b, Or.inl hk⟩
      | borrowed m => exact ⟨m, b, Or.inr hk⟩
    · rintro ⟨m, b, hm | hm⟩ halone
      · exact Holder.noConfusion (halone _ b hm)
      · exact Holder.noConfusion (halone _ b hm)

/-- The handler has a copy, as the interpolation refers to what it started from. -/
theorem transposers_are_values_script :
    ∃ (log : List (SharingEvent Script)) (s : Sharing Script),
      Isolated log s ∧ s.heap.cells.entries.length = 2 := by
  obtain ⟨s, h, s₁, h₁, s₂, h₂, s₃, h₃, -, s₄, h₄, s₅, h₅, -, hlength⟩ := sharing_run
  have hrun := ((((h.tail h₁).tail h₂).tail h₃).tail h₄).tail h₅
  exact ⟨_, s₅, transposers_are_values hrun, hlength⟩

/-- **An interpolation reads the step that it was made of**, as it was then, whatever has happened
    to the step since. -/
theorem interpolation_reads_its_step (h : Run SharingStep .empty log s)
    (hmade : SharingStep s [.interpolated n m w] s₁) (hrun : Run SharingStep s₁ middle s₂)
    (hfresh : ∀ n' w', .interpolated n' m w' ∉ log ++ middle)
    (hpoll : SharingStep s₂ [.polledInterpolation m w'] s₃) :
    s.view (.step n) = some w ∧ w' = w := by
  obtain ⟨hs, -⟩ := values_of_run h Shared.Sound.new
  have hnone : Refers m (fun _ => False) s.view := by
    refine Refers.run h Shared.Sound.new ⟨nofun, nofun⟩ fun n' w' hmem => ?_
    exact hfresh n' w' (List.mem_append_left _ hmem)
  -- the reference is made
  obtain ⟨hs₁, hvalues⟩ := hmade.values hs
  obtain ⟨view, hclone, hread⟩ := hvalues.uncons fun hstep => hstep.length_eq
  obtain ⟨hw, hend⟩ := read_of_run hread
  obtain heq := hend.eq_of_nil fun hstep => hstep.length_eq
  generalize hview : s₁.view = view₁ at heq
  subst heq
  cases hclone with
  | @clone _ _ v hv _ =>
    rw [Function.update_self, Option.some.injEq] at hw
    subst hw
    have hrefers : Refers m (· = v) s₁.view := by
      rw [hview]
      refine ⟨?_, ?_⟩
      · rw [Function.update_self]
        rintro u ⟨⟩
        rfl
      · rw [Function.update_of_ne Holder.noConfusion]
        exact fun u hu => (hnone.2 u hu).elim
    -- and what it leads to stays the same
    have hmiddle := hrefers.run hrun hs₁ fun n' w' hmem =>
      hfresh n' w' (List.mem_append_right _ hmem)
    obtain ⟨hs₂, -⟩ := values_of_run hrun hs₁
    obtain ⟨-, hpolled⟩ := hpoll.values hs₂
    exact ⟨hv, hmiddle.2 w' (read_of_run hpolled).1⟩

/-- The next step's handler has changed the transposer by then. -/
theorem interpolation_reads_its_step_script : ∃ s s' : Sharing Script,
    s.view (.step 0) = some scriptBefore ∧
      SharingStep s' [.polledInterpolation 0 scriptBefore] s' := by
  obtain ⟨s, h, s₁, h₁, s₂, h₂, s₃, h₃, -, s₄, h₄, s₅, h₅, hpoll, -⟩ := sharing_run
  have hrun := (((Run.single h₂).tail h₃).tail h₄).tail h₅
  exact ⟨s, s₅, (interpolation_reads_its_step h h₁ hrun (by simp) hpoll).1, hpoll⟩

/-- **A handler starts from the step before**, as that was when its transposer was taken or copied,
    though it only gets hold of it when it is first polled. -/
theorem handler_starts_from_step_before (h : Run SharingStep .empty log s)
    (htook : SharingStep s [.took n n'] s₁ ∨ ∃ v, SharingStep s [.cloned n n' v] s₁)
    (hrun : Run SharingStep s₁ middle s₂)
    (hmiddle : ∀ e ∈ middle, ∀ x ∈ e.actions, ¬ x.Changes (Holder.step n'))
    (hstart : SharingStep s₂ [.startedHandler n' w] s₃) : s.view (.step n) = some w := by
  obtain ⟨hs, -⟩ := values_of_run h Shared.Sound.new
  have htaken : s₁.Sound ∧ s₁.view (.step n') = s.view (.step n) := by
    rcases htook with htook | ⟨v, hcloned⟩
    · obtain ⟨hs₁, hvalues⟩ := htook.values hs
      refine ⟨hs₁, ?_⟩
      obtain ⟨view, hmove, hrest⟩ := hvalues.uncons fun hstep => hstep.length_eq
      rw [hrest.eq_of_nil fun hstep => hstep.length_eq]
      cases hmove with
      | move hn _ => rw [Function.update_self, hn]
    · obtain ⟨hs₁, hvalues⟩ := hcloned.values hs
      refine ⟨hs₁, ?_⟩
      obtain ⟨hn, hnew⟩ := read_of_run hvalues
      obtain ⟨view, hnew, hrest⟩ := hnew.uncons fun hstep => hstep.length_eq
      rw [hrest.eq_of_nil fun hstep => hstep.length_eq]
      cases hnew with
      | new _ => rw [Function.update_self, hn]
  obtain ⟨hs₁, heq⟩ := htaken
  obtain ⟨hs₂, hvalues⟩ := values_of_run hrun hs₁
  have hsame : s₂.view (.step n') = s₁.view (.step n') := by
    refine hvalues.preserves_of_mem (P := fun view => view (.step n') = s₁.view (.step n'))
      (Q := fun x => ¬ x.Changes (Holder.step n')) ?_ ?_ rfl
    · intro view o view' hstep ho hview
      exact (hstep.unchanged ho).trans hview
    · intro x hx
      obtain ⟨e, he, hx⟩ := List.mem_flatMap.mp hx
      exact hmiddle e he x hx
  -- the handler makes the transposer its own, which does not change it
  obtain ⟨-, hstarted⟩ := hstart.values hs₂
  obtain ⟨view, hmutate, hread⟩ := hstarted.uncons fun hstep => hstep.length_eq
  cases hmutate with
  | mutate _ => rw [← heq, ← hsame, (read_of_run hread).1]

/-- In between the interpolation is polled.  It is still there when the handler starts, which so
    gets a copy. -/
theorem handler_starts_from_step_before_script :
    ∃ s : Sharing Script, s.view (.step 0) = some scriptBefore := by
  obtain ⟨s, h, s₁, h₁, s₂, h₂, s₃, h₃, hpoll, s₄, h₄, -⟩ := sharing_run
  exact ⟨s₂, handler_starts_from_step_before ((h.tail h₁).tail h₂) (.inl h₃) (.single hpoll)
    (by simp [SharingEvent.actions, Shared.Action.Changes]) h₄⟩

end Cozal
