import Cozal.Lib.Run

namespace Cozal

/-!
# An input state that many handlers wait for

`SingleInputState` is a cell that is filled once.  Whoever asks for its contents gets the
receiver of a channel.  The sender of it is kept in the cell while that is not full yet, and is
answered with a pointer to the contents.  All calls are made through a shared reference, so that
many of them are under way at once.  What a call does under one acquisition of the lock is one
step here.

* `SingleInputState.step` — the next step of a call.
* `SingleInputState.FindsTheSame` — a call that has released the lock finds the cell as it has
  left it when it acquires the lock again.
* `SingleInputState.FilledOnce` — what the cell is for.
* `SingleInputState.Inv` — how the cell, the calls and the receivers fit together.
-/

variable {State : Type}

/-- A `Box`: the address of its contents, and the contents. -/
structure Boxed (State : Type) where
  address : ℕ
  contents : State
deriving DecidableEq, Repr

/-- The contents of the cell.  A sender is known by the call that has made it. -/
inductive SingleInputStateInner (State : Type) where
  | empty
  | requested (senders : List ℕ)
  | full (inputState : Boxed State)
deriving DecidableEq, Repr

/-- The senders that are kept in the cell. -/
def SingleInputStateInner.senders : SingleInputStateInner State → List ℕ
  | .empty => []
  | .requested senders => senders
  | .full _ => []

/-- A call on the cell. -/
inductive SingleInputStateCall (State : Type) where
  | getInputState
  | setState (state : State)
deriving DecidableEq, Repr

/-- How far a call has got.  `get_input_state` looks at the cell under a read lock and releases
    it before it acquires the write lock. -/
inductive CallProgress (State : Type) where
  | called
  | foundEmpty
  | foundRequested
  | unreachable
  | receiverReturned
  | setStateReturned (result : Except State Unit)

/-- What the receiver of a channel gets: a pointer, or that the sender is gone. -/
inductive Receiver where
  | waiting
  | received (pointer : ℕ)
  | canceled
deriving DecidableEq, Repr

/-- The cell, with the calls on it. -/
structure SingleInputState (State : Type) where
  inner : SingleInputStateInner State
  progress : ℕ → CallProgress State
  receivers : ℕ → Receiver

namespace SingleInputState

/-- The cell is empty, and no call has begun. -/
def new : SingleInputState State := ⟨.empty, fun _ => .called, fun _ => .waiting⟩

/-- The call has got further. -/
def goTo (s : SingleInputState State) (i : ℕ) (p : CallProgress State) : SingleInputState State :=
  { s with progress := Function.update s.progress i p }

/-- The senders are used up, or dropped. -/
def tell (s : SingleInputState State) (senders : List ℕ) (r : Receiver) :
    SingleInputState State :=
  { s with receivers := fun i => if i ∈ senders then r else s.receivers i }

/-- `get_input_state` under the read lock. -/
def getInputStateRead (s : SingleInputState State) (i : ℕ) : SingleInputState State :=
  match s.inner with
  | .empty => s.goTo i .foundEmpty
  | .requested _ => s.goTo i .foundRequested
  | .full inputState => (s.tell [i] (.received inputState.address)).goTo i .receiverReturned

/-- `get_input_state` under the write lock, when it has found the cell empty.  It overwrites the
    cell, so that what was in it is dropped. -/
def getInputStateEmpty (s : SingleInputState State) (i : ℕ) : SingleInputState State :=
  { s.tell s.inner.senders .canceled with inner := .requested [i] }.goTo i .receiverReturned

/-- `get_input_state` under the write lock, when it has found senders in the cell. -/
def getInputStateRequested (s : SingleInputState State) (i : ℕ) : SingleInputState State :=
  match s.inner with
  | .requested senders =>
      { s with inner := .requested (senders ++ [i]) }.goTo i .receiverReturned
  | _ => (s.tell [i] .canceled).goTo i .unreachable

/-- Put the state in a box, and answer the senders. -/
def fill (s : SingleInputState State) (i : ℕ) (state : State) (senders : List ℕ) :
    SingleInputState State :=
  { s.tell senders (.received i) with inner := .full ⟨i, state⟩ }.goTo i
    (.setStateReturned (.ok ()))

/-- `set_state`. -/
def setState (s : SingleInputState State) (i : ℕ) (state : State) : SingleInputState State :=
  match s.inner with
  | .empty => s.fill i state []
  | .requested senders => s.fill i state senders
  | .full _ => s.goTo i (.setStateReturned (.error state))

/-- The next step of a call, if it has not ended. -/
def step (calls : ℕ → SingleInputStateCall State) (s : SingleInputState State) (i : ℕ) :
    Option (SingleInputState State) :=
  match calls i, s.progress i with
  | .getInputState, .called => some (s.getInputStateRead i)
  | .getInputState, .foundEmpty => some (s.getInputStateEmpty i)
  | .getInputState, .foundRequested => some (s.getInputStateRequested i)
  | .setState state, .called => some (s.setState i state)
  | _, _ => none

/-! ### Interleavings -/

/-- A step of some call that meets a condition on the state before it, labelled with the call. -/
inductive Step (calls : ℕ → SingleInputStateCall State)
    (meets : SingleInputState State → ℕ → Prop) :
    SingleInputState State → List ℕ → SingleInputState State → Prop where
  | mk {s i s'} : meets s i → s.step calls i = some s' → Step calls meets s [i] s'

/-- The cell after the calls have made their steps in the order of a schedule. -/
abbrev Interleaving (calls : ℕ → SingleInputStateCall State)
    (meets : SingleInputState State → ℕ → Prop) (schedule : List ℕ)
    (s : SingleInputState State) : Prop :=
  Run (Step calls meets) .new schedule s

/-- A call that has looked at the cell finds it as it was. -/
def FindsTheSame (s : SingleInputState State) (i : ℕ) : Prop :=
  match s.progress i with
  | .foundEmpty => s.inner = .empty
  | .foundRequested => ∃ senders, s.inner = .requested senders
  | _ => True

/-- What the cell is for, in a state that an interleaving of the calls leads to. -/
structure FilledOnce (calls : ℕ → SingleInputStateCall State)
    (meets : SingleInputState State → ℕ → Prop) (s : SingleInputState State) : Prop where
  /-- The contents of a full cell stay where they are. -/
  kept : ∀ schedule s' b, Run (Step calls meets) s schedule s' → s.inner = .full b →
    s'.inner = .full b
  /-- So every pointer that has been sent is one to the contents of the cell. -/
  valid : ∀ i pointer, s.receivers i = .received pointer →
    ∃ b, s.inner = .full b ∧ b.address = pointer
  /-- No sender is dropped. -/
  not_dropped : ∀ i, s.receivers i ≠ .canceled
  /-- When `get_input_state` and a successful `set_state` have ended, the sender is answered. -/
  answered : ∀ i j, calls i = .getInputState → s.progress i = .receiverReturned →
    s.progress j = .setStateReturned (.ok ()) →
    ∃ b, s.inner = .full b ∧ s.receivers i = .received b.address
  reachable : ∀ i, s.progress i ≠ .unreachable
  /-- Of the calls of `set_state` that have ended one has succeeded. -/
  one_succeeds : ∀ i result, s.progress i = .setStateReturned result →
    ∃! j, s.progress j = .setStateReturned (.ok ())
  /-- The others return the state they were given. -/
  others_return : ∀ i state, s.progress i = .setStateReturned (.error state) →
    calls i = .setState state

/-! ### The invariant -/

/-- How the cell, the calls and the receivers fit together. -/
structure Inv (calls : ℕ → SingleInputStateCall State) (s : SingleInputState State) : Prop where
  reachable : ∀ i, s.progress i ≠ .unreachable
  waiting : ∀ i, s.progress i ≠ .receiverReturned → s.receivers i = .waiting
  returned : ∀ i, s.progress i = .receiverReturned →
    (∃ senders, s.inner = .requested senders ∧ i ∈ senders ∧ s.receivers i = .waiting) ∨
      ∃ b, s.inner = .full b ∧ s.receivers i = .received b.address
  senders : ∀ senders, s.inner = .requested senders →
    senders ≠ [] ∧ ∀ i ∈ senders, s.progress i = .receiverReturned
  full : ∀ b, s.inner = .full b → s.progress b.address = .setStateReturned (.ok ())
  succeeded : ∀ i, s.progress i = .setStateReturned (.ok ()) →
    ∃ b, s.inner = .full b ∧ b.address = i
  failed : ∀ i state, s.progress i = .setStateReturned (.error state) →
    calls i = .setState state ∧ ∃ b, s.inner = .full b

variable {calls : ℕ → SingleInputStateCall State} {s s' : SingleInputState State} {i : ℕ}

/-- One call gets further, and the others stay where they are. -/
theorem goTo_progress (s : SingleInputState State) (i : ℕ) (p : CallProgress State) (j : ℕ) :
    (s.goTo i p).progress j = if j = i then p else s.progress j := by
  simp only [goTo, Function.update_apply]

/-- The invariant holds before any call has begun. -/
theorem inv_new (calls : ℕ → SingleInputStateCall State) :
    Inv calls (new : SingleInputState State) := by
  constructor <;> intros <;> simp_all [new]

namespace Inv

/-- A call that has not ended is not the one that has filled the cell, and its sender is not in
    the cell. -/
theorem goTo (h : Inv calls s) {p : CallProgress State} (hi : s.progress i ≠ .receiverReturned)
    (hi' : ∀ r, s.progress i ≠ .setStateReturned r) (hp : p ≠ .unreachable)
    (hp' : p ≠ .receiverReturned) (hok : p ≠ .setStateReturned (.ok ()))
    (herr : ∀ state, p = .setStateReturned (.error state) →
      calls i = .setState state ∧ ∃ b, s.inner = .full b) : Inv calls (s.goTo i p) where
  reachable := by
    intro j
    rw [goTo_progress]
    split
    · exact hp
    · exact h.reachable j
  waiting := by
    intro j hj
    rw [goTo_progress] at hj
    by_cases hji : j = i
    · subst hji
      exact h.waiting j hi
    · rw [if_neg hji] at hj
      exact h.waiting j hj
  returned := by
    intro j hj
    rw [goTo_progress] at hj
    by_cases hji : j = i
    · rw [if_pos hji] at hj
      exact absurd hj hp'
    · rw [if_neg hji] at hj
      exact h.returned j hj
  senders := by
    intro senders hs
    refine ⟨(h.senders senders hs).1, ?_⟩
    intro j hj
    have hret := (h.senders senders hs).2 j hj
    rw [goTo_progress, if_neg]
    · exact hret
    · rintro rfl
      exact hi hret
  full := by
    intro b hb
    have hok := h.full b hb
    rw [goTo_progress, if_neg]
    · exact hok
    · rintro rfl
      exact hi' _ hok
  succeeded := by
    intro j hj
    rw [goTo_progress] at hj
    by_cases hji : j = i
    · rw [if_pos hji] at hj
      exact absurd hj hok
    · rw [if_neg hji] at hj
      exact h.succeeded j hj
  failed := by
    intro j state hj
    rw [goTo_progress] at hj
    by_cases hji : j = i
    · rw [if_pos hji] at hj
      subst hji
      exact herr state hj
    · rw [if_neg hji] at hj
      exact h.failed j state hj

/-- The sender of a call is answered when the cell is full. -/
theorem answer (h : Inv calls s) {b : Boxed State} (hb : s.inner = .full b)
    (hi : ∀ r, s.progress i ≠ .setStateReturned r) :
    Inv calls ((s.tell [i] (.received b.address)).goTo i .receiverReturned) where
  reachable := by
    intro j
    rw [goTo_progress]
    split
    · intro hr; cases hr
    · exact h.reachable j
  waiting := by
    intro j hj
    rw [goTo_progress] at hj
    have hji : j ≠ i := by rintro rfl; simp at hj
    rw [if_neg hji] at hj
    show (if j ∈ [i] then _ else s.receivers j) = _
    rw [if_neg (by simpa using hji)]
    exact h.waiting j hj
  returned := by
    intro j hj
    refine Or.inr ⟨b, hb, ?_⟩
    show (if j ∈ [i] then _ else s.receivers j) = _
    by_cases hji : j = i
    · rw [if_pos (by simpa using hji)]
    · rw [goTo_progress, if_neg hji] at hj
      rw [if_neg (by simpa using hji)]
      rcases h.returned j hj with ⟨senders, hs, -⟩ | ⟨b', hb', hr⟩
      · rw [hb] at hs
        cases hs
      · rw [hb, SingleInputStateInner.full.injEq] at hb'
        exact hb' ▸ hr
  senders := by
    intro senders hs
    have hs : s.inner = .requested senders := hs
    rw [hb] at hs
    cases hs
  full := by
    intro b' hb'
    have hok := h.full b' hb'
    rw [goTo_progress, if_neg]
    · exact hok
    · rintro rfl
      exact hi _ hok
  succeeded := by
    intro j hj
    rw [goTo_progress] at hj
    split at hj
    · cases hj
    · exact h.succeeded j hj
  failed := by
    intro j state hj
    rw [goTo_progress] at hj
    split at hj
    · cases hj
    · exact h.failed j state hj

/-- The sender of a call is put into the cell, behind those that are in it. -/
theorem request (h : Inv calls s) {senders : List ℕ} (hs : s.inner.senders = senders)
    (hempty : ∀ b, s.inner ≠ .full b) (hi : s.progress i ≠ .receiverReturned) :
    Inv calls ({ s with inner := .requested (senders ++ [i]) }.goTo i .receiverReturned) where
  reachable := by
    intro j
    rw [goTo_progress]
    split
    · intro hr; cases hr
    · exact h.reachable j
  waiting := by
    intro j hj
    rw [goTo_progress] at hj
    have hji : j ≠ i := by rintro rfl; simp at hj
    rw [if_neg hji] at hj
    exact h.waiting j hj
  returned := by
    intro j hj
    refine Or.inl ⟨senders ++ [i], rfl, ?_⟩
    by_cases hji : j = i
    · subst hji
      exact ⟨by simp, h.waiting j hi⟩
    · rw [goTo_progress, if_neg hji] at hj
      rcases h.returned j hj with ⟨senders', hs', hmem, hr⟩ | ⟨b, hb, -⟩
      · rw [hs', SingleInputStateInner.senders] at hs
        exact ⟨List.mem_append_left _ (hs ▸ hmem), hr⟩
      · exact absurd hb (hempty b)
  senders := by
    intro senders' hs'
    have hs' : SingleInputStateInner.requested (senders ++ [i]) = .requested senders' := hs'
    cases hs'
    refine ⟨by simp, ?_⟩
    intro j hj
    rw [goTo_progress]
    split
    · rfl
    · rename_i hji
      have hj : j ∈ s.inner.senders := by
        rw [hs]
        simpa [hji] using hj
      cases hin : s.inner with
      | empty => rw [hin] at hj; cases hj
      | requested senders' => rw [hin] at hj; exact (h.senders senders' hin).2 j hj
      | full b => exact absurd hin (hempty b)
  full := by
    intro b hb
    cases hb
  succeeded := by
    intro j hj
    rw [goTo_progress] at hj
    split at hj
    · cases hj
    · obtain ⟨b, hb, -⟩ := h.succeeded j hj
      exact absurd hb (hempty b)
  failed := by
    intro j state hj
    rw [goTo_progress] at hj
    split at hj
    · cases hj
    · obtain ⟨-, b, hb⟩ := h.failed j state hj
      exact absurd hb (hempty b)

/-- The cell is filled, and all senders in it are answered. -/
theorem fill (h : Inv calls s) {state : State} {senders : List ℕ}
    (hs : s.inner.senders = senders) (hempty : ∀ b, s.inner ≠ .full b)
    (hi : s.progress i ≠ .receiverReturned) : Inv calls (s.fill i state senders) where
  reachable := by
    intro j
    rw [SingleInputState.fill, goTo_progress]
    split
    · intro hr; cases hr
    · exact h.reachable j
  waiting := by
    intro j hj
    have hprev : s.progress j ≠ .receiverReturned := by
      rw [SingleInputState.fill, goTo_progress] at hj
      by_cases hji : j = i
      · exact hji ▸ hi
      · rwa [if_neg hji] at hj
    -- only calls that have returned have their sender in the cell
    have hmem : j ∉ senders := by
      intro hmem
      cases hin : s.inner with
      | empty => rw [hin] at hs; subst hs; cases hmem
      | requested senders' =>
        rw [hin, SingleInputStateInner.senders] at hs
        subst hs
        exact hprev ((h.senders _ hin).2 j hmem)
      | full b => exact absurd hin (hempty b)
    show (if j ∈ senders then _ else s.receivers j) = _
    rw [if_neg hmem]
    exact h.waiting j hprev
  returned := by
    intro j hj
    rw [SingleInputState.fill, goTo_progress] at hj
    split at hj
    · cases hj
    · rcases h.returned j hj with ⟨senders', hs', hmem, -⟩ | ⟨b, hb, -⟩
      · rw [hs', SingleInputStateInner.senders] at hs
        refine Or.inr ⟨⟨i, state⟩, rfl, ?_⟩
        show (if j ∈ senders then _ else s.receivers j) = _
        rw [if_pos (hs ▸ hmem)]
      · exact absurd hb (hempty b)
  senders := by
    intro senders' hs'
    cases hs'
  full := by
    intro b hb
    cases hb
    rw [SingleInputState.fill, goTo_progress, if_pos rfl]
  succeeded := by
    intro j hj
    rw [SingleInputState.fill, goTo_progress] at hj
    split at hj
    · rename_i hji
      exact ⟨⟨i, state⟩, rfl, hji.symm⟩
    · obtain ⟨b, hb, -⟩ := h.succeeded j hj
      exact absurd hb (hempty b)
  failed := by
    intro j state' hj
    rw [SingleInputState.fill, goTo_progress] at hj
    split at hj
    · cases hj
    · obtain ⟨-, b, hb⟩ := h.failed j state' hj
      exact absurd hb (hempty b)

end Inv

/-- The steps of a call that has not ended. -/
inductive StepCases (calls : ℕ → SingleInputStateCall State) (s : SingleInputState State) (i : ℕ) :
    SingleInputState State → Prop where
  | read : calls i = .getInputState → s.progress i = .called →
      StepCases calls s i (s.getInputStateRead i)
  | writeEmpty : calls i = .getInputState → s.progress i = .foundEmpty →
      StepCases calls s i (s.getInputStateEmpty i)
  | writeRequested : calls i = .getInputState → s.progress i = .foundRequested →
      StepCases calls s i (s.getInputStateRequested i)
  | setState {state} : calls i = .setState state → s.progress i = .called →
      StepCases calls s i (s.setState i state)

/-- A step of a call is one of the cases. -/
theorem step_cases (h : s.step calls i = some s') : StepCases calls s i s' := by
  unfold step at h
  split at h
  case h_1 hc hp => exact Option.some.inj h ▸ .read hc hp
  case h_2 hc hp => exact Option.some.inj h ▸ .writeEmpty hc hp
  case h_3 hc hp => exact Option.some.inj h ▸ .writeRequested hc hp
  case h_4 hc hp => exact Option.some.inj h ▸ .setState hc hp
  case h_5 => cases h

/-- **A step keeps the invariant** when its call finds the cell as it was. -/
theorem Inv.step (h : Inv calls s) (hsame : FindsTheSame s i)
    (hstep : s.step calls i = some s') : Inv calls s' := by
  cases step_cases hstep with
  | read hc hp =>
    unfold getInputStateRead
    cases hin : s.inner with
    | empty | requested senders => apply h.goTo <;> simp [hp]
    | full b => exact h.answer hin (by simp [hp])
  | writeEmpty hc hp =>
    simp only [FindsTheSame, hp] at hsame
    have hsenders : s.inner.senders = [] := by rw [hsame]; rfl
    have hrequest := h.request (i := i) hsenders (by simp [hsame]) (by simp [hp])
    -- nothing is in the cell that could be dropped
    have htell : s.tell [] .canceled = s := by simp [tell]
    rwa [getInputStateEmpty, hsame, SingleInputStateInner.senders, htell]
  | writeRequested hc hp =>
    simp only [FindsTheSame, hp] at hsame
    obtain ⟨senders, hsenders⟩ := hsame
    simp only [getInputStateRequested, hsenders]
    exact h.request (by rw [hsenders]; rfl) (by simp [hsenders]) (by simp [hp])
  | @setState state hc hp =>
    unfold SingleInputState.setState
    cases hin : s.inner with
    | empty | requested senders => apply h.fill <;> simp [hin, hp, SingleInputStateInner.senders]
    | full b => apply h.goTo <;> simp [hp, hc, hin]

/-- A full cell keeps its contents when the call finds it as it was. -/
theorem step_kept {b : Boxed State} (hb : s.inner = .full b) (hsame : FindsTheSame s i)
    (hstep : s.step calls i = some s') : s'.inner = .full b := by
  cases step_cases hstep with
  | read hc hp => simp [getInputStateRead, hb, goTo, tell]
  | writeEmpty hc hp => simp [FindsTheSame, hp, hb] at hsame
  | writeRequested hc hp => simp [FindsTheSame, hp, hb] at hsame
  | setState hc hp => simp [SingleInputState.setState, hb, goTo]

/-- A call that does not find the cell as it was breaks it: the cell loses its contents, senders
    are dropped, or the call gets to the place that cannot be reached. -/
theorem Inv.step_breaks (h : Inv calls s) (hsame : ¬ FindsTheSame s i)
    (hstep : s.step calls i = some s') :
    (∃ b, s.inner = .full b ∧ s'.inner ≠ .full b) ∨ (∃ j, s'.receivers j = .canceled) ∨
      s'.progress i = .unreachable := by
  cases step_cases hstep with
  | read hc hp | setState hc hp => simp [FindsTheSame, hp] at hsame
  | writeEmpty hc hp =>
    simp only [FindsTheSame, hp] at hsame
    cases hin : s.inner with
    | empty => exact absurd hin hsame
    | requested senders =>
      obtain ⟨j, hj⟩ := List.exists_mem_of_ne_nil _ (h.senders senders hin).1
      refine Or.inr (Or.inl ⟨j, ?_⟩)
      simp [getInputStateEmpty, SingleInputState.goTo, tell, hin, SingleInputStateInner.senders, hj]
    | full b => exact Or.inl ⟨b, rfl, by simp [getInputStateEmpty, SingleInputState.goTo]⟩
  | writeRequested hc hp =>
    simp only [FindsTheSame, hp] at hsame
    refine Or.inr (Or.inr ?_)
    cases hin : s.inner with
    | requested senders => exact absurd ⟨senders, hin⟩ hsame
    | empty | full b => simp [getInputStateRequested, hin, goTo_progress]

/-- **The invariant holds in every interleaving** whose calls find the cell as it was. -/
theorem Interleaving.inv {schedule : List ℕ} (h : Interleaving calls FindsTheSame schedule s) :
    Inv calls s := by
  refine h.preserves ?_ (inv_new calls)
  rintro s o s' ⟨hsame, hstep⟩ hs
  exact hs.step hsame hstep

/-- Once filled, the cell keeps its box. -/
theorem kept_of_run {schedule : List ℕ} {b : Boxed State}
    (h : Run (Step calls FindsTheSame) s schedule s') (hb : s.inner = .full b) :
    s'.inner = .full b := by
  refine h.preserves (P := fun s => s.inner = .full b) ?_ hb
  rintro s o s' ⟨hsame, hstep⟩ hs
  exact step_kept hs hsame hstep

end SingleInputState

open SingleInputState in
/-- **The cell is filled once.**  In every interleaving of calls of `get_input_state` and
    `set_state` in which each call finds the cell as it was when it acquires the lock again, the
    cell keeps its contents, every sender is answered, and one `set_state` succeeds. -/
theorem single_input_state_filled_once {calls : ℕ → SingleInputStateCall State}
    {schedule : List ℕ} {s : SingleInputState State}
    (h : Interleaving calls FindsTheSame schedule s) : FilledOnce calls FindsTheSame s where
  kept := fun schedule s' b hrun hb => kept_of_run hrun hb
  valid := by
    intro i pointer hi
    by_cases hret : s.progress i = .receiverReturned
    · rcases h.inv.returned i hret with ⟨senders, -, -, hr⟩ | ⟨b, hb, hr⟩
      · rw [hi] at hr
        cases hr
      · rw [hi, Receiver.received.injEq] at hr
        exact ⟨b, hb, hr.symm⟩
    · rw [h.inv.waiting i hret] at hi
      cases hi
  not_dropped := by
    intro i hi
    by_cases hret : s.progress i = .receiverReturned
    · rcases h.inv.returned i hret with ⟨senders, -, -, hr⟩ | ⟨b, -, hr⟩
      · rw [hi] at hr
        cases hr
      · rw [hi] at hr
        cases hr
    · rw [h.inv.waiting i hret] at hi
      cases hi
  answered := by
    intro i j _ hret hj
    obtain ⟨b, hb, -⟩ := h.inv.succeeded j hj
    rcases h.inv.returned i hret with ⟨senders, hs, -⟩ | ⟨b', hb', hr⟩
    · rw [hb] at hs
      cases hs
    · exact ⟨b', hb', hr⟩
  reachable := h.inv.reachable
  one_succeeds := by
    intro i result hi
    have hfull : ∃ b, s.inner = .full b := by
      cases result with
      | ok u => exact (h.inv.succeeded i hi).imp fun _ hb => hb.1
      | error state => exact (h.inv.failed i state hi).2
    obtain ⟨b, hb⟩ := hfull
    refine ⟨b.address, h.inv.full b hb, ?_⟩
    intro j hj
    obtain ⟨b', hb', hj'⟩ := h.inv.succeeded j hj
    rw [hb, SingleInputStateInner.full.injEq] at hb'
    rw [hb', hj']
  others_return := fun i state hi => (h.inv.failed i state hi).1

/-- Two calls ask for the state, and all others set it. -/
def SingleInputState.exampleCalls : ℕ → SingleInputStateCall ℕ
  | 0 => .getInputState
  | 1 => .getInputState
  | n => .setState n

open SingleInputState in
/-- The first call asks for the state, the third one sets it, and the second one asks for it
    while it is there. -/
theorem single_input_state_filled_once_example :
    ∃ s, FilledOnce exampleCalls FindsTheSame s ∧ s.inner = .full ⟨2, 2⟩ ∧
      s.receivers 0 = .received 2 ∧ s.receivers 1 = .received 2 := by
  have hrun : Interleaving exampleCalls FindsTheSame ([0] ++ ([0] ++ ([2] ++ ([1] ++ [])))) _ :=
    .head ⟨trivial, rfl⟩ (.head ⟨rfl, rfl⟩ (.head ⟨trivial, rfl⟩ (.head ⟨trivial, rfl⟩ (.refl _))))
  exact ⟨_, single_input_state_filled_once hrun, rfl, rfl, rfl⟩

open SingleInputState in
/-- The first call finds the cell empty, and the third one fills it.  Then the first one acquires
    the write lock and takes the contents out again. -/
theorem single_input_state_filled_once_fails :
    ∃ (schedule : List ℕ) (s : SingleInputState ℕ),
      Interleaving exampleCalls (fun _ _ => True) schedule s ∧
      ¬ FilledOnce exampleCalls (fun _ _ => True) s := by
  have hfilled : Interleaving exampleCalls (fun _ _ => True) ([0] ++ ([2] ++ [])) _ :=
    .head ⟨trivial, rfl⟩ (.head ⟨trivial, rfl⟩ (.refl _))
  refine ⟨_, _, hfilled, ?_⟩
  intro h
  have hkept := h.kept [0] _ ⟨2, 2⟩ (.single ⟨trivial, rfl⟩) rfl
  cases hkept

end Cozal
