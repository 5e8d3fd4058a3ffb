import Cozal.Transposer.Chain
import Cozal.Transposer.Script
import Mathlib.Data.List.Chain

namespace Cozal

open Transposer

/-!
# Chains of steps with inputs

The chain that is made from a list of inputs in order of time: the next step is always asked
for with the next unused input, and takes it or leaves it.

* `InputChain` — such a chain: the finished steps, the last one and the inputs left.
* `InputsFirst` — the invariant of the work on one step: its inputs are handled in order, and
  no scheduled event before them.
* `input_chain_sound` — the steps of the chain are at increasing times, use the inputs in
  order, skip nothing, and can be interpolated at and after their time.
-/

variable {T : Type} [Transposer T]

/-- A step and the work that has been done on it. -/
structure WorkedStep (T : Type) [Transposer T] where
  step : Step T
  labels : List (Label T)

/-- The inputs of the step, if it is about inputs. -/
def StepData.input? : StepData T → Option (StepInputs T)
  | .input i => some i
  | _ => none

/-- The input events a step is about. -/
def StepData.events : StepData T → List (AnyInputEvent T)
  | .input i => i.events
  | _ => []

/-- A chain from `startTime` and `inputs`: the finished steps, the last step and the inputs no
    step has used. -/
inductive InputChain [BuildProfile] (startTime : Time T) (inputs : List (StepInputs T)) :
    List (WorkedStep T) → WorkedStep T → List (StepInputs T) → Prop where
  | newInit (uuid : ℕ) (transposer : T) (rngSeed : Seed T) :
      InputChain startTime inputs [] ⟨Step.newInit uuid transposer startTime rngSeed, []⟩ inputs
  | poll {past cur pending p} (fuel : ℕ) (answers : List (Response T)) :
      InputChain startTime inputs past cur pending → cur.step.poll fuel answers = .ok p →
      InputChain startTime inputs past ⟨p.step, cur.labels ++ p.labels⟩ pending
  | saturateTake {past cur pending s s' prev' rest} (uuid : ℕ) :
      InputChain startTime inputs past cur pending →
      cur.step.nextUnsaturated uuid pending.head? = .ok (some s, rest) →
      s.saturateTake cur.step = .ok (.ok (), s', prev') →
      InputChain startTime inputs (past ++ [cur]) ⟨s', []⟩ (rest.toList ++ pending.tail)
  | saturateClone {past cur pending s s' rest} (uuid : ℕ) :
      InputChain startTime inputs past cur pending →
      cur.step.nextUnsaturated uuid pending.head? = .ok (some s, rest) →
      s.saturateClone cur.step = .ok (.ok (), s') →
      InputChain startTime inputs (past ++ [cur]) ⟨s', []⟩ (rest.toList ++ pending.tail)

/-! ### The work on one step -/

/-- The input event a piece of work passes to `T::handle_input`, and the current time. -/
def Label.calledInput? : Label T → Option (AnyInputEvent T × Time T)
  | .handleInput e t => some (e, t)
  | _ => none

/-- The input events passed to `T::handle_input`, in order. -/
def calledInputs (ls : List (Label T)) : List (AnyInputEvent T × Time T) :=
  ls.filterMap Label.calledInput?

/-- The piece of work calls `T::handle_scheduled`. -/
def Label.CallsScheduled : Label T → Prop
  | .handleScheduled _ _ _ => True
  | _ => False

/-- The piece of work calls `T::handle_input`. -/
def Label.CallsInput : Label T → Prop
  | .handleInput _ _ => True
  | _ => False

/-- No input event is handled after a scheduled one. -/
def NoInputAfterScheduled (ls : List (Label T)) : Prop :=
  ls.Pairwise (fun a b => a.CallsScheduled → ¬ b.CallsInput)

/-- Every scheduled event that is handled was due at `t`, the current time. -/
def ScheduledAt (t : Time T) (ls : List (Label T)) : Prop :=
  ∀ k p t', .handleScheduled k p t' ∈ ls → k.time = t ∧ t' = t

/-- Work that calls no input event, or comes before any scheduled one, keeps the order. -/
theorem NoInputAfterScheduled.snoc {ls : List (Label T)} {l : Label T}
    (h : NoInputAfterScheduled ls) (hl : ¬ l.CallsInput ∨ ∀ a ∈ ls, ¬ a.CallsScheduled) :
    NoInputAfterScheduled (ls ++ [l]) := by
  refine List.pairwise_append.mpr ⟨h, List.pairwise_singleton _ _, ?_⟩
  intro a ha b hb hsched
  rw [List.mem_singleton.mp hb]
  exact hl.resolve_right fun hnone => hnone a ha hsched

/-- One more event is handled at its time. -/
theorem ScheduledAt.snoc {t : Time T} {ls : List (Label T)} {l : Label T} (h : ScheduledAt t ls)
    (hl : ∀ k p t', l = .handleScheduled k p t' → k.time = t ∧ t' = t) :
    ScheduledAt t (ls ++ [l]) := by
  intro k p t' hmem
  rcases List.mem_append.mp hmem with hmem | hmem
  · exact h k p t' hmem
  · exact hl k p t' (List.mem_singleton.mp hmem).symm

/-- The input events still to come, while a future is at them. -/
def SaturationFuture.restInputs : SaturationFuture T → Option (List (AnyInputEvent T))
  | .running (.input _ rest) _ _ => some rest
  | .inputs _ rest _ _ => some rest
  | _ => none

/-- The work `ls` has been done on a step at `t` about `events`, and has led to `f`: the events
    called and those to come are `events`, and no scheduled event has been handled while there
    are some to come. -/
structure InputsFirst (t : Time T) (events : List (AnyInputEvent T)) (ls : List (Label T))
    (f : SaturationFuture T) : Prop where
  inTime : InTime t f
  called : calledInputs ls ++ (f.restInputs.getD []).map (fun e => (e, t))
    = events.map (fun e => (e, t))
  waiting : f.restInputs ≠ none → ∀ l ∈ ls, ¬ l.CallsScheduled
  ordered : NoInputAfterScheduled ls
  onTime : ScheduledAt t ls

/-- A step at `t` that starts with the future `f`. -/
theorem InputsFirst.start {t : Time T} {events : List (AnyInputEvent T)} {f : SaturationFuture T}
    (h : InTime t f) (hrest : f.restInputs.getD [] = events) : InputsFirst t events [] f where
  inTime := h
  called := by rw [hrest]; rfl
  waiting := by intro _ l hl; cases hl
  ordered := List.Pairwise.nil
  onTime := by intro k p t hmem; cases hmem

/-- Work that calls no handler, and leaves the future at its input events or goes on from
    them. -/
theorem InputsFirst.silent {t : Time T} {events : List (AnyInputEvent T)} {ls : List (Label T)}
    {f f' : SaturationFuture T} {l : Label T} (h : InputsFirst t events ls f)
    (ht : InTime t f') (hl : l.calledInput? = none ∧ ¬ l.CallsScheduled)
    (hrest : f'.restInputs = f.restInputs ∨
      f'.restInputs = none ∧ f.restInputs.getD [] = []) :
    InputsFirst t events (ls ++ [l]) f' := by
  have hcalled : calledInputs (ls ++ [l]) = calledInputs ls := by
    simp [calledInputs, hl.1]
  have hinput : ¬ l.CallsInput := by
    cases l <;> simp_all [Label.calledInput?, Label.CallsInput]
  constructor
  case inTime => exact ht
  case called =>
    rw [hcalled]
    rcases hrest with heq | ⟨hnone, hempty⟩
    · rw [heq]; exact h.called
    · have hold := h.called
      rw [hempty] at hold
      rw [hnone]; exact hold
  case waiting =>
    intro hwait l' hmem
    rcases hrest with heq | ⟨hnone, -⟩
    · rcases List.mem_append.mp hmem with hmem | hmem
      · exact h.waiting (heq ▸ hwait) l' hmem
      · rw [List.mem_singleton.mp hmem]; exact hl.2
    · exact absurd hnone hwait
  case ordered => exact h.ordered.snoc (Or.inl hinput)
  case onTime =>
    refine h.onTime.snoc ?_
    rintro k p t' rfl
    exact absurd trivial hl.2

/-- A piece of work keeps the invariant. -/
theorem InputsFirst.work {t : Time T} {events : List (AnyInputEvent T)} {ls : List (Label T)}
    {f f' : SaturationFuture T} {l : Label T} (h : InputsFirst t events ls f)
    (hw : FutureWork f l f') : InputsFirst t events (ls ++ [l]) f' := by
  have ht := h.inTime.work hw
  cases hw with
  | @call caller h₁ h₂ cx l cx' hcx =>
    refine h.silent ht ?_ (Or.inl ?_)
    · cases hcx <;> exact ⟨rfl, id⟩
    · cases caller <;> rfl
  | @done caller h₁ t' cx =>
    refine h.silent ht ⟨rfl, id⟩ (Or.inl ?_)
    cases caller <;> rfl
  | inputsDone => exact h.silent ht ⟨rfl, id⟩ (Or.inr ⟨rfl, rfl⟩)
  | @input time event rest t' h₁ cx =>
    have hcur : cx.time.time = t := h.inTime.current
    -- no scheduled event has been handled yet
    have hnone := h.waiting (by simp [SaturationFuture.restInputs])
    constructor
    case inTime => exact ht
    case called =>
      have hcalled : calledInputs (ls ++ [.handleInput event cx.time.time])
          = calledInputs ls ++ [(event, t)] := by
        simp [calledInputs, Label.calledInput?, hcur]
      rw [hcalled, List.append_assoc]
      exact h.called
    case waiting =>
      intro _ l' hmem
      rcases List.mem_append.mp hmem with hmem | hmem
      · exact hnone l' hmem
      · rw [List.mem_singleton.mp hmem]; exact id
    case ordered => exact h.ordered.snoc (Or.inr hnone)
    case onTime => exact h.onTime.snoc (by intro k p t' heq; cases heq)
  | @pop time t' h₁ cx key payload metadata hkey hpop =>
    have hcur : cx.time.time = t := h.inTime.current
    have htime : time.time = t := h.inTime.onTime.1
    constructor
    case inTime => exact ht
    case called =>
      have hcalled : calledInputs (ls ++ [.handleScheduled key payload cx.time.time])
          = calledInputs ls := by
        simp [calledInputs, Label.calledInput?]
      rw [hcalled]
      exact h.called
    case waiting => exact fun hwait => absurd rfl hwait
    case ordered => exact h.ordered.snoc (Or.inl id)
    case onTime =>
      refine h.onTime.snoc ?_
      intro k p t' heq
      obtain ⟨rfl, -, rfl⟩ := Label.handleScheduled.inj heq
      exact ⟨hkey.trans htime, hcur⟩

/-- The events come first while the future runs. -/
theorem InputsFirst.run {t : Time T} {events : List (AnyInputEvent T)} {ls ls' : List (Label T)}
    {f f' : SaturationFuture T} (h : InputsFirst t events ls f) (hr : Run LabelStep f ls' f') :
    InputsFirst t events (ls ++ ls') f' := by
  induction hr generalizing ls with
  | refl f => simpa using h
  | head hstep _ ih =>
    obtain ⟨l, rfl, hw⟩ := hstep.work
    rw [← List.append_assoc]
    exact ih (h.work hw)

/-- The work that has been done on a step fits what the step is about. -/
def WorkedStep.InOrder (x : WorkedStep T) : Prop :=
  match x.step.status with
  | .unsaturated => False
  | .saturating f _ _ => InputsFirst x.step.getTime x.step.data.events x.labels f
  | .saturated w => Drained x.step.getTime w ∧
      calledInputs x.labels = x.step.data.events.map (fun e => (e, x.step.getTime)) ∧
      NoInputAfterScheduled x.labels ∧ ScheduledAt x.step.getTime x.labels

/-- What the work on a step in order says, whatever the step is. -/
theorem WorkedStep.InOrder.labels {x : WorkedStep T} (h : x.InOrder) :
    (calledInputs x.labels <+: x.step.data.events.map (fun e => (e, x.step.getTime)) ∧
      (x.step.isSaturated → calledInputs x.labels
        = x.step.data.events.map (fun e => (e, x.step.getTime)))) ∧
      NoInputAfterScheduled x.labels ∧ ScheduledAt x.step.getTime x.labels := by
  cases hst : x.step.status with
  | unsaturated => simp only [WorkedStep.InOrder, hst] at h
  | saturating f a ch =>
    simp only [WorkedStep.InOrder, hst] at h
    refine ⟨⟨⟨_, h.called⟩, ?_⟩, h.ordered, h.onTime⟩
    simp [Step.isSaturated, hst]
  | saturated w =>
    simp only [WorkedStep.InOrder, hst] at h
    obtain ⟨-, hcalled, hordered, htime⟩ := h
    have hprefix : calledInputs x.labels ++ [] =
        x.step.data.events.map (fun e => (e, x.step.getTime)) := by
      rw [List.append_nil, hcalled]
    exact ⟨⟨⟨[], hprefix⟩, fun _ => hcalled⟩, hordered, htime⟩

/-- A poll keeps the work on a step in order. -/
theorem WorkedStep.InOrder.poll {x : WorkedStep T} {fuel : ℕ} {answers : List (Response T)}
    {p : StepPolled T} (h : x.InOrder) (hp : x.step.poll fuel answers = .ok p) :
    (WorkedStep.mk p.step (x.labels ++ p.labels)).InOrder ∧ p.step.data = x.step.data := by
  cases hst : x.step.status with
  | unsaturated => simp only [WorkedStep.InOrder, hst] at h
  | saturated w =>
    obtain ⟨hstep, hlabels, -, -⟩ := Step.poll_refused (by simp [Step.isSaturating, hst]) hp
    rw [hstep, hlabels, List.append_nil]
    exact ⟨h, rfl⟩
  | saturating f a ch =>
    simp only [WorkedStep.InOrder, hst] at h
    obtain ⟨hdata, -, -, ⟨w, g, -, hw, -, -, hr, hg⟩ | ⟨g, a', ch', hg, -, hr, -⟩⟩ :=
      Step.poll_run hst hp
    · have hend := h.run hr
      refine ⟨?_, hdata⟩
      simp only [WorkedStep.InOrder, hw, Step.getTime_eq hdata, hdata]
      refine ⟨hend.inTime.drained hg, ?_, hend.ordered, hend.onTime⟩
      -- the loop over the events that are due comes after the last input event
      obtain ⟨time, t, cx, rfl, rfl⟩ := advance_ready hg
      have hcalled := hend.called
      simpa only [SaturationFuture.restInputs, Option.getD_none, List.map_nil,
        List.append_nil] using hcalled
    · refine ⟨?_, hdata⟩
      simp only [WorkedStep.InOrder, hg, Step.getTime_eq hdata, hdata]
      exact h.run hr

/-- A saturated step that is given an input takes it or leaves it. -/
theorem Step.option_emptied {prev : Step T} {uuid : ℕ} {i : StepInputs T} {s : Option (Step T)}
    {rest : Option (StepInputs T)} (h : prev.nextUnsaturated uuid (some i) = .ok (s, rest)) :
    ∃ s', s = some s' ∧ (rest = none ↔ s'.data = .input i) ∧ (rest = none ∨ rest = some i) := by
  cases hw : prev.status with
  | unsaturated => simp [Step.nextUnsaturated, hw] at h
  | saturating f a ch => simp [Step.nextUnsaturated, hw] at h
  | saturated w =>
    cases s with
    | none =>
      simp only [Step.nextUnsaturated, hw] at h
      cases hk : w.metadata.getNextScheduledTime with
      | none => simp [hk] at h
      | some k => simp only [hk] at h; split at h <;> cases h
    | some s' =>
      obtain ⟨-, ⟨j, hj, hrest, hdata, -⟩ | ⟨k, -, hrest, hdata, -⟩⟩ :=
        Step.nextUnsaturated_cases hw h
      · cases hj
        exact ⟨s', rfl, by simp [hrest, hdata], Or.inl hrest⟩
      · exact ⟨s', rfl, by simp [hrest, hdata], Or.inr hrest⟩

/-- What the step after a saturated one does: it is later, not later than any scheduled event,
    and is that of the first input or leaves the inputs alone. -/
structure NextInOrder (prev s : Step T) (w : WrappedTransposer T)
    (pending rest : List (StepInputs T)) : Prop where
  inOrder : (WorkedStep.mk s []).InOrder
  later : prev.getTime < s.getTime
  noneSkipped : ∀ k p, w.metadata.schedule.get k = some p → s.getTime ≤ k.time
  used : pending = s.data.input?.toList ++ rest
  pendingLater : ∀ i ∈ rest, s.getTime < i.time

/-- The step after one in order is in order, and takes the first input when it is about inputs. -/
theorem WorkedStep.InOrder.next {x : WorkedStep T} {w : WrappedTransposer T} {uuid : ℕ}
    {pending : List (StepInputs T)} {rest : Option (StepInputs T)} {s s' : Step T}
    (h : x.InOrder) (hw : x.step.status = .saturated w)
    (hsorted : pending.Pairwise (fun i j => i.time < j.time))
    (hlater : ∀ i ∈ pending, x.step.getTime < i.time)
    (hnext : x.step.nextUnsaturated uuid pending.head? = .ok (some s, rest))
    (hs : s.saturate w = .ok s') :
    NextInOrder x.step s' w pending (rest.toList ++ pending.tail) := by
  simp only [WorkedStep.InOrder, hw] at h
  obtain ⟨hdrained, -, -, -⟩ := h
  obtain ⟨g, hg, rfl⟩ := Step.saturate_ok hs
  obtain ⟨-, ⟨i, hi, rfl, hdata, hle⟩ | ⟨k, hk, rfl, hdata, hlt⟩⟩ :=
    Step.nextUnsaturated_cases hw hnext
  · -- the step of the first input
    obtain ⟨tail, rfl⟩ : ∃ tail, pending = i :: tail := by
      cases pending with
      | nil => cases hi
      | cons j tail => cases hi; exact ⟨tail, rfl⟩
    simp only [hdata, Step.saturationFuture, Option.some.injEq] at hg
    subst hg
    have htime : s.getTime = i.time := by simp only [Step.getTime, hdata]
    have hpending : NothingBefore i.time w.metadata := .of_next_le hle
    constructor
    case inOrder =>
      show InputsFirst s.getTime s.data.events [] _
      rw [htime, hdata]
      exact .start (.handleInput hpending _) rfl
    case later =>
      show _ < s.getTime
      rw [htime]; exact hlater i List.mem_cons_self
    case noneSkipped =>
      show ∀ k p, _ → s.getTime ≤ _
      rw [htime]; exact hpending
    case used =>
      show _ = s.data.input?.toList ++ _
      rw [hdata]; rfl
    case pendingLater =>
      show ∀ j ∈ tail, s.getTime < _
      rw [htime]; exact (List.pairwise_cons.mp hsorted).1
  · -- the step of the next scheduled event, which is due before the first input
    simp only [hdata, Step.saturationFuture, Option.some.injEq] at hg
    subst hg
    have htime : s.getTime = k.time := by simp only [Step.getTime, hdata]
    have hrest : pending.head?.toList ++ pending.tail = pending := by cases pending <;> rfl
    rw [hrest]
    constructor
    case inOrder =>
      show InputsFirst s.getTime s.data.events [] _
      rw [htime, hdata]
      exact .start (.handleScheduled hk _) rfl
    case later =>
      show _ < s.getTime
      rw [htime]; exact hdrained.next_lt hk
    case noneSkipped =>
      show ∀ k p, _ → s.getTime ≤ _
      rw [htime]; exact NothingBefore.of_next hk le_rfl
    case used =>
      show _ = s.data.input?.toList ++ _
      rw [hdata]; rfl
    case pendingLater =>
      show ∀ j ∈ pending, s.getTime < _
      rw [htime]
      intro j hj
      cases pending with
      | nil => cases hj
      | cons i tail =>
        have hfirst : k.time < i.time := hlt i rfl
        rcases List.mem_cons.mp hj with rfl | hj
        · exact hfirst
        · exact hfirst.trans ((List.pairwise_cons.mp hsorted).1 j hj)

/-! ### The chain -/

/-- The invariant of a chain with inputs. -/
structure InputChainInv (inputs : List (StepInputs T)) (past : List (WorkedStep T))
    (cur : WorkedStep T) (pending : List (StepInputs T)) : Prop where
  increasing : ((past ++ [cur]).map (fun x => x.step.getTime)).Pairwise (· < ·)
  used : inputs = (past ++ [cur]).filterMap (fun x => x.step.data.input?) ++ pending
  pendingLater : ∀ i ∈ pending, cur.step.getTime < i.time
  noneSkipped : (past ++ [cur]).IsChain (fun x y => ∀ w, x.step.status = .saturated w →
    ∀ k p, w.metadata.schedule.get k = some p → y.step.getTime ≤ k.time)
  inOrder : ∀ x ∈ past ++ [cur], x.InOrder

/-- A step about the same thing can take the place of the last one. -/
theorem InputChainInv.replace {inputs : List (StepInputs T)} {past : List (WorkedStep T)}
    {cur cur' : WorkedStep T} {pending : List (StepInputs T)}
    (h : InputChainInv inputs past cur pending) (hcur : cur'.InOrder)
    (hdata : cur'.step.data = cur.step.data) : InputChainInv inputs past cur' pending := by
  have htime := Step.getTime_eq hdata
  constructor
  case increasing =>
    have hold := h.increasing
    simpa only [List.map_append, List.map_cons, List.map_nil, htime] using hold
  case used =>
    have hold := h.used
    simpa only [List.filterMap_append, List.filterMap_cons, List.filterMap_nil, hdata] using hold
  case pendingLater => rw [htime]; exact h.pendingLater
  case noneSkipped =>
    have hold := h.noneSkipped
    rw [List.isChain_append] at hold ⊢
    refine ⟨hold.1, List.isChain_singleton _, ?_⟩
    intro x hx y hy
    simp only [List.head?_cons, Option.mem_def, Option.some.injEq] at hy
    subst hy
    rw [htime]
    exact hold.2.2 x hx cur (by simp)
  case inOrder =>
    intro x hx
    rcases List.mem_append.mp hx with hx | hx
    · exact h.inOrder x (List.mem_append_left _ hx)
    · rw [List.mem_singleton.mp hx]; exact hcur

/-- The chain goes on with a step that is in order after the last one. -/
theorem InputChainInv.extend {inputs : List (StepInputs T)} {past : List (WorkedStep T)}
    {cur : WorkedStep T} {pending rest : List (StepInputs T)} {s : Step T}
    {w : WrappedTransposer T} (h : InputChainInv inputs past cur pending)
    (hw : cur.step.status = .saturated w) (hs : NextInOrder cur.step s w pending rest) :
    InputChainInv inputs (past ++ [cur]) ⟨s, []⟩ rest := by
  constructor
  case increasing =>
    have hold := h.increasing
    rw [List.map_append, List.pairwise_append]
    refine ⟨hold, List.pairwise_singleton _ _, ?_⟩
    intro t ht t' ht'
    rw [List.mem_singleton.mp ht']
    -- the last step is the latest so far
    rw [List.map_append, List.pairwise_append] at hold
    rw [List.map_append, List.mem_append] at ht
    rcases ht with ht | ht
    · exact (hold.2.2 t ht _ List.mem_cons_self).trans hs.later
    · rw [List.mem_singleton.mp ht]; exact hs.later
  case used =>
    rw [List.filterMap_append, List.append_assoc]
    have hlast : ([⟨s, []⟩] : List (WorkedStep T)).filterMap (fun x => x.step.data.input?)
        = s.data.input?.toList := by
      cases hd : s.data.input? <;> simp [hd]
    rw [hlast, ← hs.used]
    exact h.used
  case pendingLater => exact hs.pendingLater
  case noneSkipped =>
    rw [List.isChain_append]
    refine ⟨h.noneSkipped, List.isChain_singleton _, ?_⟩
    intro x hx y hy
    simp only [List.getLast?_append, List.getLast?_singleton, Option.some_or, Option.mem_def,
      Option.some.injEq, List.head?_cons] at hx hy
    subst hx hy
    intro w' hw'
    rw [hw] at hw'
    cases hw'
    exact hs.noneSkipped
  case inOrder =>
    intro x hx
    rcases List.mem_append.mp hx with hx | hx
    · exact h.inOrder x hx
    · rw [List.mem_singleton.mp hx]; exact hs.inOrder

section Build

variable [BuildProfile]

/-- The inputs a chain has not used are the last of those it was given. -/
theorem InputChain.inv {startTime : Time T} {inputs : List (StepInputs T)}
    (hsorted : inputs.Pairwise (fun i j => i.time < j.time))
    (hstart : ∀ i ∈ inputs, startTime < i.time) {past : List (WorkedStep T)}
    {cur : WorkedStep T} {pending : List (StepInputs T)}
    (h : InputChain startTime inputs past cur pending) :
    InputChainInv inputs past cur pending := by
  have hsuffix : ∀ {past cur pending}, InputChainInv inputs past cur pending →
      pending.Pairwise (fun i j => i.time < j.time) := by
    intro past cur pending h
    have hu := h.used
    rw [hu] at hsorted
    exact (List.pairwise_append.mp hsorted).2.1
  induction h with
  | newInit uuid transposer rngSeed =>
    refine ⟨List.pairwise_singleton _ _, rfl, hstart, List.isChain_singleton _, ?_⟩
    intro x hx
    rw [List.mem_singleton.mp hx]
    exact InputsFirst.start (.init transposer rngSeed startTime 0) rfl
  | poll fuel answers _ hp ih =>
    obtain ⟨hcur, hdata⟩ := (ih.inOrder _ (by simp)).poll hp
    exact ih.replace hcur hdata
  | saturateTake uuid _ hnext htake ih =>
    obtain ⟨w, hw, hs, -⟩ := Step.saturateTake_ok htake
    have hcur := ih.inOrder _ (List.mem_append_right _ (List.mem_singleton_self _))
    exact ih.extend hw (hcur.next hw (hsuffix ih) ih.pendingLater hnext hs)
  | saturateClone uuid _ hnext hclone ih =>
    obtain ⟨w, hw, hs⟩ := Step.saturateClone_ok hclone
    have hcur := ih.inOrder _ (List.mem_append_right _ (List.mem_singleton_self _))
    exact ih.extend hw (hcur.next hw (hsuffix ih) ih.pendingLater hnext hs)

/-- What holds of a chain that was made from `inputs`, with the finished steps `past`, the last
    step `cur` and the inputs `pending` left. -/
structure InputChainSound (inputs : List (StepInputs T)) (past : List (WorkedStep T))
    (cur : WorkedStep T) (pending : List (StepInputs T)) : Prop where
  /-- The steps are at increasing times. -/
  increasing : ((past ++ [cur]).map (fun x => x.step.getTime)).Pairwise (· < ·)
  /-- The inputs are those of the steps, each of one step, and those left. -/
  used : inputs = (past ++ [cur]).filterMap (fun x => x.step.data.input?) ++ pending
  /-- No input is left at or before the last step. -/
  pending_later : ∀ i ∈ pending, cur.step.getTime < i.time
  /-- No step is later than an event scheduled before it. -/
  none_skipped : (past ++ [cur]).IsChain (fun x y => ∀ w, x.step.status = .saturated w →
    ∀ k p, w.metadata.schedule.get k = some p → y.step.getTime ≤ k.time)
  /-- The option is emptied exactly when the new step is that of its input. -/
  option_emptied : ∀ uuid i s rest,
    cur.step.nextUnsaturated uuid (some i) = .ok (s, rest) →
    ∃ s', s = some s' ∧ (rest = none ↔ s'.data = .input i) ∧ (rest = none ∨ rest = some i)
  /-- The input events of a step are handled in order at its time, all of them when it is
      saturated. -/
  inputs_handled : ∀ x ∈ past ++ [cur],
    calledInputs x.labels <+: x.step.data.events.map (fun e => (e, x.step.getTime)) ∧
      (x.step.isSaturated → calledInputs x.labels
        = x.step.data.events.map (fun e => (e, x.step.getTime)))
  /-- They are handled before every scheduled event. -/
  inputs_first : ∀ x ∈ past ++ [cur], NoInputAfterScheduled x.labels
  /-- A step handles the scheduled events that are due at its time. -/
  scheduled_at : ∀ x ∈ past ++ [cur], ScheduledAt x.step.getTime x.labels
  /-- A saturated step has no event left at or before its time, and was last updated at it. -/
  drained : ∀ x ∈ past ++ [cur], ∀ w, x.step.status = .saturated w → Drained x.step.getTime w
  /-- It can be interpolated at its time and after. -/
  interpolates : ∀ x ∈ past ++ [cur], x.step.isSaturated → ∀ t, x.step.getTime ≤ t →
    ∃ i, x.step.interpolate t = .ok i

/-- A saturated step that was last updated at its time is not asked about the past. -/
theorem Drained.interpolate {s : Step T} {w : WrappedTransposer T} (h : Drained s.getTime w)
    (hw : s.status = .saturated w) {t : Time T} (ht : s.getTime ≤ t) :
    s.interpolate t
      = .ok (Transposer.interpolate w.transposer t w.metadata.lastUpdated.time) := by
  have hnot : ¬ t < w.metadata.lastUpdated.time := by rw [h.lastUpdated]; exact not_lt.mpr ht
  simp only [Step.interpolate, hw, hnot, and_false, if_false]

/-- **Chains with inputs.**  Give a chain inputs at increasing times after its start: its steps
    are at increasing times and skip no input and no event that is due; each input is handled by
    one step, at its time and before the scheduled events of that time; and a saturated step
    leaves nothing to do at its time, so it can be interpolated from there on. -/
theorem input_chain_sound {startTime : Time T} {inputs : List (StepInputs T)}
    (hsorted : inputs.Pairwise (fun i j => i.time < j.time))
    (hstart : ∀ i ∈ inputs, startTime < i.time) {past : List (WorkedStep T)}
    {cur : WorkedStep T} {pending : List (StepInputs T)}
    (h : InputChain startTime inputs past cur pending) :
    InputChainSound inputs past cur pending := by
  have hinv := h.inv hsorted hstart
  have hdrained : ∀ x ∈ past ++ [cur], ∀ w, x.step.status = .saturated w →
      Drained x.step.getTime w := by
    intro x hx w hw
    have hx := hinv.inOrder x hx
    simp only [WorkedStep.InOrder, hw] at hx
    exact hx.1
  refine ⟨hinv.increasing, hinv.used, hinv.pendingLater, hinv.noneSkipped,
    fun _ _ _ _ hnext => Step.option_emptied hnext, ?_, ?_, ?_, hdrained, ?_⟩
  · exact fun x hx => (hinv.inOrder x hx).labels.1
  · exact fun x hx => (hinv.inOrder x hx).labels.2.1
  · exact fun x hx => (hinv.inOrder x hx).labels.2.2
  · intro x hx hsat t ht
    cases hst : x.step.status with
    | unsaturated => simp [Step.isSaturated, hst] at hsat
    | saturating f a ch => simp [Step.isSaturated, hst] at hsat
    | saturated w => exact ⟨_, (hdrained x hx w hst).interpolate hst ht⟩

end Build

/-- Two input events for a scripted transposer. -/
def Script.inputsAt (time : ℕ) : StepInputs Script where
  time := time
  inputs := (OrdMap.empty).insert 0 ⟨(), [(5 : ℕ), (6 : ℕ)]⟩

/-- Two inputs are handled in a step of their own. -/
theorem input_chain_sound_script :
    ∃ past cur, @InputChainSound _ _ debugBuild [Script.inputsAt 1] past cur [] ∧
      calledInputs cur.labels = [(⟨(), (5 : ℕ)⟩, (1 : ℕ)), (⟨(), (6 : ℕ)⟩, (1 : ℕ))] ∧
      cur.step.isSaturated := by
  let _ : BuildProfile := debugBuild
  let script : Script := ⟨[.schedule 1], [.schedule 3], [.wait], 0⟩
  have hinit := @InputChain.newInit Script _ _ (0 : ℕ) [Script.inputsAt 1] 0 script ()
  have hnext := InputChain.saturateClone 1 (.poll 20 [] hinit rfl) rfl rfl
  have hdone := InputChain.poll 60 [(), ()] hnext rfl
  refine ⟨_, _, input_chain_sound (List.pairwise_singleton _ _) ?_ hdone, rfl, rfl⟩
  intro i hi
  rw [List.mem_singleton.mp hi]
  show (0 : ℕ) < 1
  omega

end Cozal
