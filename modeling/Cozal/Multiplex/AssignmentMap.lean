import Cozal.Lib.OrdMap
import Cozal.Lib.Run
import Mathlib.Data.PNat.Defs

namespace Cozal.Multiplex

/-!
# The assignments of a multiplex

A multiplex serves any number of outgoing channels with the few channels of its source.
`AssignmentMap` keeps which outgoing channel has which source channel, once from each side.

* `AssignmentMap.assign`, `AssignmentMap.unassign` — the two updates.
* `AssignmentMap.Issued` — the updates that a poll of the multiplex issues.
* `AssignmentMap.OneToOne` — the two sides agree.
* `AssignmentMap.Issued.oneToOne_iff`, `assignments_one_to_one_iff` — they do exactly as long as
  no source channel is handed over to another outgoing channel: nothing takes it away from the one
  that had it.
-/

variable {Time : Type}

/-- The method that an outgoing channel was polled with. -/
inductive PollType where
  | normal | forget | events
deriving DecidableEq, Repr

/-- A source channel, and what it is polled for. -/
structure Assignment (Time : Type) where
  pollType : PollType
  time : Time
  sourceChannel : ℕ
deriving DecidableEq, Repr

/-- The outgoing channels of the source channels, and the other way around. -/
structure AssignmentMap (Time : Type) where
  maxSrcChannels : ℕ+
  sourceChannels : OrdMap ℕ ℕ
  outputChannels : OrdMap ℕ (Assignment Time)

namespace AssignmentMap

/-- No channel is assigned. -/
def new (maxChannels : ℕ+) : AssignmentMap Time where
  maxSrcChannels := maxChannels
  sourceChannels := .empty
  outputChannels := .empty

/-- The source channel of an outgoing channel, and what it is polled for. -/
def getAssignedSourceChannel (m : AssignmentMap Time) (channel : ℕ) : Option (Assignment Time) :=
  m.outputChannels.get channel

/-- A source channel that no outgoing channel has is said to be assigned to the outgoing channel of
    the same number. -/
def getAssignedOutputChannel (m : AssignmentMap Time) (channel : ℕ) : Option ℕ :=
  match m.sourceChannels.get channel with
  | some outChannel => some outChannel
  | none => some channel

/-- The loop of `get_unassigned_source_channel`, with the number of channels from `channel` on. -/
def searchUnassigned (m : AssignmentMap Time) : ℕ → ℕ → Option ℕ
  | 0, _ => none
  | remaining + 1, channel =>
      if (m.getAssignedOutputChannel channel).isSome then
        m.searchUnassigned remaining (channel + 1)
      else some channel

/-- The first source channel that is not assigned. -/
def getUnassignedSourceChannel (m : AssignmentMap Time) : Option ℕ :=
  m.searchUnassigned m.maxSrcChannels 0

/-- The source channel and the outgoing channel are assigned to each other; what they had before is
    not looked at. -/
def assign (m : AssignmentMap Time) (outChannel : ℕ) (assignment : Assignment Time) :
    AssignmentMap Time :=
  { m with
    sourceChannels := m.sourceChannels.insert assignment.sourceChannel outChannel
    outputChannels := m.outputChannels.insert outChannel assignment }

/-- A source channel and the outgoing channel it is assigned to are taken apart. -/
def unassign (m : AssignmentMap Time) (srcChannel : ℕ) : AssignmentMap Time :=
  match m.sourceChannels.get srcChannel with
  | some outChannel =>
      { m with
        sourceChannels := m.sourceChannels.remove srcChannel
        outputChannels := m.outputChannels.remove outChannel }
  | none => m

/-! ### Both sides -/

variable {m : AssignmentMap Time}

/-- The source channels of the outgoing channels. -/
def held (m : AssignmentMap Time) : OrdMap ℕ ℕ :=
  m.outputChannels.mapValues fun _ assignment => assignment.sourceChannel

/-- The source channel of an outgoing channel is that of its assignment. -/
theorem get_held (m : AssignmentMap Time) (outChannel : ℕ) :
    m.held.get outChannel = (m.getAssignedSourceChannel outChannel).map (·.sourceChannel) :=
  OrdMap.get_mapValues _ _ _

/-- An outgoing channel that is assigned has the source channel of its assignment. -/
theorem get_held_eq_some {assignment : Assignment Time} {outChannel : ℕ}
    (h : m.getAssignedSourceChannel outChannel = some assignment) :
    m.held.get outChannel = some assignment.sourceChannel := by
  rw [get_held, h]
  rfl

/-- Assigning a source channel adds it to the source channels of the outgoing channels. -/
theorem get_held_assign (m : AssignmentMap Time) (outChannel : ℕ) (assignment : Assignment Time)
    (k : ℕ) : (m.assign outChannel assignment).held.get k
      = (m.held.insert outChannel assignment.sourceChannel).get k :=
  OrdMap.get_mapValues_insert _ _ _ _ _

/-- An outgoing channel has a source channel exactly when that one is assigned to it, and no two
    have the same. -/
structure OneToOne (m : AssignmentMap Time) : Prop where
  inverse : m.held.Inverse m.sourceChannels
  held_once : ∀ outChannel outChannel' srcChannel, m.held.get outChannel = some srcChannel →
    m.held.get outChannel' = some srcChannel → outChannel = outChannel'

/-- When the two sides agree, no two outgoing channels have the same source channel. -/
theorem oneToOne_iff : m.OneToOne ↔ m.held.Inverse m.sourceChannels := by
  constructor
  · intro h
    exact h.inverse
  · intro h
    exact ⟨h, fun _ _ _ hout hout' => h.injective hout hout'⟩

/-- Without assignments the two sides agree. -/
theorem OneToOne.new (maxChannels : ℕ+) : (new maxChannels : AssignmentMap Time).OneToOne :=
  oneToOne_iff.mpr .empty

/-- After an assignment the two sides agree exactly when they do as maps. -/
theorem oneToOne_assign_iff {outChannel : ℕ} {assignment : Assignment Time} :
    (m.assign outChannel assignment).OneToOne ↔
      (m.held.insert outChannel assignment.sourceChannel).Inverse
        (m.sourceChannels.insert assignment.sourceChannel outChannel) :=
  oneToOne_iff.trans (OrdMap.inverse_congr (m.get_held_assign outChannel assignment) _)

/-- The outgoing channel gives its source channel back. -/
theorem OneToOne.unassign (h : m.OneToOne) {outChannel srcChannel : ℕ}
    (hheld : m.held.get outChannel = some srcChannel) : (m.unassign srcChannel).OneToOne := by
  have hinverse := h.inverse.remove hheld
  unfold AssignmentMap.unassign
  rw [(h.inverse outChannel srcChannel).mp hheld]
  apply oneToOne_iff.mpr
  exact (OrdMap.inverse_congr (OrdMap.get_mapValues_remove _ _ _) _).mpr hinverse

/-! ### The calls of a poll -/

/-- An update of the assignments. -/
inductive Call (Time : Type) where
  | assign (outChannel : ℕ) (assignment : Assignment Time)
  | unassign (srcChannel : ℕ)
deriving DecidableEq, Repr

/-- Make the update. -/
def apply (m : AssignmentMap Time) : Call Time → AssignmentMap Time
  | .assign outChannel assignment => m.assign outChannel assignment
  | .unassign srcChannel => m.unassign srcChannel

/-- The updates that `poll_internal` issues: a free source channel is assigned to an outgoing
    channel that has none; an outgoing channel is assigned its own source channel anew; the source
    channel of an outgoing channel is handed over to a pending one; and it is given back. -/
inductive Issued (m : AssignmentMap Time) : Call Time → Prop where
  | free {outChannel assignment} : m.getAssignedSourceChannel outChannel = none →
      m.sourceChannels.get assignment.sourceChannel = none →
      Issued m (.assign outChannel assignment)
  | own {outChannel old assignment} : m.getAssignedSourceChannel outChannel = some old →
      assignment.sourceChannel = old.sourceChannel → Issued m (.assign outChannel assignment)
  | handOver {old pending assignment} (holder : ℕ) :
      m.getAssignedSourceChannel holder = some old →
      assignment.sourceChannel = old.sourceChannel → Issued m (.assign pending assignment)
  | giveBack {old srcChannel} (holder : ℕ) : m.getAssignedSourceChannel holder = some old →
      srcChannel = old.sourceChannel → Issued m (.unassign srcChannel)

/-- The update assigns a source channel to an outgoing channel while another one has it. -/
def HandsOver (m : AssignmentMap Time) : Call Time → Prop
  | .assign outChannel assignment =>
      ∃ holder, m.held.get holder = some assignment.sourceChannel ∧ holder ≠ outChannel
  | .unassign _ => False

/-- A source channel that is assigned to its own outgoing channel anew is not handed over. -/
theorem OneToOne.assign_own (h : m.OneToOne) {outChannel : ℕ} {assignment : Assignment Time}
    (hheld : m.held.get outChannel = some assignment.sourceChannel) :
    (m.assign outChannel assignment).OneToOne ∧ ¬ m.HandsOver (.assign outChannel assignment) := by
  refine ⟨oneToOne_assign_iff.mpr (h.inverse.insert_same hheld), ?_⟩
  rintro ⟨holder, hholder, hne⟩
  exact hne (h.held_once holder outChannel _ hholder hheld)

/-- One that is handed over stays with the outgoing channel it was taken from. -/
theorem not_oneToOne_of_handsOver {outChannel : ℕ} {assignment : Assignment Time}
    (h : m.HandsOver (.assign outChannel assignment)) :
    ¬ (m.assign outChannel assignment).OneToOne := by
  obtain ⟨holder, hholder, hne⟩ := h
  intro hone
  apply hne
  apply hone.held_once holder outChannel assignment.sourceChannel
  · rw [get_held_assign, OrdMap.get_insert, if_neg hne]
    exact hholder
  · rw [get_held_assign, OrdMap.get_insert, if_pos rfl]

/-- **An update keeps both sides in agreement** exactly when it hands nothing over. -/
theorem Issued.oneToOne_iff {c : Call Time} (h : m.OneToOne) (hc : m.Issued c) :
    (m.apply c).OneToOne ↔ ¬ m.HandsOver c := by
  cases hc with
  | @free outChannel assignment hout hsrc =>
    have hheld : m.held.get outChannel = none := by rw [get_held, hout]; rfl
    refine iff_of_true (oneToOne_assign_iff.mpr (h.inverse.insert hheld hsrc)) ?_
    rintro ⟨holder, hholder, -⟩
    rw [(h.inverse _ _).mp hholder] at hsrc
    cases hsrc
  | @own outChannel old assignment hout hown =>
    have hheld := get_held_eq_some hout
    rw [← hown] at hheld
    obtain ⟨hone, hnot⟩ := h.assign_own hheld
    exact iff_of_true hone hnot
  | @handOver old pending assignment holder hholder hsame =>
    have hheld := get_held_eq_some hholder
    rw [← hsame] at hheld
    by_cases heq : holder = pending
    · -- the pending channel is the one that has it already
      subst heq
      obtain ⟨hone, hnot⟩ := h.assign_own hheld
      exact iff_of_true hone hnot
    · have hover : m.HandsOver (.assign pending assignment) := ⟨holder, hheld, heq⟩
      exact iff_of_false (not_oneToOne_of_handsOver hover) (not_not.mpr hover)
  | giveBack holder hholder hsame =>
    subst hsame
    exact iff_of_true (h.unassign (get_held_eq_some hholder)) not_false

end AssignmentMap

open AssignmentMap

/-- **Assignments are one to one** after every part of a sequence of updates exactly when none of
    them hands the source channel of an outgoing channel over to another one. -/
theorem assignments_one_to_one_iff {maxChannels : ℕ+} {calls : List (Call Time)}
    (h : EachCall apply Issued (new maxChannels) calls) :
    (∀ front, front <+: calls → (front.foldl apply (new maxChannels)).OneToOne) ↔
      EachCall apply (fun m c => ¬ m.HandsOver c) (new maxChannels) calls :=
  EachCall.keeps_iff Issued.oneToOne_iff (.new maxChannels) h

/-- The outgoing channel 0 gets the source channel 0, keeps it for another poll and gives it
    back. -/
theorem assignments_one_to_one_own :
    (([.assign 0 ⟨.normal, 0, 0⟩, .assign 0 ⟨.normal, 5, 0⟩, .unassign 0] : List (Call ℕ)).foldl
      apply (new 1)).OneToOne := by
  have hissued : EachCall apply Issued (new 1 : AssignmentMap ℕ)
      [.assign 0 ⟨.normal, 0, 0⟩, .assign 0 ⟨.normal, 5, 0⟩, .unassign 0] :=
    ⟨.free rfl rfl, .own rfl rfl, .giveBack 0 rfl rfl, trivial⟩
  refine (assignments_one_to_one_iff hissued).mpr ⟨?_, ?_, not_false, trivial⟩ _ List.prefix_rfl
  · rintro ⟨holder, hholder, -⟩
    cases hholder
  · rintro ⟨holder, hholder, hne⟩
    rw [apply, get_held_assign, OrdMap.get_insert, if_neg hne] at hholder
    cases hholder

/-- The outgoing channel 0 gets the only source channel.  It is handed over to the outgoing channel
    1, and both have it. -/
theorem assignments_one_to_one_fails :
    EachCall apply Issued (new 1 : AssignmentMap ℕ)
        [.assign 0 ⟨.normal, 0, 0⟩, .assign 1 ⟨.normal, 5, 0⟩] ∧
      ¬ (([.assign 0 ⟨.normal, 0, 0⟩, .assign 1 ⟨.normal, 5, 0⟩] : List (Call ℕ)).foldl
        apply (new 1)).OneToOne := by
  refine ⟨⟨.free rfl rfl, .handOver 0 rfl rfl, trivial⟩, ?_⟩
  intro h
  exact absurd (h.held_once 0 1 0 rfl rfl) Nat.zero_ne_one

end Cozal.Multiplex
