import Cozal.Multiplex.AssignmentMap
import Cozal.Util.StackWaker

namespace Cozal

open Util (Waker)

/-!
# The polls of a multiplex

A poll on an outgoing channel is forwarded to the source on the source channel that it is assigned,
or on a free one, or waits in a queue for one to become free.

* `Multiplex.pollInternal` — a poll, with all that it reads and changes.
* `Multiplex.pollInternal_issues` — it makes at most one update of the assignments, and that one is
  `AssignmentMap.Issued`.
* `Multiplex.openChannel_eq_none` — no source channel is ever found to be free, since one that no
  outgoing channel has is said to be assigned.
* `Multiplex.usesFreeChannel_iff`, `Multiplex.free_channel_never_used` — so a poll without an
  assignment waits, whatever is free; and no outgoing channel ever gets an assignment.
-/

variable {Time R : Type}

namespace Multiplex

/-- `core::task::Poll`, as the reply of a source. -/
inductive Poll (R : Type) where
  | ready (value : R)
  | pending
deriving DecidableEq, Repr

/-- The channel of a poll, and the wakers for it and for all channels. -/
structure SourceContext where
  channel : ℕ
  oneChannelWaker : Waker
  allChannelWaker : Waker
deriving DecidableEq, Repr

/-- The same context for another channel. -/
def SourceContext.changeChannel (cx : SourceContext) (newChannel : ℕ) : SourceContext :=
  { cx with channel := newChannel }

/-! ### The affinities -/

/-- The source channel that each outgoing channel was last given. -/
structure AffinityMap where
  maxSrcChannels : ℕ+
  outputChannels : OrdMap ℕ ℕ

namespace AffinityMap

/-- No outgoing channel has been polled. -/
def new (maxChannels : ℕ+) : AffinityMap where
  maxSrcChannels := maxChannels
  outputChannels := .empty

/-- The source channel that an outgoing channel was last polled on, and else the one of the same
    number, if there is one. -/
def getAffiliatedSourceChannel (m : AffinityMap) (channel : ℕ) : Option ℕ :=
  match m.outputChannels.get channel with
  | some srcChannel => some srcChannel
  | none => if channel < m.maxSrcChannels then some channel else none

/-- An outgoing channel goes with the source channel of its own number by itself. -/
def setAffiliation (m : AffinityMap) (srcChannel outChannel : ℕ) : AffinityMap :=
  if srcChannel = outChannel then { m with outputChannels := m.outputChannels.remove outChannel }
  else { m with outputChannels := m.outputChannels.insert outChannel srcChannel }

end AffinityMap

/-! ### The queue of polls that wait -/

/-- A poll that waits for a source channel. -/
structure PendingPoll (Time : Type) where
  pollType : PollType
  outChannel : ℕ
  time : Time
  waker : Waker
deriving DecidableEq, Repr

/-- Give the poll a source channel; its waker is to be woken. -/
def PendingPoll.assignToChannel (pending : PendingPoll Time) (assignments : AssignmentMap Time)
    (sourceChannel : ℕ) : AssignmentMap Time :=
  assignments.assign pending.outChannel ⟨pending.pollType, pending.time, sourceChannel⟩

/-- Put a poll into the queue, in the place of one of the same outgoing channel. -/
def enqueue (newPending : PendingPoll Time) : List (PendingPoll Time) → List (PendingPoll Time)
  | [] => [newPending]
  | pending :: rest =>
      if pending.outChannel = newPending.outChannel then newPending :: rest
      else pending :: enqueue newPending rest

/-- A poll that is enqueued is in the queue. -/
theorem mem_enqueue (newPending : PendingPoll Time) (queue : List (PendingPoll Time)) :
    newPending ∈ enqueue newPending queue := by
  induction queue with
  | nil => exact List.mem_singleton.mpr rfl
  | cons pending rest ih =>
    unfold enqueue
    split
    · exact List.mem_cons_self
    · exact List.mem_cons_of_mem _ ih

/-! ### A poll -/

end Multiplex

/-- A multiplex, without the source it polls. -/
structure Multiplex (Time : Type) where
  assignedChannels : Multiplex.AssignmentMap Time
  channelAffinity : Multiplex.AffinityMap
  pendingChannels : List (Multiplex.PendingPoll Time)

namespace Multiplex

/-- What a poll does: the result, the context the source was polled with if it was, who is woken,
    and the multiplex afterwards. -/
structure Polled (Time R : Type) where
  result : Poll R
  forwarded : Option SourceContext
  woken : List Waker
  multiplex : Multiplex Time

/-- No channel is assigned, and no poll is pending. -/
def new (maxChannels : ℕ+) : Multiplex Time where
  assignedChannels := .new maxChannels
  channelAffinity := .new maxChannels
  pendingChannels := []

/-- A poll with the type and the time of the assignment: it is forwarded.  Once it is ready, the
    source channel goes to the next poll of the queue. -/
def pollFullMatch (this : Multiplex Time) (assignment : Assignment Time) (cx : SourceContext)
    (pollFn : SourceContext → Poll R) : Polled Time R :=
  let cx := cx.changeChannel assignment.sourceChannel
  match pollFn cx with
  | .pending => { result := .pending, forwarded := some cx, woken := [], multiplex := this }
  | .ready value =>
      match this.pendingChannels with
      | pending :: rest =>
          { result := .ready value
            forwarded := some cx
            woken := [pending.waker]
            multiplex := { this with
              assignedChannels := this.assignedChannels.assign pending.outChannel
                ⟨pending.pollType, pending.time, assignment.sourceChannel⟩
              pendingChannels := rest } }
      | [] =>
          { result := .ready value
            forwarded := some cx
            woken := []
            multiplex := { this with
              assignedChannels := this.assignedChannels.unassign assignment.sourceChannel } }

/-- A poll with another type or time: it is only forwarded when no poll waits, else the source
    channel goes to that one. -/
def pollPartialMatch (this : Multiplex Time) (assignment : Assignment Time)
    (newPending : PendingPoll Time) (cx : SourceContext) (pollFn : SourceContext → Poll R) :
    Polled Time R :=
  match this.pendingChannels with
  | pending :: rest =>
      { result := .pending
        forwarded := none
        woken := [pending.waker]
        multiplex := { this with
          assignedChannels :=
            pending.assignToChannel this.assignedChannels assignment.sourceChannel
          pendingChannels := rest ++ [newPending] } }
  | [] =>
      let cx' := cx.changeChannel assignment.sourceChannel
      match pollFn cx' with
      | .pending =>
          { result := .pending
            forwarded := some cx'
            woken := []
            multiplex := { this with
              assignedChannels := this.assignedChannels.assign cx.channel
                ⟨newPending.pollType, newPending.time, assignment.sourceChannel⟩ } }
      | .ready value =>
          { result := .ready value, forwarded := some cx', woken := [], multiplex := this }

/-- The source channel for a poll without an assignment, and whether it is the affiliated one: that
    one if it is open, or any open one. -/
def openChannel (this : Multiplex Time) (outChannel : ℕ) : Option (ℕ × Bool) :=
  let affiliated :=
    match this.channelAffinity.getAffiliatedSourceChannel outChannel with
    | some affinity =>
        if (this.assignedChannels.getAssignedOutputChannel affinity).isNone then some affinity
        else none
    | none => none
  match affiliated with
  | some channel => some (channel, true)
  | none => this.assignedChannels.getUnassignedSourceChannel.map fun channel => (channel, false)

/-- A poll without an assignment: it is forwarded on an open source channel, or waits. -/
def pollUnassigned (this : Multiplex Time) (newPending : PendingPoll Time) (cx : SourceContext)
    (pollFn : SourceContext → Poll R) : Polled Time R :=
  match this.openChannel cx.channel with
  | some (sourceChannel, alreadyAffiliated) =>
      let channelAffinity :=
        if alreadyAffiliated then this.channelAffinity
        else this.channelAffinity.setAffiliation sourceChannel cx.channel
      let cx' := cx.changeChannel sourceChannel
      match pollFn cx' with
      | .pending =>
          { result := .pending
            forwarded := some cx'
            woken := []
            multiplex := { this with
              channelAffinity
              assignedChannels := this.assignedChannels.assign cx.channel
                ⟨newPending.pollType, newPending.time, sourceChannel⟩ } }
      | .ready value =>
          { result := .ready value
            forwarded := some cx'
            woken := []
            multiplex := { this with channelAffinity } }
  | none =>
      { result := .pending
        forwarded := none
        woken := []
        multiplex := { this with
          pendingChannels := enqueue newPending this.pendingChannels } }

section Time

variable [DecidableEq Time]

/-- A poll on the channel of the context, with `pollFn` as what the source replies to it. -/
def pollInternal (this : Multiplex Time) (pollTime : Time) (cx : SourceContext)
    (pollFn : Time → SourceContext → Poll R) (pollType : PollType) : Polled Time R :=
  let newPending : PendingPoll Time := ⟨pollType, cx.channel, pollTime, cx.oneChannelWaker⟩
  match this.assignedChannels.getAssignedSourceChannel cx.channel with
  | some assignment =>
      if assignment.pollType = pollType ∧ assignment.time = pollTime then
        this.pollFullMatch assignment cx (pollFn pollTime)
      else this.pollPartialMatch assignment newPending cx (pollFn pollTime)
  | none => this.pollUnassigned newPending cx (pollFn pollTime)

end Time

/-! ### What a poll does to the assignments -/

variable {this : Multiplex Time}

/-- The assignments are left as they are, or one update that a poll issues is made. -/
def IssuesOne (before after : AssignmentMap Time) : Prop :=
  after = before ∨ ∃ c, before.Issued c ∧ after = before.apply c

/-- A poll of the same kind and time as the assignment issues an update of the assigned source
    channel, or none. -/
theorem pollFullMatch_issues {assignment : Assignment Time} {cx : SourceContext}
    {pollFn : SourceContext → Poll R}
    (h : this.assignedChannels.getAssignedSourceChannel cx.channel = some assignment) :
    IssuesOne this.assignedChannels
      (this.pollFullMatch assignment cx pollFn).multiplex.assignedChannels := by
  unfold pollFullMatch
  dsimp only
  cases pollFn (cx.changeChannel assignment.sourceChannel) with
  | pending => exact Or.inl rfl
  | ready value =>
    cases this.pendingChannels with
    | nil => exact Or.inr ⟨.unassign _, .giveBack cx.channel h rfl, rfl⟩
    | cons pending rest =>
      exact Or.inr ⟨.assign pending.outChannel
        ⟨pending.pollType, pending.time, assignment.sourceChannel⟩, .handOver cx.channel h rfl, rfl⟩

/-- A poll of another kind or time does so, too. -/
theorem pollPartialMatch_issues {assignment : Assignment Time} {newPending : PendingPoll Time}
    {cx : SourceContext} {pollFn : SourceContext → Poll R}
    (h : this.assignedChannels.getAssignedSourceChannel cx.channel = some assignment) :
    IssuesOne this.assignedChannels
      (this.pollPartialMatch assignment newPending cx pollFn).multiplex.assignedChannels := by
  unfold pollPartialMatch
  cases this.pendingChannels with
  | cons pending rest =>
    exact Or.inr ⟨.assign pending.outChannel
      ⟨pending.pollType, pending.time, assignment.sourceChannel⟩, .handOver cx.channel h rfl, rfl⟩
  | nil =>
    dsimp only
    cases pollFn (cx.changeChannel assignment.sourceChannel) with
    | pending =>
      exact Or.inr ⟨.assign cx.channel
        ⟨newPending.pollType, newPending.time, assignment.sourceChannel⟩, .own h rfl, rfl⟩
    | ready value => exact Or.inl rfl

end Multiplex

/-! ### No source channel is found to be free -/

namespace Multiplex.AssignmentMap

variable (m : AssignmentMap Time)

/-- Every source channel is said to be assigned. -/
theorem getAssignedOutputChannel_isSome (channel : ℕ) :
    (m.getAssignedOutputChannel channel).isSome = true := by
  unfold getAssignedOutputChannel
  split
  · rfl
  · rfl

/-- So the search for a source channel that is not assigned goes through all of them in vain. -/
theorem getUnassignedSourceChannel_eq_none : m.getUnassignedSourceChannel = none := by
  have hsearch : ∀ remaining channel, m.searchUnassigned remaining channel = none := by
    intro remaining
    induction remaining with
    | zero => exact fun _ => rfl
    | succ remaining ih =>
      intro channel
      rw [searchUnassigned, if_pos (m.getAssignedOutputChannel_isSome channel)]
      exact ih (channel + 1)
  exact hsearch m.maxSrcChannels 0

end Multiplex.AssignmentMap

namespace Multiplex

/-- Neither the affiliated source channel nor any other one is open. -/
theorem openChannel_eq_none (this : Multiplex Time) (outChannel : ℕ) :
    this.openChannel outChannel = none := by
  have hclosed : ∀ channel,
      (this.assignedChannels.getAssignedOutputChannel channel).isNone = false := by
    intro channel
    rw [Option.isNone_eq_false_iff]
    exact this.assignedChannels.getAssignedOutputChannel_isSome channel
  unfold openChannel
  rw [this.assignedChannels.getUnassignedSourceChannel_eq_none]
  cases this.channelAffinity.getAffiliatedSourceChannel outChannel with
  | none => rfl
  | some affinity => simp only [hclosed, Bool.false_eq_true, if_false, Option.map_none]

/-- A poll without an assignment waits. -/
theorem pollUnassigned_eq (this : Multiplex Time) (newPending : PendingPoll Time)
    (cx : SourceContext) (pollFn : SourceContext → Poll R) :
    this.pollUnassigned newPending cx pollFn =
      { result := .pending
        forwarded := none
        woken := []
        multiplex := { this with
          pendingChannels := enqueue newPending this.pendingChannels } } := by
  unfold pollUnassigned
  rw [this.openChannel_eq_none]

variable [DecidableEq Time]

/-- **A poll makes at most one update of the assignments**, and it is one of those named. -/
theorem pollInternal_issues (this : Multiplex Time) (pollTime : Time) (cx : SourceContext)
    (pollFn : Time → SourceContext → Poll R) (pollType : PollType) :
    IssuesOne this.assignedChannels
      (this.pollInternal pollTime cx pollFn pollType).multiplex.assignedChannels := by
  unfold pollInternal
  cases hget : this.assignedChannels.getAssignedSourceChannel cx.channel with
  | some assignment =>
    dsimp only
    split
    · exact pollFullMatch_issues hget
    · exact pollPartialMatch_issues hget
  | none =>
    dsimp only
    rw [pollUnassigned_eq]
    exact Or.inl rfl

/-! ### Whether a free source channel is used -/

/-- The poll that is put into the queue when it has to wait. -/
def pendingPoll (pollTime : Time) (cx : SourceContext) (pollType : PollType) : PendingPoll Time :=
  ⟨pollType, cx.channel, pollTime, cx.oneChannelWaker⟩

/-- All source channels are assigned. -/
def AllAssigned (this : Multiplex Time) : Prop :=
  ∀ channel < (this.assignedChannels.maxSrcChannels : ℕ),
    ∃ outChannel, this.assignedChannels.sourceChannels.get channel = some outChannel

/-- A poll without an assignment is forwarded, on a source channel that no other outgoing channel
    has, when fewer source channels are assigned than there are; it is put into the queue only
    when all of them are. -/
def UsesFreeChannel (this : Multiplex Time) (pollTime : Time) (cx : SourceContext)
    (pollFn : Time → SourceContext → Poll R) (pollType : PollType) : Prop :=
  this.assignedChannels.getAssignedSourceChannel cx.channel = none →
    let polled := this.pollInternal pollTime cx pollFn pollType
    (this.assignedChannels.sourceChannels.entries.length < this.assignedChannels.maxSrcChannels →
      ∃ cx', polled.forwarded = some cx' ∧
        ∀ outChannel, this.assignedChannels.sourceChannels.get cx'.channel = some outChannel →
          outChannel = cx.channel) ∧
    (pendingPoll pollTime cx pollType ∈ polled.multiplex.pendingChannels →
      polled.forwarded = none → this.AllAssigned)

/-- A poll without an assignment waits in the queue, and nothing else changes. -/
theorem pollInternal_of_none {this : Multiplex Time} (pollTime : Time) {cx : SourceContext}
    (pollFn : Time → SourceContext → Poll R) (pollType : PollType)
    (h : this.assignedChannels.getAssignedSourceChannel cx.channel = none) :
    this.pollInternal pollTime cx pollFn pollType =
      { result := .pending
        forwarded := none
        woken := []
        multiplex := { this with
          pendingChannels :=
            enqueue (pendingPoll pollTime cx pollType) this.pendingChannels } } := by
  unfold pollInternal
  rw [h]
  exact this.pollUnassigned_eq _ cx _

/-- **A free source channel is used** by a poll exactly when the poll needs none, because it has an
    assignment, or there is none. -/
theorem usesFreeChannel_iff (this : Multiplex Time) (pollTime : Time) (cx : SourceContext)
    (pollFn : Time → SourceContext → Poll R) (pollType : PollType) :
    this.UsesFreeChannel pollTime cx pollFn pollType ↔
      this.assignedChannels.getAssignedSourceChannel cx.channel ≠ none ∨
        this.assignedChannels.maxSrcChannels ≤ this.assignedChannels.sourceChannels.entries.length ∧
          this.AllAssigned := by
  unfold UsesFreeChannel
  by_cases hnone : this.assignedChannels.getAssignedSourceChannel cx.channel = none
  · rw [pollInternal_of_none pollTime pollFn pollType hnone, imp_iff_right hnone,
      or_iff_right (not_not.mpr hnone)]
    constructor
    · rintro ⟨hforwards, hwaits⟩
      refine ⟨?_, hwaits (mem_enqueue _ _) rfl⟩
      by_contra hfew
      obtain ⟨cx', hcx', -⟩ := hforwards (not_le.mp hfew)
      cases hcx'
    · rintro ⟨hmany, hall⟩
      exact ⟨fun hfew => absurd hmany (not_le.mpr hfew), fun _ _ => hall⟩
  · exact iff_of_true (fun h => absurd h hnone) (Or.inl hnone)

/-- The states that polls lead to, on any channels and at any times, whatever the source replies. -/
inductive Reachable (maxChannels : ℕ+) : Multiplex Time → Prop where
  | new : Reachable maxChannels (.new maxChannels)
  | poll {this} {R : Type} (pollTime : Time) (cx : SourceContext)
      (pollFn : Time → SourceContext → Poll R) (pollType : PollType) :
      Reachable maxChannels this →
      Reachable maxChannels (this.pollInternal pollTime cx pollFn pollType).multiplex

/-- No outgoing channel ever gets an assignment. -/
theorem Reachable.assignedChannels {maxChannels : ℕ+} {this : Multiplex Time}
    (h : Reachable maxChannels this) : this.assignedChannels = .new maxChannels := by
  induction h with
  | new => rfl
  | poll pollTime cx pollFn pollType _ ih =>
    rw [pollInternal_of_none pollTime pollFn pollType (by rw [ih]; rfl)]
    exact ih

/-- **A free source channel is never used.**  In every state that polls lead to there is one, and
    no poll is forwarded on it. -/
theorem free_channel_never_used {maxChannels : ℕ+} {this : Multiplex Time}
    (h : Reachable maxChannels this) (pollTime : Time) (cx : SourceContext)
    (pollFn : Time → SourceContext → Poll R) (pollType : PollType) :
    ¬ this.UsesFreeChannel pollTime cx pollFn pollType := by
  rw [usesFreeChannel_iff, h.assignedChannels]
  rintro (hsome | ⟨hmany, -⟩)
  · exact hsome rfl
  · exact absurd hmany (not_le.mpr maxChannels.pos)

/-- Two polls on different channels wait for the two source channels, and so does a third one. -/
theorem free_channel_never_used_third :
    ¬ (((new 2 : Multiplex ℕ).pollInternal 0 ⟨0, ⟨0, 0⟩, ⟨0, 0⟩⟩
        (fun _ _ => (.pending : Poll ℕ)) .normal).multiplex.pollInternal 0 ⟨1, ⟨0, 0⟩, ⟨0, 0⟩⟩
        (fun _ _ => (.pending : Poll ℕ)) .normal).multiplex.UsesFreeChannel 0 ⟨5, ⟨0, 0⟩, ⟨0, 0⟩⟩
        (fun _ _ => (.ready 7 : Poll ℕ)) .normal :=
  free_channel_never_used (.poll 0 _ _ .normal (.poll 0 _ _ .normal .new)) 0 _ _ .normal

/-- The first poll of all, on the channel 0, waits although no source channel is assigned. -/
theorem free_channel_never_used_fails :
    ¬ ∀ this : Multiplex ℕ, Reachable 1 this →
      this.UsesFreeChannel 0 ⟨0, ⟨0, 0⟩, ⟨0, 0⟩⟩ (fun _ _ => (.ready 7 : Poll ℕ)) .normal := by
  intro h
  obtain ⟨cx, hcx, -⟩ := (h (new 1) .new rfl).1 Nat.zero_lt_one
  cases hcx

end Multiplex

end Cozal
