import Cozal.Duplicate.Original
import Cozal.Lib.Account

namespace Cozal.Duplicate

/-!
# What duplicates deliver

Every duplicate is to return what the source emits, an event unless the source rolls back to it or
before it first.  A ledger holds an account of each duplicate; it says nothing of queues.

* `RollbackEvent.Cancels` — a rollback cancels the events from its time on.
* `Ledger.Records` — what a poll of a duplicate does to the accounts.
* `Matches` — the queue of each duplicate holds what the duplicate is owed.
* `KeptApart` — what the source emits does not compare equal to what another duplicate has not
  delivered, and it does not roll back to a stored finalize or before it.
* `Matches.emit_iff` — after an emission the queues hold what is owed exactly when it is kept
  apart from what is stored.
* `duplicates_deliver` — in a run of such polls each poll can be recorded, so that the queues keep
  holding what is owed.
-/

variable {Time Event State Error : Type} [LinearOrder Time]

namespace RollbackEvent

/-- A rollback cancels the events from its time on. -/
def Cancels : RollbackEvent Time Event → RollbackEvent Time Event → Prop
  | rollback t, event s _ => t ≤ s
  | _, _ => False

/-- What a rollback cancels is decided by comparing the times. -/
instance : DecidableRel (Cancels : RollbackEvent Time Event → RollbackEvent Time Event → Prop)
  | rollback t, event s _ => inferInstanceAs (Decidable (t ≤ s))
  | rollback _, rollback _ => isFalse id
  | rollback _, finalize _ => isFalse id
  | rollback _, search _ => isFalse id
  | event _ _, _ => isFalse id
  | finalize _, _ => isFalse id
  | search _, _ => isFalse id

/-- What the source emits: everything but `search`. -/
def Emittable : RollbackEvent Time Event → Prop
  | search _ => False
  | _ => True

end RollbackEvent

/-- What is emitted with an answer. -/
def SourcePoll.emission : SourcePoll Time Event State Error → Option (RollbackEvent Time Event)
  | .ok (.event e t) => some (.event t e)
  | .ok (.rollback t) => some (.rollback t)
  | .ok (.finalize t) => some (.finalize t)
  | _ => none

/-! ### The ledger -/

/-- The account of a duplicate. -/
abbrev DuplicateAccount (Time Event : Type) [LinearOrder Time] :=
  Account (RollbackEvent.Cancels : RollbackEvent Time Event → RollbackEvent Time Event → Prop)

/-- The accounts of the duplicates. -/
abbrev Ledger (Time Event : Type) [LinearOrder Time] := OrdMap ℕ (DuplicateAccount Time Event)

namespace Ledger

/-- The source emits an item to a duplicate, which receives it at once; the others are owed it. -/
def emit (l : Ledger Time Event) (index : ℕ) (item : RollbackEvent Time Event) :
    Ledger Time Event :=
  l.mapValues (fun i a => if i = index then a.take item else a.emit item)

/-- What a poll of a duplicate does to the accounts.  One that does not poll the source returns
    what the duplicate is owed; one that does returns what the source emits, if it emits
    anything. -/
inductive Records (l : Ledger Time Event) (index : ℕ)
    (sourcePoll result : SourcePoll Time Event State Error) :
    (polled : Bool) → Ledger Time Event → Prop
  | delivered {item : RollbackEvent Time Event} {rest : List (RollbackEvent Time Event)}
      {a : DuplicateAccount Time Event} (hget : l.get index = some a)
      (howed : a.owed.Perm (item :: rest)) (hresult : result.emission = some item) :
      Records l index sourcePoll result false (l.insert index (a.deliver item rest howed))
  | emitted {item : RollbackEvent Time Event} (hsource : sourcePoll.emission = some item)
      (hresult : result.emission = some item) :
      Records l index sourcePoll result true (l.emit index item)
  | quiet (hsource : sourcePoll.emission = none) (hresult : result.emission = none) :
      Records l index sourcePoll result true l

end Ledger

/-! ### Runs -/

/-- Whether a duplicate with this queue polls the source. -/
def Events.pollsSource (events : Events Time Event) (pollTime : Time) : Bool :=
  match events.first with
  | some item => ¬ item.DueAt pollTime
  | none => true

/-- The item does not compare equal to one that another duplicate has not delivered, and it is no
    rollback to the time of a stored finalize or before it. -/
def KeptApart (o : Original Time Event) (index : ℕ) (item : RollbackEvent Time Event) : Prop :=
  (∀ j events, j ≠ index → o.queue j = some events → ∀ stored ∈ events.items,
    item.cmp stored ≠ .eq) ∧
  ∀ t, item = .rollback t → ∀ j events s, o.queue j = some events →
    .finalize s ∈ events.items → s < t

/-- What the source emits when a duplicate polls it is kept apart from what is stored. -/
def Unmerged (o : Original Time Event) (index : ℕ) (pollTime : Time)
    (emission : Option (RollbackEvent Time Event)) : Prop :=
  ∀ events item, o.queue index = some events → events.pollsSource pollTime → emission = some item →
    KeptApart o index item

/-- A condition on the polls of duplicates: what is emitted at a poll of a duplicate at a time, if
    the source is polled and emits anything. -/
abbrev PollCondition (Time Event : Type) [LinearOrder Time] :=
  Original Time Event → ℕ → Time → Option (RollbackEvent Time Event) → Prop

/-- The states that duplicates reach when they are created, dropped and polled in any order, when
    each poll meets the condition, with the accounts of the duplicates. -/
inductive Reached (meets : PollCondition Time Event) :
    Original Time Event → Ledger Time Event → Prop
  | new : Reached meets .new .empty
  | register {o : Original Time Event} {l : Ledger Time Event} (h : Reached meets o l) :
      Reached meets (DuplicateInner.fromOriginal o).2
        (l.insert (DuplicateInner.fromOriginal o).1 .new)
  | drop {o : Original Time Event} {l : Ledger Time Event} {index : ℕ} {events : Events Time Event}
      (h : Reached meets o l) (hlive : o.queue index = some events) :
      Reached meets (o.drop index) (l.remove index)
  | poll {State Error : Type} {o o' : Original Time Event} {l l' : Ledger Time Event} {index : ℕ}
      {events : Events Time Event} {pollTime : Time}
      {sourcePoll result : SourcePoll Time Event State Error} (h : Reached meets o l)
      (hlive : o.queue index = some events) (hmeets : meets o index pollTime sourcePoll.emission)
      (hpoll : DuplicateInner.poll o index pollTime sourcePoll = .ok (result, o'))
      (hrecords : l.Records index sourcePoll result (events.pollsSource pollTime) l') :
      Reached meets o' l'

/-- The queue of each duplicate holds what the duplicate is owed. -/
structure Matches (o : Original Time Event) (l : Ledger Time Event) : Prop where
  owes : ∀ index a, l.get index = some a →
    ∃ events, o.queue index = some events ∧ a.owed.Perm events.items
  live : ∀ index events, o.queue index = some events → ∃ a, l.get index = some a
  emittable : ∀ index a, l.get index = some a → ∀ item ∈ a.emitted, item.Emittable

/-! ### What a poll returns -/

variable {o : Original Time Event} {l : Ledger Time Event} {index : ℕ}
  {events : Events Time Event} {pollTime : Time} {item : RollbackEvent Time Event}

omit [LinearOrder Time] in
/-- What a poll of the source emits is no item for searching. -/
theorem SourcePoll.emission_emittable {sourcePoll : SourcePoll Time Event State Error}
    (h : sourcePoll.emission = some item) : item.Emittable := by
  cases sourcePoll with
  | pending => cases h
  | error e => cases h
  | ok r => cases r <;> cases h <;> trivial

omit [LinearOrder Time] in
/-- What is stored for an item that was emitted is returned as that emission. -/
theorem RollbackEvent.into_emission (h : item.Emittable) :
    ∃ r : SourcePollOk Time Event State, item.into = .ok r ∧
      (.ok r : SourcePoll Time Event State Error).emission = some item := by
  cases item with
  | event t e => exact ⟨_, rfl, rfl⟩
  | rollback t => exact ⟨_, rfl, rfl⟩
  | finalize t => exact ⟨_, rfl, rfl⟩
  | search t => exact absurd h id

/-- Only the time of a state is adjusted. -/
theorem Events.emission_adjust (events : Events Time Event)
    (sourcePoll : SourcePoll Time Event State Error) :
    (events.adjust sourcePoll).emission = sourcePoll.emission := by
  unfold adjust
  split <;> first | rfl | (split <;> rfl)

/-- A duplicate polls the source when its queue does not start with an item that is due. -/
theorem Events.pollsSource_iff :
    events.pollsSource pollTime = true ↔
      ∀ item, events.first = some item → ¬ item.DueAt pollTime := by
  unfold pollsSource
  cases events.first <;> simp

/-- A duplicate returns a first item that is due. -/
theorem DuplicateInner.poll_first (hqueue : o.queue index = some events) {rest : Events Time Event}
    (hitems : events.items = item :: rest.items) (hdue : item.DueAt pollTime)
    (hemittable : item.Emittable) (sourcePoll : SourcePoll Time Event State Error) :
    ∃ result, DuplicateInner.poll o index pollTime sourcePoll =
      .ok (result, ⟨o.children.insert index (some rest)⟩) ∧ result.emission = some item := by
  obtain ⟨r, hinto, hemission⟩ := @RollbackEvent.into_emission _ _ State Error _ hemittable
  refine ⟨.ok r, ?_, hemission⟩
  rw [DuplicateInner.poll_stored hqueue hitems hdue, hinto]
  rfl

/-- A duplicate that does not poll the source has a first item that is due. -/
theorem Events.first_due (hpolls : events.pollsSource pollTime = false) :
    ∃ item, ∃ rest : Events Time Event, events.items = item :: rest.items ∧
      item.DueAt pollTime := by
  rw [← Bool.not_eq_true, pollsSource_iff] at hpolls
  push Not at hpolls
  obtain ⟨item, hfirst, hdue⟩ := hpolls
  obtain ⟨rest, hitems⟩ := CmpSet.first_eq_some.mp hfirst
  exact ⟨item, rest, hitems, hdue⟩

/-! ### What an emission does to the queues -/

/-- A rollback empties the queue from its time on. -/
def Events.clear (events : Events Time Event) (item : RollbackEvent Time Event) :
    Events Time Event :=
  match item with
  | .rollback t => events.handleRollback t
  | _ => events

/-- The poll of one duplicate cancels in every queue, and stores the item in those of the others. -/
theorem Original.queue_poll {sourcePoll : SourcePoll Time Event State Error}
    (h : sourcePoll.emission = some item) (j : ℕ) :
    (o.poll sourcePoll index).2.queue j = (o.queue j).map (fun events =>
      if j = index then events.clear item else (events.clear item).insert item) := by
  cases sourcePoll with
  | pending => cases h
  | error e => cases h
  | ok r =>
    cases r <;> cases h <;> cases hj : o.queue j <;>
      simp [Original.poll, Original.distributeEvent, Events.clear, hj]

/-- A poll that emits nothing leaves the queues alone. -/
theorem Original.poll_quiet {sourcePoll : SourcePoll Time Event State Error}
    (h : sourcePoll.emission = none) : (o.poll sourcePoll index).2 = o := by
  cases sourcePoll with
  | pending => rfl
  | error e => rfl
  | ok r => cases r <;> first | rfl | cases h

/-- What is left after a rollback was there before it. -/
theorem Events.mem_clear {stored : RollbackEvent Time Event}
    (h : stored ∈ (events.clear item).items) : stored ∈ events.items := by
  unfold clear at h
  split at h
  · exact (Events.mem_handleRollback.mp h).1
  · exact h

/-- Where no stored finalize is at the time of a rollback or after it, the rollback throws away what
    it cancels. -/
theorem Events.clear_perm {a : DuplicateAccount Time Event} (howed : a.owed.Perm events.items)
    (hemittable : ∀ stored ∈ events.items, stored.Emittable)
    (hfinalize : ∀ t, item = .rollback t → ∀ s, .finalize s ∈ events.items → s < t) :
    (a.kept item).Perm (events.clear item).items := by
  have hkept : (a.kept item).Perm
      (events.items.filter (fun other => ¬ item.Cancels other)) := howed.filter _
  refine hkept.trans (List.Perm.of_eq ?_)
  cases item with
  | rollback t =>
    refine List.filter_congr ?_
    intro stored hmem
    rw [decide_eq_decide, RollbackEvent.cmp_search, not_iff_not]
    cases stored with
    | event s e => rfl
    | rollback s => rfl
    | finalize s => exact iff_of_false id (not_le.mpr (hfinalize t rfl s hmem))
    | search s => exact absurd (hemittable _ hmem) id
  | event t e => exact List.filter_eq_self.mpr (fun _ _ => rfl)
  | finalize t => exact List.filter_eq_self.mpr (fun _ _ => rfl)
  | search t => exact List.filter_eq_self.mpr (fun _ _ => rfl)

/-- In any case a rollback throws away what it cancels. -/
theorem Events.length_clear_le {a : DuplicateAccount Time Event}
    (howed : a.owed.Perm events.items) (item : RollbackEvent Time Event) :
    (events.clear item).items.length ≤ (a.kept item).length := by
  have hkept : (a.kept item).length =
      (events.items.filter (fun other => ¬ item.Cancels other)).length :=
    (howed.filter _).length_eq
  rw [hkept]
  cases item with
  | rollback t =>
    show (events.items.filter _).length ≤ _
    rw [← List.countP_eq_length_filter, ← List.countP_eq_length_filter]
    apply List.countP_mono_left
    intro stored _ hstays
    rw [decide_eq_true_eq, RollbackEvent.cmp_search] at hstays
    rw [decide_eq_true_eq]
    intro hcancels
    cases stored with
    | event s e => exact hstays hcancels
    | rollback s => exact hcancels
    | finalize s => exact hcancels.elim
    | search s => exact hcancels.elim
  | event t e => exact (congrArg List.length (List.filter_eq_self.mpr (fun _ _ => rfl))).ge
  | finalize t => exact (congrArg List.length (List.filter_eq_self.mpr (fun _ _ => rfl))).ge
  | search t => exact (congrArg List.length (List.filter_eq_self.mpr (fun _ _ => rfl))).ge

/-- What compares equal to a rollback is a rollback, which stays. -/
theorem Events.mem_clear_of_eq {stored : RollbackEvent Time Event} (hmem : stored ∈ events.items)
    (heq : item.cmp stored = .eq) : stored ∈ (events.clear item).items := by
  cases item with
  | rollback t =>
    apply Events.mem_handleRollback.mpr
    cases stored with
    | rollback s => exact ⟨hmem, id⟩
    | event s e => cases heq
    | finalize s => cases heq
    | search s => cases heq
  | event t e => exact hmem
  | finalize t => exact hmem
  | search t => exact hmem

/-! ### The queues hold what is owed -/

namespace Matches

/-- Without a duplicate there is nothing to match. -/
theorem new : Matches (.new : Original Time Event) .empty :=
  ⟨nofun, nofun, nofun⟩

/-- A queue and an account of what is in it may be put in the place of those of a duplicate. -/
theorem insert (h : Matches o l) (index : ℕ) {a : DuplicateAccount Time Event}
    (howed : a.owed.Perm events.items) (hemittable : ∀ item ∈ a.emitted, item.Emittable) :
    Matches ⟨o.children.insert index (some events)⟩ (l.insert index a) := by
  refine ⟨?_, ?_, ?_⟩
  · intro j b hget
    rw [OrdMap.get_insert] at hget
    rw [Original.queue_insert]
    split at hget
    · rename_i heq
      cases hget
      exact ⟨events, if_pos heq, howed⟩
    · rename_i hne
      rw [if_neg hne]
      exact h.owes j b hget
  · intro j other hqueue
    rw [Original.queue_insert] at hqueue
    rw [OrdMap.get_insert]
    split at hqueue
    · rename_i heq
      exact ⟨a, if_pos heq⟩
    · rename_i hne
      rw [if_neg hne]
      exact h.live j other hqueue
  · intro j b hget
    rw [OrdMap.get_insert] at hget
    split at hget
    · cases hget
      exact hemittable
    · exact h.emittable j b hget

/-- A new duplicate is owed nothing, and its queue is empty. -/
theorem register (h : Matches o l) :
    Matches (DuplicateInner.fromOriginal o).2
      (l.insert (DuplicateInner.fromOriginal o).1 .new) :=
  h.insert o.getNextIndex (List.Perm.refl []) nofun

/-- A duplicate that is dropped has no account any more. -/
theorem drop (h : Matches o l) (index : ℕ) : Matches (o.drop index) (l.remove index) := by
  refine ⟨?_, ?_, ?_⟩
  · intro j a hget
    obtain ⟨hne, hget⟩ := OrdMap.get_remove_eq_some.mp hget
    rw [Original.drop, Original.queue_insert, if_neg hne]
    exact h.owes j a hget
  · intro j events hqueue
    rw [Original.drop, Original.queue_insert] at hqueue
    split at hqueue
    · cases hqueue
    · rename_i hne
      rw [OrdMap.get_remove, if_neg hne]
      exact h.live j events hqueue
  · intro j a hget
    exact h.emittable j a (OrdMap.get_remove_eq_some.mp hget).2

/-- What is owed was emitted by the source. -/
theorem emittable_queue (h : Matches o l) (hqueue : o.queue index = some events) :
    ∀ item ∈ events.items, item.Emittable := by
  intro item hmem
  obtain ⟨a, hget⟩ := h.live index events hqueue
  obtain ⟨events', hqueue', howed⟩ := h.owes index a hget
  cases hqueue.symm.trans hqueue'
  exact h.emittable index a hget item (a.mem_emitted (howed.mem_iff.mpr hmem))

/-- A duplicate that returns its first item is owed the others. -/
theorem deliver (h : Matches o l) {a : DuplicateAccount Time Event} (hget : l.get index = some a)
    (hqueue : o.queue index = some events) {rest : Events Time Event}
    (hitems : events.items = item :: rest.items) {left : List (RollbackEvent Time Event)}
    (howed : a.owed.Perm (item :: left)) :
    Matches ⟨o.children.insert index (some rest)⟩ (l.insert index (a.deliver item left howed)) := by
  obtain ⟨events', hqueue', hperm⟩ := h.owes index a hget
  cases hqueue.symm.trans hqueue'
  have hleft : left.Perm rest.items := (howed.symm.trans (hitems ▸ hperm)).cons_inv
  exact h.insert index hleft (h.emittable index a hget)

/-- What is emitted is owed to the others, when it is kept apart from what their queues hold. -/
theorem emit (h : Matches o l) {sourcePoll : SourcePoll Time Event State Error}
    (hsource : sourcePoll.emission = some item) (hapart : KeptApart o index item) :
    Matches (o.poll sourcePoll index).2 (l.emit index item) := by
  obtain ⟨hdistinct, hfinalize⟩ := hapart
  refine ⟨?_, ?_, ?_⟩
  · intro j b hb
    rw [Ledger.emit, OrdMap.get_mapValues, Option.map_eq_some_iff] at hb
    obtain ⟨a, hget, rfl⟩ := hb
    obtain ⟨events, hqueue, howed⟩ := h.owes j a hget
    have hkept : (a.kept item).Perm (events.clear item).items :=
      Events.clear_perm howed (h.emittable_queue hqueue)
        (fun t ht s hs => hfinalize t ht j events s hqueue hs)
    rw [Original.queue_poll hsource, hqueue, Option.map_some]
    by_cases hj : j = index
    · rw [if_pos hj, if_pos hj]
      exact ⟨_, rfl, hkept⟩
    · rw [if_neg hj, if_neg hj]
      refine ⟨_, rfl, ?_⟩
      have hinsert : ((events.clear item).insert item).items.Perm
          (item :: (events.clear item).items) :=
        CmpSet.insert_perm (fun stored hmem =>
          hdistinct j events hj hqueue stored (Events.mem_clear hmem))
      exact (List.perm_append_singleton item (a.kept item)).trans
        ((hkept.cons item).trans hinsert.symm)
  · intro j events' hqueue'
    rw [Original.queue_poll hsource, Option.map_eq_some_iff] at hqueue'
    obtain ⟨events, hqueue, -⟩ := hqueue'
    obtain ⟨a, hget⟩ := h.live j events hqueue
    rw [Ledger.emit, OrdMap.get_mapValues, hget]
    exact ⟨_, rfl⟩
  · intro j b hb other hmem
    rw [Ledger.emit, OrdMap.get_mapValues, Option.map_eq_some_iff] at hb
    obtain ⟨a, hget, rfl⟩ := hb
    have hmem : other ∈ a.emitted ++ [item] := by
      split at hmem
      · exact hmem
      · exact hmem
    rcases List.mem_append.mp hmem with hold | hnew
    · exact h.emittable j a hget other hold
    · rw [List.mem_singleton.mp hnew]
      exact SourcePoll.emission_emittable hsource

/-- What the queue of a duplicate holds after an emission that is recorded. -/
theorem owes_emit {sourcePoll : SourcePoll Time Event State Error}
    (hsource : sourcePoll.emission = some item)
    (h : Matches (o.poll sourcePoll index).2 (l.emit index item)) {j : ℕ}
    {a : DuplicateAccount Time Event} (hget : l.get j = some a) (hqueue : o.queue j = some events) :
    if j = index then (a.kept item).Perm (events.clear item).items
    else (a.kept item ++ [item]).Perm ((events.clear item).insert item).items := by
  have hget' : (l.emit index item).get j =
      some (if j = index then a.take item else a.emit item) := by
    rw [Ledger.emit, OrdMap.get_mapValues, hget, Option.map_some]
  obtain ⟨events', hqueue', howed⟩ := h.owes j _ hget'
  rw [Original.queue_poll hsource, hqueue, Option.map_some] at hqueue'
  cases hqueue'
  by_cases hj : j = index
  · rw [if_pos hj, if_pos hj] at howed
    rw [if_pos hj]
    exact howed
  · rw [if_neg hj, if_neg hj] at howed
    rw [if_neg hj]
    exact howed

/-- An item that is not kept apart is lost, or makes another be lost. -/
theorem keptApart_of_emit (h : Matches o l) {sourcePoll : SourcePoll Time Event State Error}
    (hsource : sourcePoll.emission = some item)
    (h' : Matches (o.poll sourcePoll index).2 (l.emit index item)) : KeptApart o index item := by
  constructor
  · intro j events hj hqueue stored hmem heq
    obtain ⟨a, hget⟩ := h.live j events hqueue
    obtain ⟨events₁, hqueue₁, howed⟩ := h.owes j a hget
    cases hqueue.symm.trans hqueue₁
    -- the queue does not grow, though the account does
    have howed' := owes_emit hsource h' hget hqueue
    rw [if_neg hj, CmpSet.insert_of_eq (Events.mem_clear_of_eq hmem heq) heq] at howed'
    have hlength := howed'.length_eq
    rw [List.length_append, List.length_singleton] at hlength
    have hle := Events.length_clear_le howed item
    omega
  · rintro t rfl j events s hqueue hmem
    by_contra hnot
    obtain ⟨a, hget⟩ := h.live j events hqueue
    obtain ⟨events₁, hqueue₁, howed⟩ := h.owes j a hget
    cases hqueue.symm.trans hqueue₁
    -- the finalize is owed still, though it is not stored any more
    have hkept : .finalize s ∈ a.kept (.rollback t) :=
      List.mem_filter.mpr ⟨howed.mem_iff.mpr hmem, decide_eq_true id⟩
    have howed' := owes_emit hsource h' hget hqueue
    have hstays : .finalize s ∈ (events.clear (.rollback t)).items := by
      split at howed'
      · exact howed'.mem_iff.mp hkept
      · have hmem' := howed'.mem_iff.mp (List.mem_append_left _ hkept)
        rcases CmpSet.mem_of_mem_insertItem hmem' with heq | hmem'
        · cases heq
        · exact hmem'
    exact (Events.mem_handleRollback.mp hstays).2 (not_lt.mp hnot)

/-- What is emitted is owed to the others exactly when it is kept apart from what is stored. -/
theorem emit_iff (h : Matches o l) {sourcePoll : SourcePoll Time Event State Error}
    (hsource : sourcePoll.emission = some item) :
    Matches (o.poll sourcePoll index).2 (l.emit index item) ↔ KeptApart o index item :=
  ⟨h.keptApart_of_emit hsource, h.emit hsource⟩

/-- A poll of a duplicate can be recorded. -/
theorem recorded (h : Matches o l) {a : DuplicateAccount Time Event} (hget : l.get index = some a)
    (hqueue : o.queue index = some events) (pollTime : Time)
    (sourcePoll : SourcePoll Time Event State Error) :
    ∃ result o' l', DuplicateInner.poll o index pollTime sourcePoll = .ok (result, o') ∧
      l.Records index sourcePoll result (events.pollsSource pollTime) l' := by
  cases hpolls : events.pollsSource pollTime with
  | false =>
    obtain ⟨item, rest, hitems, hdue⟩ := Events.first_due hpolls
    have hemittable := h.emittable_queue hqueue item (hitems ▸ List.mem_cons_self)
    obtain ⟨result, hpoll, hresult⟩ :=
      DuplicateInner.poll_first hqueue hitems hdue hemittable sourcePoll
    obtain ⟨events', hqueue', howed⟩ := h.owes index a hget
    cases hqueue.symm.trans hqueue'
    exact ⟨result, _, _, hpoll, .delivered hget (hitems ▸ howed) hresult⟩
  | true =>
    obtain ⟨events', -, hpoll⟩ :=
      DuplicateInner.poll_source hqueue (Events.pollsSource_iff.mp hpolls) sourcePoll
    have hresult := Events.emission_adjust events' sourcePoll
    cases hsource : sourcePoll.emission with
    | none => exact ⟨_, _, l, hpoll, .quiet hsource (hresult.trans hsource)⟩
    | some item => exact ⟨_, _, _, hpoll, .emitted hsource (hresult.trans hsource)⟩

/-- After a poll that meets the condition and is recorded, the queues hold what is owed. -/
theorem poll (h : Matches o l) (hqueue : o.queue index = some events)
    {sourcePoll result : SourcePoll Time Event State Error}
    (hmeets : Unmerged o index pollTime sourcePoll.emission) {o' : Original Time Event}
    {l' : Ledger Time Event}
    (hpoll : DuplicateInner.poll o index pollTime sourcePoll = .ok (result, o'))
    (hrecords : l.Records index sourcePoll result (events.pollsSource pollTime) l') :
    Matches o' l' := by
  cases hpolls : events.pollsSource pollTime with
  | false =>
    rw [hpolls] at hrecords
    obtain ⟨item, rest, hitems, hdue⟩ := Events.first_due hpolls
    have hemittable := h.emittable_queue hqueue item (hitems ▸ List.mem_cons_self)
    obtain ⟨result', hpoll', hresult'⟩ :=
      DuplicateInner.poll_first hqueue hitems hdue hemittable sourcePoll
    cases hpoll.symm.trans hpoll'
    cases hrecords with
    | delivered hget howed hresult =>
      cases hresult.symm.trans hresult'
      exact h.deliver hget hqueue hitems howed
  | true =>
    rw [hpolls] at hrecords
    obtain ⟨events', -, hpoll'⟩ :=
      DuplicateInner.poll_source hqueue (Events.pollsSource_iff.mp hpolls) sourcePoll
    cases hpoll.symm.trans hpoll'
    cases hrecords with
    | emitted hsource hresult =>
      exact h.emit hsource (hmeets events _ hqueue hpolls hsource)
    | quiet hsource hresult =>
      rw [Original.poll_quiet hsource]
      exact h

end Matches

/-- In every state reached by polls that keep items apart, the queues hold what is owed. -/
theorem Reached.holds (h : Reached Unmerged o l) : Matches o l := by
  induction h with
  | new => exact Matches.new
  | register h ih => exact ih.register
  | drop h hlive ih => exact ih.drop _
  | poll h hlive hmeets hpoll hrecords ih => exact ih.poll hlive hmeets hpoll hrecords

/-! ### Delivery -/

/-- What polls of a duplicate, one after the other, return without polling the source. -/
inductive Drains (index : ℕ) (pollTime : Time) :
    Original Time Event → List (RollbackEvent Time Event) → Original Time Event → Prop
  | nil (o : Original Time Event) : Drains index pollTime o [] o
  | cons {o o' o'' : Original Time Event} {item : RollbackEvent Time Event}
      {items : List (RollbackEvent Time Event)}
      (hpoll : ∀ (State Error : Type) (sourcePoll : SourcePoll Time Event State Error), ∃ result,
        DuplicateInner.poll o index pollTime sourcePoll = .ok (result, o') ∧
          result.emission = some item)
      (h : Drains index pollTime o' items o'') : Drains index pollTime o (item :: items) o''

/-- The first item is due when some item is within reach. -/
theorem Events.dueAt_first {first : RollbackEvent Time Event}
    {others : List (RollbackEvent Time Event)} (hitems : events.items = first :: others)
    (hmem : item ∈ first :: others) (hreach : item.WithinReach pollTime) :
    first.DueAt pollTime := by
  rcases List.mem_cons.mp hmem with rfl | hmem
  · exact hreach.dueAt
  · exact hreach.dueAt_of_lt (CmpSet.first_lt hitems hmem)

/-- A duplicate with an item within reach does not poll the source. -/
theorem Events.not_withinReach (hpolls : events.pollsSource pollTime = true)
    (hmem : item ∈ events.items) : ¬ item.WithinReach pollTime := by
  intro hreach
  cases hitems : events.items with
  | nil =>
    rw [hitems] at hmem
    cases hmem
  | cons first others =>
    refine Events.pollsSource_iff.mp hpolls first (by rw [CmpSet.first, hitems]; rfl) ?_
    exact Events.dueAt_first hitems (hitems ▸ hmem) hreach

/-- An event is returned only when no rollback is stored. -/
theorem Events.no_rollback_of_first {t s : Time} {e : Event}
    {others : List (RollbackEvent Time Event)} (hitems : events.items = .event t e :: others) :
    .rollback s ∉ events.items := by
  intro hmem
  rw [hitems] at hmem
  rcases List.mem_cons.mp hmem with heq | hmem
  · cases heq
  · obtain ⟨s', heq⟩ := RollbackEvent.eq_rollback_of_lt (CmpSet.first_lt hitems hmem)
    cases heq

/-- A duplicate that is polled again and again returns each stored item within reach. -/
theorem Drains.of_mem {stored : List (RollbackEvent Time Event)} (hstored : events.items = stored)
    (hqueue : o.queue index = some events) (hemittable : ∀ item ∈ stored, item.Emittable)
    (hmem : item ∈ stored) (hreach : item.WithinReach pollTime) :
    ∃ before o', Drains index pollTime o (before ++ [item]) o' := by
  induction stored generalizing o events with
  | nil => cases hmem
  | cons first others ih =>
    obtain ⟨rest, hrest⟩ := CmpSet.first_eq_some.mp (show events.first = some first by
      rw [CmpSet.first, hstored]; rfl)
    have hothers : rest.items = others := (List.cons.inj (hrest.symm.trans hstored)).2
    have hdue := Events.dueAt_first hstored hmem hreach
    have hpoll : ∀ (State Error : Type) (sourcePoll : SourcePoll Time Event State Error),
        ∃ result, DuplicateInner.poll o index pollTime sourcePoll =
          .ok (result, ⟨o.children.insert index (some rest)⟩) ∧ result.emission = some first :=
      fun _ _ sourcePoll => DuplicateInner.poll_first hqueue hrest hdue
        (hemittable first List.mem_cons_self) sourcePoll
    rcases List.mem_cons.mp hmem with rfl | hmem
    · exact ⟨[], _, .cons hpoll (.nil _)⟩
    · obtain ⟨before, o', hdrains⟩ := ih hothers
        (o := ⟨o.children.insert index (some rest)⟩) (by rw [Original.queue_insert, if_pos rfl])
        (fun item hitem => hemittable item (List.mem_cons_of_mem _ hitem)) hmem
      exact ⟨first :: before, o', .cons hpoll hdrains⟩

/-- What it is for a duplicate to deliver everything: each item that the source has emitted since
    the duplicate was registered was returned to its caller, was cancelled by a rollback that was
    emitted after it, or is still owed; and what is owed will be returned. -/
structure Delivers (meets : PollCondition Time Event) (o : Original Time Event) (index : ℕ)
    (l : Ledger Time Event) (a : DuplicateAccount Time Event) : Prop where
  accounted : a.emitted.Perm (a.received ++ a.cancelled ++ a.owed)
  excused : ∀ item ∈ a.cancelled, ∃ front canceller back,
    a.emitted = front ++ canceller :: back ∧ item ∈ front ∧ canceller.Cancels item
  /-- A poll returns what is owed, or polls the source when nothing owed is within reach; and no
      event is returned while a rollback is owed. -/
  polled : ∀ {State Error : Type} (pollTime : Time)
      (sourcePoll : SourcePoll Time Event State Error),
    meets o index pollTime sourcePoll.emission → ∃ events result o' l',
      o.queue index = some events ∧
      DuplicateInner.poll o index pollTime sourcePoll = .ok (result, o') ∧
      l.Records index sourcePoll result (events.pollsSource pollTime) l' ∧
      (events.pollsSource pollTime → ∀ item ∈ a.owed, ¬ item.WithinReach pollTime) ∧
      ∀ t e, result.emission = some (.event t e) → ∀ s, .rollback s ∉ a.owed
  /-- What is owed is returned by one of the next polls that are late enough. -/
  drained : ∀ item ∈ a.owed, ∀ pollTime, item.WithinReach pollTime →
    ∃ before o', Drains index pollTime o (before ++ [item]) o'

/-- In every run in which what the source emits does not compare equal to what another duplicate has
    not delivered, and no rollback is emitted while a finalize at or after its time is stored, every
    duplicate delivers everything. -/
theorem duplicates_deliver (h : Reached Unmerged o l) {a : DuplicateAccount Time Event}
    (hget : l.get index = some a) : Delivers Unmerged o index l a := by
  have hmatches := h.holds
  obtain ⟨events, hqueue, howed⟩ := hmatches.owes index a hget
  refine ⟨a.balanced, a.excused, ?_, ?_⟩
  · intro State Error pollTime sourcePoll hmeets
    obtain ⟨result, o', l', hpoll, hrecords⟩ := hmatches.recorded hget hqueue pollTime sourcePoll
    refine ⟨events, result, o', l', hqueue, hpoll, hrecords, ?_, ?_⟩
    · intro hpolls item hitem
      exact Events.not_withinReach hpolls (howed.mem_iff.mp hitem)
    · intro t e hresult s hmem
      have hmem := howed.mem_iff.mp hmem
      cases hpolls : events.pollsSource pollTime with
      | true => exact Events.not_withinReach hpolls hmem trivial
      | false =>
        obtain ⟨item, rest, hitems, hdue⟩ := Events.first_due hpolls
        have hemittable := hmatches.emittable_queue hqueue item (hitems ▸ List.mem_cons_self)
        obtain ⟨result', hpoll', hresult'⟩ :=
          DuplicateInner.poll_first hqueue hitems hdue hemittable sourcePoll
        cases hpoll.symm.trans hpoll'
        cases hresult.symm.trans hresult'
        exact Events.no_rollback_of_first hitems hmem
  · intro item hitem pollTime hreach
    exact Drains.of_mem rfl hqueue (hmatches.emittable_queue hqueue) (howed.mem_iff.mp hitem) hreach

/-- Two duplicates that have not been polled. -/
def twoDuplicates : Original ℕ ℕ :=
  (DuplicateInner.fromOriginal (DuplicateInner.fromOriginal .new).2).2

/-- Nothing has been emitted to them. -/
def twoAccounts : Ledger ℕ ℕ := (OrdMap.insert .empty 0 .new).insert 1 .new

/-- The first of them polls the source, which emits an event at 5. -/
def afterEvent (o : Original ℕ ℕ) (e : ℕ) : Original ℕ ℕ :=
  (o.poll (.ok (.event e 5) : SourcePoll ℕ ℕ Unit Unit) 0).2

/-- Their queues are empty. -/
theorem twoDuplicates_items {j : ℕ} {events : Events ℕ ℕ}
    (h : twoDuplicates.queue j = some events) : events.items = [] := by
  have hqueue : twoDuplicates =
      ⟨OrdMap.insert (OrdMap.insert .empty 0 (some .empty)) 1 (some .empty)⟩ := rfl
  rw [hqueue, Original.queue, OrdMap.get_insert, OrdMap.get_insert] at h
  split at h
  · cases h
    rfl
  · split at h
    · cases h
      rfl
    · cases h

variable {meets : PollCondition ℕ ℕ}

/-- They are reached by registering one after the other, whatever the condition is. -/
theorem twoDuplicates_reached : Reached meets twoDuplicates twoAccounts :=
  .register (.register .new)

/-- The event is emitted in a permitted poll when the queue of the first duplicate is empty. -/
theorem afterEvent_reached {o : Original ℕ ℕ} {l : Ledger ℕ ℕ} (h : Reached meets o l)
    {events : Events ℕ ℕ} (hqueue : o.queue 0 = some events) (hitems : events.items = []) (e : ℕ)
    (hmeets : meets o 0 10 (some (.event 5 e))) :
    Reached meets (afterEvent o e) (l.emit 0 (.event 5 e)) := by
  have hfirst : ∀ item, events.first = some item → ¬ item.DueAt 10 := by
    intro item hitem
    rw [CmpSet.first, hitems] at hitem
    cases hitem
  obtain ⟨events', -, hpoll⟩ := DuplicateInner.poll_source hqueue hfirst
    (.ok (.event e 5) : SourcePoll ℕ ℕ Unit Unit)
  have hpolls : events.pollsSource 10 = true := Events.pollsSource_iff.mpr hfirst
  exact .poll h hqueue hmeets hpoll (hpolls ▸ .emitted rfl rfl)

/-- The second duplicate is owed the event, and is delivered it. -/
theorem duplicates_deliver_event : ∃ a, (twoAccounts.emit 0 (.event 5 1)).get 1 = some a ∧
    a.owed = [.event 5 1] ∧ Delivers Unmerged (afterEvent twoDuplicates 1) 1
      (twoAccounts.emit 0 (.event 5 1)) a := by
  have hmeets : Unmerged twoDuplicates 0 10 (some (.event 5 1)) := by
    rintro events item - - ⟨⟩
    refine ⟨?_, nofun⟩
    intro j other hj hother stored hstored
    rw [twoDuplicates_items hother] at hstored
    cases hstored
  have hreached := afterEvent_reached twoDuplicates_reached rfl rfl 1 hmeets
  exact ⟨_, rfl, rfl, duplicates_deliver hreached rfl⟩

/-- Two events at one time compare equal, so the second one is lost. -/
theorem duplicates_deliver_fails : ¬ ∀ (o : Original ℕ ℕ) (l : Ledger ℕ ℕ) (index : ℕ)
    (a : DuplicateAccount ℕ ℕ), Reached (fun _ _ _ _ => True) o l → l.get index = some a →
      Delivers (fun _ _ _ _ => True) o index l a := by
  intro h
  have hfirst : Reached (fun _ _ _ _ => True) _ _ :=
    afterEvent_reached twoDuplicates_reached rfl rfl 1 trivial
  have hsecond := afterEvent_reached hfirst rfl rfl 2 trivial
  have hpoll : DuplicateInner.poll (afterEvent (afterEvent twoDuplicates 1) 2) 1 10
      (.pending : SourcePoll ℕ ℕ Unit Unit) = .ok (.ok (.event 1 5),
        ⟨(afterEvent (afterEvent twoDuplicates 1) 2).children.insert 1 (some .empty)⟩) := rfl
  -- the other duplicate receives the first event, and is still owed the second one
  have hthird := hsecond.poll rfl trivial hpoll
    (.delivered rfl (List.Perm.refl [RollbackEvent.event 5 1, .event 5 2]) rfl)
  obtain ⟨events, _, _, _, hqueue, -, -, hreach, -⟩ :=
    (h _ _ 1 _ hthird rfl).polled 10 (.pending : SourcePoll ℕ ℕ Unit Unit) trivial
  cases hqueue
  exact hreach rfl _ List.mem_cons_self (show 5 ≤ 10 by decide)

end Cozal.Duplicate
