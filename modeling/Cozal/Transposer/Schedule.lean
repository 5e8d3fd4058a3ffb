import Cozal.Lib.Agenda
import Cozal.Transposer.Chain
import Cozal.Transposer.Script

namespace Cozal

open Transposer

/-!
# The schedule of a chain of steps

The key of a scheduled event is its time, the index of the sub step that scheduled it and the
number of events that sub step had scheduled before.  Along a chain the last two only grow, so
no key is used twice, and the schedule is an agenda in the sense of `Cozal.Lib.Agenda`.

* `actions` — the work of a chain, as actions on its schedule.
* `Placed`, `nextRank` — where a future stands: the rank its next event is scheduled with.
* `Ordered` — the invariant: the ranks given out so far are increasing and below the next one,
  and no event has been handled after the current time.  `Reaches.ordered` keeps it.
* `schedule_exactly_once` — every accepted event has a key of its own and one fate, and events
  are handled in order.
-/

variable {T : Type} [Transposer T]

/-! ### Work as actions on the schedule -/

/-- An entry of the schedule. -/
abbrev Entry (T : Type) [Transposer T] := ScheduledTime (Time T) × Scheduled T

/-- What a piece of work does to the schedule. -/
def Label.action? : Label T → Option (Agenda.Action (ScheduledTime (Time T)) (Scheduled T))
  | .accepted k p _ => some (.add (k, p))
  | .expired _ k p => some (.drop (k, p))
  | .handleScheduled k p _ => some (.handle (k, p))
  | .internal => none
  | .handleInput _ _ => none

/-- The work of a chain, as actions on its schedule. -/
def actions (ls : List (Label T)) : List (Agenda.Action (ScheduledTime (Time T)) (Scheduled T)) :=
  ls.filterMap Label.action?

/-- The events that `schedule_event` and `schedule_event_expireable` accepted, in order. -/
def acceptedEvents (ls : List (Label T)) : List (Entry T) := Agenda.added (actions ls)

/-- The events that were expired, in order. -/
def expiredEvents (ls : List (Label T)) : List (Entry T) := Agenda.dropped (actions ls)

/-- The events that were passed to `handle_scheduled`, in order. -/
def handledEvents (ls : List (Label T)) : List (Entry T) := Agenda.handled (actions ls)

/-- The actions of two lists of work are those of the first and then those of the second. -/
theorem actions_append (ls ls' : List (Label T)) :
    actions (ls ++ ls') = actions ls ++ actions ls' :=
  List.filterMap_append

/-- A piece of work is an action on the schedule. -/
theorem FutureWork.agenda {f f' : SaturationFuture T} {l : Label T} (h : FutureWork f l f') :
    Agenda.Step f.cx.metadata.schedule (actions [l]) f'.cx.metadata.schedule := by
  cases h with
  | call hcx =>
    cases hcx with
    | silent n rng => exact .none _
    | schedule time payload ht => exact .add _ _ _
    | scheduleExpireable time payload ht => exact .add _ _ _
    | expire handle key payload hf hs => exact .drop hs
  | @done caller h t cx => cases caller <;> exact .none _
  | inputsDone => exact .none _
  | input => exact .none _
  | pop hkey hpop =>
    obtain ⟨hfirst, hsched, -⟩ := TransposerMetaData.popFirstEvent_cases hpop
    simp only [SaturationFuture.cx, hsched]
    exact .handle hfirst

/-! ### Where a future stands -/

/-- The rank of the next event a future schedules. -/
def SaturationFuture.nextRank (f : SaturationFuture T) : ℕ ×ₗ ℕ :=
  toLex (f.cx.time.index, f.cx.currentEmissionIndex)

/-- The index of the context is not above that of the local `time`; the loop over the events
    that are due has counted every sub step since the last update, and its context has
    scheduled nothing before the first of them. -/
def Placed : SaturationFuture T → Prop
  | .running (.init _) _ cx => cx.time.index ≤ cx.metadata.lastUpdated.index
  | .running (.input time _) _ cx => cx.time.index ≤ time.index
  | .running (.scheduled time) _ cx => cx.time.index ≤ time.index
  | .inputs time _ _ cx => cx.time.index ≤ time.index
  | .draining time _ cx => cx.metadata.lastUpdated.index + 1 = time.index ∧
      (cx.time.index < time.index ∨
        cx.time.index = time.index ∧ cx.currentEmissionIndex = 0)

/-- A smaller first component is enough. -/
theorem toLex_lt_of_fst {a b c d : ℕ} (h : a < c) : toLex (a, b) < toLex (c, d) :=
  Prod.Lex.toLex_lt_toLex.mpr (Or.inl h)

/-- A future starts with the index after that of the last update. -/
theorem Placed.handleScheduled (w : WrappedTransposer T) (t : Time T) (n : ℕ) :
    Placed (w.handleScheduled t n) := ⟨rfl, Or.inr ⟨rfl, rfl⟩⟩

/-- A future that handles inputs starts with that index as well. -/
theorem Placed.handleInput (w : WrappedTransposer T) (i : StepInputs T) (n : ℕ) :
    Placed (w.handleInput i n) := le_rfl

/-- A call on the context keeps its index; the rank of the next event goes up past that of an
    event that is accepted. -/
theorem ContextWork.rank {cx cx' : SubStepUpdateContext T} {l : Label T}
    (h : ContextWork cx l cx') :
    cx'.time = cx.time ∧ cx.currentEmissionIndex ≤ cx'.currentEmissionIndex ∧
      ∀ e ∈ acceptedEvents [l], cx.time.time ≤ e.1.time ∧
        e.1.rank = toLex (cx.time.index, cx.currentEmissionIndex) ∧
        cx.currentEmissionIndex < cx'.currentEmissionIndex := by
  cases h with
  | silent n rng => exact ⟨rfl, le_rfl, fun e he => by cases he⟩
  | schedule time payload ht =>
    refine ⟨rfl, Nat.le_succ _, fun e he => ?_⟩
    rw [List.mem_singleton.mp he]
    exact ⟨ht, rfl, Nat.lt_succ_self _⟩
  | scheduleExpireable time payload ht =>
    refine ⟨rfl, Nat.le_succ _, fun e he => ?_⟩
    rw [List.mem_singleton.mp he]
    exact ⟨ht, rfl, Nat.lt_succ_self _⟩
  | expire handle key payload hf hs => exact ⟨rfl, le_rfl, fun e he => by cases he⟩

/-- What a piece of work does to the rank of the next event: it never goes down, and an event
    that is accepted has the rank before and is followed by a greater one. -/
structure RankStep (f : SaturationFuture T) (l : Label T) (f' : SaturationFuture T) : Prop where
  placed : Placed f'
  le : f.nextRank ≤ f'.nextRank
  accepted : ∀ e ∈ acceptedEvents [l], f.cx.time.time ≤ e.1.time ∧ e.1.rank = f.nextRank ∧
    f.nextRank < f'.nextRank

/-- Work that accepts no event moves the rank of the next one at most up. -/
theorem RankStep.silent {f f' : SaturationFuture T} {l : Label T} (hl : acceptedEvents [l] = [])
    (hplaced : Placed f') (hle : f.nextRank ≤ f'.nextRank) : RankStep f l f' where
  placed := hplaced
  le := hle
  accepted := by rw [hl]; intro e he; cases he

/-- Every piece of work moves the rank of the next event at most up. -/
theorem FutureWork.rank {f f' : SaturationFuture T} {l : Label T} (h : FutureWork f l f')
    (hf : Placed f) : RankStep f l f' := by
  cases h with
  | @call caller h h' cx l cx' hcx =>
    obtain ⟨htime, hle, hacc⟩ := hcx.rank
    obtain ⟨-, hlast⟩ := hcx.times
    constructor
    case placed =>
      cases caller with
      | init start =>
        show cx'.time.index ≤ cx'.metadata.lastUpdated.index
        rw [htime, hlast]; exact hf
      | input time rest => show cx'.time.index ≤ _; rw [htime]; exact hf
      | scheduled time => show cx'.time.index ≤ _; rw [htime]; exact hf
    case le =>
      show toLex (cx.time.index, _) ≤ toLex (cx'.time.index, _)
      rw [htime, Prod.Lex.toLex_le_toLex]
      exact Or.inr ⟨rfl, hle⟩
    case accepted =>
      intro e he
      obtain ⟨ht, hr, hlt⟩ := hacc e he
      refine ⟨ht, hr, ?_⟩
      show toLex (cx.time.index, _) < toLex (cx'.time.index, _)
      rw [htime, Prod.Lex.toLex_lt_toLex]
      exact Or.inr ⟨rfl, hlt⟩
  | @done caller h t cx =>
    cases caller with
    | init start =>
      -- the next context starts after the last update, which the initial one is not after
      refine .silent rfl (.handleScheduled _ _ _) (toLex_lt_of_fst ?_).le
      exact Nat.lt_succ_of_le hf
    | input time rest => exact .silent rfl hf le_rfl
    | scheduled time =>
      refine .silent rfl ⟨rfl, Or.inl ?_⟩ le_rfl
      exact Nat.lt_succ_of_le hf
  | @inputsDone time t cx =>
    refine .silent rfl (.handleScheduled _ _ _) (toLex_lt_of_fst ?_).le
    exact Nat.lt_succ_of_le hf
  | input => exact .silent rfl hf le_rfl
  | @pop time t h cx key payload metadata hkey hpop =>
    refine .silent rfl ?_ le_rfl
    show cx.time.index ≤ time.index
    rcases hf.2 with hlt | ⟨heq, -⟩
    · exact hlt.le
    · exact heq.le

/-- A future that starts after one that is ready has a greater rank to give, or gives the first
    one of an index no event has been scheduled with. -/
theorem Placed.nextRank_le {f g : SaturationFuture T} {w : WrappedTransposer T} (hf : Placed f)
    (hw : f.advance = .ready w) (hg : g.nextRank = toLex (w.metadata.lastUpdated.index + 1, 0)) :
    f.nextRank ≤ g.nextRank := by
  obtain ⟨time, t, cx, rfl, rfl⟩ := advance_ready hw
  obtain ⟨hlast, hidx⟩ := hf
  rw [hg]
  show toLex (cx.time.index, cx.currentEmissionIndex)
    ≤ toLex (cx.metadata.lastUpdated.index + 1, 0)
  rw [hlast]
  rcases hidx with hlt | ⟨heq, hzero⟩
  · exact (toLex_lt_of_fst hlt).le
  · rw [heq, hzero]

/-! ### The invariant -/

/-- The schedule at a point of a chain is that of an agenda whose keys have increasing ranks,
    all below that of the next event; what was handled is not later than the current time. -/
structure Ordered (ls : List (Label T)) (f : SaturationFuture T) : Prop where
  placed : Placed f
  agenda : Run Agenda.Step .empty (actions ls) f.cx.metadata.schedule
  increasing : (acceptedEvents ls).Pairwise (fun e e' => e.1.rank < e'.1.rank)
  below : ∀ e ∈ acceptedEvents ls, e.1.rank < f.nextRank
  past : ∀ e ∈ handledEvents ls, e.1.time ≤ f.cx.time.time
  above : Agenda.AddsAbove (actions ls)
  current : ∀ k p t, .handleScheduled k p t ∈ ls → t = k.time

namespace Ordered

variable {ls : List (Label T)} {f f' : SaturationFuture T}

/-- What has been handled was accepted. -/
theorem accepted_of_handled (h : Ordered ls f) {e : Entry T} (he : e ∈ handledEvents ls) :
    e ∈ acceptedEvents ls :=
  (Agenda.mem_of_handled h.agenda he).resolve_left (by simp)

/-- What is scheduled was accepted. -/
theorem accepted_of_scheduled (h : Ordered ls f) {k : ScheduledTime (Time T)} {p : Scheduled T}
    (hk : f.cx.metadata.schedule.get k = some p) : (k, p) ∈ acceptedEvents ls :=
  (Agenda.mem_of_get h.agenda hk).resolve_left (by simp)

/-- An accepted event is above everything that has been handled. -/
theorem handled_lt (h : Ordered ls f) {e e' : Entry T} (he : e ∈ handledEvents ls)
    (htime : f.cx.time.time ≤ e'.1.time) (hrank : e'.1.rank = f.nextRank) : e.1 < e'.1 := by
  have hlt : e.1.rank < e'.1.rank := hrank ▸ h.below e (h.accepted_of_handled he)
  rcases (h.past e he |>.trans htime).lt_or_eq with hlt' | heq
  · exact ScheduledTime.lt_iff.mpr (Or.inl hlt')
  · exact ScheduledTime.lt_iff.mpr (Or.inr ⟨heq, hlt⟩)

/-- A piece of work keeps the invariant. -/
theorem work {l : Label T} (h : Ordered ls f) (ht : InTime f.cx.time.time f)
    (hw : FutureWork f l f') : Ordered (ls ++ [l]) f' := by
  have hrank := hw.rank h.placed
  have htime : f'.cx.time.time = f.cx.time.time := (ht.work hw).current
  have hacc : acceptedEvents (ls ++ [l]) = acceptedEvents ls ++ acceptedEvents [l] := by
    simp [acceptedEvents, Agenda.added, actions_append]
  have hhand : handledEvents (ls ++ [l]) = handledEvents ls ++ handledEvents [l] := by
    simp [handledEvents, Agenda.handled, actions_append]
  -- an event that is handled is one that is due
  have hdue : ∀ k p t, l = .handleScheduled k p t →
      k.time = f.cx.time.time ∧ t = f.cx.time.time := by
    rintro k p t rfl
    cases hw with
    | call hcx => cases hcx
    | pop hkey hpop =>
      exact ⟨hkey.trans ht.onTime.1, rfl⟩
  constructor
  case placed => exact hrank.placed
  case agenda =>
    rw [actions_append]
    exact h.agenda.tail hw.agenda
  case increasing =>
    rw [hacc, List.pairwise_append]
    refine ⟨h.increasing, ?_, ?_⟩
    · cases l <;> first | exact List.Pairwise.nil | exact List.pairwise_singleton _ _
    · intro e he e' he'
      rw [(hrank.accepted e' he').2.1]
      exact h.below e he
  case below =>
    intro e he
    rw [hacc] at he
    rcases List.mem_append.mp he with he | he
    · exact (h.below e he).trans_le hrank.le
    · rw [(hrank.accepted e he).2.1]
      exact (hrank.accepted e he).2.2
  case past =>
    intro e he
    rw [htime]
    rw [hhand] at he
    rcases List.mem_append.mp he with he | he
    · exact h.past e he
    · cases l with
      | handleScheduled k p t =>
        rw [List.mem_singleton.mp he]
        exact (hdue k p t rfl).1.le
      | internal | accepted _ _ _ | expired _ _ _ | handleInput _ _ => cases he
  case above =>
    rw [actions_append]
    refine List.pairwise_append.mpr ⟨h.above, ?_, ?_⟩
    · cases l <;> first | exact List.Pairwise.nil | exact List.pairwise_singleton _ _
    · intro a ha b hb e he e' he'
      have hmem : e' ∈ acceptedEvents [l] := List.mem_filterMap.mpr ⟨b, hb, he'⟩
      obtain ⟨hle, hr, -⟩ := hrank.accepted e' hmem
      exact h.handled_lt (List.mem_filterMap.mpr ⟨a, ha, he⟩) hle hr
  case current =>
    intro k p t hmem
    rcases List.mem_append.mp hmem with hmem | hmem
    · exact h.current k p t hmem
    · obtain ⟨hk, ht⟩ := hdue k p t (List.mem_singleton.mp hmem).symm
      rw [ht, hk]

/-- A future that starts when another is ready, at a later time, keeps the invariant. -/
theorem restart {w : WrappedTransposer T} (h : Ordered ls f) (hw : f.advance = .ready w)
    (hplaced : Placed f') (hmeta : f'.cx.metadata = w.metadata)
    (hrank : f'.nextRank = toLex (w.metadata.lastUpdated.index + 1, 0))
    (htime : f.cx.time.time ≤ f'.cx.time.time) : Ordered ls f' := by
  constructor
  case placed => exact hplaced
  case agenda =>
    obtain ⟨time, t, cx, rfl, rfl⟩ := advance_ready hw
    rw [hmeta]
    exact h.agenda
  case increasing => exact h.increasing
  case below =>
    intro e he
    exact (h.below e he).trans_le (h.placed.nextRank_le hw hrank)
  case past =>
    intro e he
    exact (h.past e he).trans htime
  case above => exact h.above
  case current => exact h.current

end Ordered

/-- **The invariant holds at every point of a chain.** -/
theorem Reaches.ordered {ls : List (Label T)} {f : SaturationFuture T} (h : Reaches ls f) :
    Ordered ls f := by
  induction h with
  | init transposer rngSeed startTime n =>
    exact {
      placed := le_rfl
      agenda := .refl _
      increasing := List.Pairwise.nil
      below := by intro e he; cases he
      past := by intro e he; cases he
      above := List.Pairwise.nil
      current := by intro k p t hmem; cases hmem }
  | work hreach hstep ih =>
    obtain ⟨l, rfl, hw⟩ := hstep.work
    exact ih.work hreach.inTime hw
  | @handleScheduled ls f w k n hreach hw hk ih =>
    refine ih.restart hw (.handleScheduled w k.time n) rfl rfl ?_
    -- the next event is due after the time of a step that is ready
    simp only [TransposerMetaData.getNextScheduledTime, Option.map_eq_some_iff] at hk
    obtain ⟨e, hfirst, rfl⟩ := hk
    exact ((hreach.drained hw).schedule e.1 e.2 (OrdMap.getFirst_eq_some hfirst).1).le
  | @handleInput ls f w i n hreach hw hlt hpending ih =>
    exact ih.restart hw (.handleInput w i n) rfl rfl hlt.le

/-! ### Every scheduled event has one fate -/

/-- The event of `e` was accepted before that of `e'`. -/
def AcceptedBefore (ls : List (Label T)) (e e' : Entry T) : Prop :=
  [e, e'].Sublist (acceptedEvents ls)

/-- What holds of the schedule `m` after the work `ls` of a chain. -/
structure ScheduleSound (ls : List (Label T)) (m : TransposerMetaData T) : Prop where
  /-- No two accepted events have the same key. -/
  keys_nodup : ((acceptedEvents ls).map Prod.fst).Nodup
  /-- The accepted events are, each once, those still scheduled, those that were expired and
      those that were handled. -/
  one_fate : (acceptedEvents ls).Perm
    (m.schedule.entries ++ (expiredEvents ls ++ handledEvents ls))
  /-- An event is handled at the time it was scheduled for. -/
  on_time : ∀ k p t, .handleScheduled k p t ∈ ls → t = k.time
  /-- Events are handled in order of time, and at one time in the order of scheduling. -/
  in_order : (handledEvents ls).Pairwise (fun e e' =>
    e.1.time < e'.1.time ∨ e.1.time = e'.1.time ∧ AcceptedBefore ls e e')

/-- In a list whose ranks increase, of two members the one of the smaller rank comes first. -/
theorem sublist_of_rank_lt {α : Type} {r : α → ℕ ×ₗ ℕ} {l : List α}
    (hl : l.Pairwise (fun a b => r a < r b)) {a b : α} (ha : a ∈ l) (hb : b ∈ l)
    (h : r a < r b) : [a, b].Sublist l := by
  induction l with
  | nil => cases ha
  | cons x l ih =>
    obtain ⟨hx, hl⟩ := List.pairwise_cons.mp hl
    rcases List.mem_cons.mp ha with rfl | ha'
    · rcases List.mem_cons.mp hb with rfl | hb'
      · exact absurd h (lt_irrefl _)
      · exact (List.singleton_sublist.mpr hb').cons_cons _
    · rcases List.mem_cons.mp hb with rfl | hb'
      · exact absurd (h.trans (hx a ha')) (lt_irrefl _)
      · exact (ih hl ha' hb').cons _

/-- A history in order is what the schedule is meant to be. -/
theorem Ordered.sound {ls : List (Label T)} {f : SaturationFuture T} (h : Ordered ls f) :
    ScheduleSound ls f.cx.metadata := by
  have hnodup : ((acceptedEvents ls).map Prod.fst).Nodup := by
    refine List.Pairwise.map _ ?_ h.increasing
    intro e e' hlt heq
    rw [heq] at hlt
    exact lt_irrefl _ hlt
  refine ⟨hnodup, ?_, h.current, ?_⟩
  · -- the agenda of a chain starts empty
    exact Agenda.fate h.agenda hnodup
  · refine (Agenda.handled_sorted h.agenda h.above).imp_of_mem ?_
    intro e e' he he' hlt
    rcases ScheduledTime.lt_iff.mp hlt with hlt | ⟨heq, hlt⟩
    · exact Or.inl hlt
    · exact Or.inr ⟨heq, sublist_of_rank_lt h.increasing (h.accepted_of_handled he)
        (h.accepted_of_handled he') hlt⟩

/-- **The schedule.**  At every point of every chain of steps, also in the middle of a poll,
    each event accepted so far has a key of its own and is scheduled, expired or handled, one
    of these and once; it is handled at its time, in order of time and of scheduling. -/
theorem schedule_exactly_once [BuildProfile] {ls : List (Label T)} {m : TransposerMetaData T}
    (h : ChainPoint ls m) : ScheduleSound ls m := by
  obtain ⟨f, hreach, rfl⟩ := h.reaches
  exact hreach.ordered.sound

/-- A transposer that schedules two events for one time and one for a later time, which each of the
    first two tries to expire. -/
def Script.planner : Script :=
  ⟨[.schedule 1, .scheduleExpireable 2, .schedule 1], [.expire 0, .emit 7], [], 0⟩

/-- The later event is expired once, by the first of the two that are handled. -/
theorem schedule_exactly_once_script :
    ∃ (ls : List (Label Script)) (m : TransposerMetaData Script), ScheduleSound ls m ∧
      acceptedEvents ls = [((⟨1, 0, 0⟩ : ScheduledTime ℕ), ()), (⟨2, 0, 1⟩, ()), (⟨1, 0, 2⟩, ())] ∧
      expiredEvents ls = [((⟨2, 0, 1⟩ : ScheduledTime ℕ), ())] ∧
      handledEvents ls = [((⟨1, 0, 0⟩ : ScheduledTime ℕ), ()), (⟨1, 0, 2⟩, ())] := by
  let _ : BuildProfile := debugBuild
  have hinit := Chain.poll 20 [] (Chain.newInit 0 Script.planner (0 : ℕ) ()) rfl
  have hnext := Chain.saturateTake 1 none hinit (by simp) rfl rfl
  -- the two events of time `1` are emitted by two polls, and a third one is ready
  have hdone := Chain.poll 20 [] (Chain.poll 20 [] (Chain.poll 20 [] hnext rfl) rfl) rfl
  exact ⟨_, _, schedule_exactly_once (.saturated hdone rfl), rfl, rfl, rfl⟩

end Cozal
