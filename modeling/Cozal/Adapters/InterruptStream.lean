import Cozal.Adapters.Source
import Cozal.Lib.Loop
import Cozal.Lib.Run

namespace Cozal.Adapters

open Source

/-!
# The stream of the interrupts of a source

`InterruptStream` plays a source against the clock.  Every poll of the stream advances the source
to the present, polls its events, and either yields one or goes to sleep until the next one is
due.

* `InterruptStream.pollNext` — `poll_next`, a loop: when the wait is over at once it starts again.
  `InterruptStream.lastPollTime` is the time of its last round.
* `StreamStep` — a round of that loop, at a time not before the rounds before it.
* `RoundServes`, `Source.Serves.round` — what a round does for a source that serves a timetable.
* `Source.Serves.run` — so what the stream yields, in any run, are the events of the timetable in
  order and on time.
* `Source.Serves.parked` — and when it goes to sleep it has yielded everything before the time it
  waits for.
* `Source.Serves.delivers` — what is due can be got out of the stream.
-/

variable {Src : Type} [Source Src]

/-- What the stream yields. -/
abbrev Item (Src : Type) [Source Src] := Time Src × Interrupt (Event Src)

/-- `Poll<Option<T>>`. -/
inductive StreamPoll (α : Type) where
  | ready (item : Option α)
  | pending
deriving DecidableEq, Repr

/-- The item a poll yields. -/
def StreamPoll.items {α : Type} : StreamPoll α → List α
  | .ready item => item.toList
  | .pending => []

/-- What the polls of a run return, and when. -/
abbrev Polls (Src : Type) [Source Src] := List (Time Src × StreamPoll (Item Src))

/-- A source and the wait for its next event.  A wait is made for a time by `wait_fn` and polled
    once; of it only the time is kept. -/
structure InterruptStream (Src : Type) [Source Src] where
  source : Src
  currentWait : Option (Time Src)

/-- What a round of `poll_next` gets from outside: the time it is, what the source gets from
    outside, and whether the new wait is over when it is polled. -/
structure Wake (Src : Type) [Source Src] where
  now : Time Src
  outside : Outside Src
  waitIsOver : Bool

namespace InterruptStream

/-- A stream over a source that has not been polled, and so waits for nothing. -/
def new (source : Src) : InterruptStream Src := ⟨source, none⟩

/-- One round of `poll_next`: what it returns, or nothing when it calls itself again. -/
def pollNextRound (r : Wake Src) (s : InterruptStream Src) :
    Outcome (Option (StreamPoll (Item Src)) × InterruptStream Src) := do
  let source ← Source.advance s.source r.now
  let (poll, source) ← Source.pollEvents source r.now r.outside
  -- an error is the `panic!()` of the source
  let poll ← Outcome.expect .unreachable poll
  match poll with
  | .interrupt time interrupt =>
      return (some (.ready (some (time, interrupt))), { s with source })
  | .pending => return (some .pending, { s with source })
  | .ready () none => return (some .pending, ⟨source, none⟩)
  | .ready () (some next) =>
      if r.waitIsOver then return (none, ⟨source, none⟩)
      else return (some .pending, ⟨source, some next⟩)

/-- `poll_next`: a poll of the stream goes round its loop until one round returns. -/
def pollNext (rounds : List (Wake Src)) (s : InterruptStream Src) :
    Outcome (StreamPoll (Item Src) × InterruptStream Src) :=
  Outcome.loop pollNextRound rounds s

/-- The `poll_time` of the round in which a call of `poll_next` returns. -/
def lastPollTime : List (Wake Src) → InterruptStream Src → Option (Time Src)
  | [], _ => none
  | r :: rounds, s =>
      match pollNextRound r s with
      | .ok (some _, _) => some r.now
      | .ok (none, s) => lastPollTime rounds s
      | _ => none

end InterruptStream

open InterruptStream

/-! ### Runs against the clock -/

/-- The clock does not stand before the start, nor before what it has shown. -/
structure OnClock {τ : Type} [LinearOrder τ] (start : τ) (clock : Option τ) (now : τ) : Prop where
  started : start ≤ now
  forward : ∀ t ∈ clock, t ≤ now

/-- One round of `poll_next`, with what it returns and when. -/
inductive StreamStep (start : Time Src) : Option (Time Src) × InterruptStream Src →
    Polls Src → Option (Time Src) × InterruptStream Src → Prop where
  | round {clock s r o s'} : OnClock start clock r.now → pollNextRound r s = .ok (o, s') →
      StreamStep start (clock, s) (o.toList.map (r.now, ·)) (some r.now, s')

/-- The rounds of a call follow the clock. -/
def Ticks (start : Time Src) : Option (Time Src) → List (Wake Src) → Prop
  | _, [] => True
  | clock, r :: rounds => OnClock start clock r.now ∧ Ticks start (some r.now) rounds

/-- **A call of `poll_next` is a run of rounds**, of which the last one returns. -/
theorem run_of_pollNext {start : Time Src} {clock : Option (Time Src)} {rounds : List (Wake Src)}
    {s s' : InterruptStream Src} {p : StreamPoll (Item Src)} (hticks : Ticks start clock rounds)
    (h : s.pollNext rounds = .ok (p, s')) :
    ∃ before u r, Run (StreamStep start) (clock, s) [] (before, u) ∧ OnClock start before r.now ∧
      OnClock start clock r.now ∧ s.lastPollTime rounds = some r.now ∧
      pollNextRound r u = .ok (some p, s') := by
  induction rounds generalizing clock s with
  | nil => cases h
  | cons r rounds ih =>
    obtain ⟨hclock, hticks⟩ := hticks
    simp only [InterruptStream.pollNext, Outcome.loop, Outcome.bind_eq_ok] at h
    obtain ⟨⟨o, t⟩, hround, h⟩ := h
    cases o with
    | some p' =>
      simp only [Outcome.pure_eq, Outcome.ok.injEq, Prod.mk.injEq] at h
      obtain ⟨rfl, rfl⟩ := h
      exact ⟨clock, s, r, .refl _, hclock, hclock, by rw [lastPollTime, hround], hround⟩
    | none =>
      obtain ⟨before, u, r', hrun, hbefore, hnow, htime, hlast⟩ := ih hticks h
      refine ⟨before, u, r', .head (.round hclock hround) hrun, hbefore, ⟨hnow.started, ?_⟩, ?_,
        hlast⟩
      · intro t ht
        exact (hclock.forward t ht).trans (hnow.forward _ rfl)
      · rw [lastPollTime, hround]
        exact htime

/-- The clock has shown the time of every poll. -/
theorem run_clock {start : Time Src} {σ σ' : Option (Time Src) × InterruptStream Src}
    {polls : Polls Src} (h : Run (StreamStep start) σ polls σ') :
    (∀ t ∈ σ.1, ∃ u ∈ σ'.1, t ≤ u) ∧ ∀ p ∈ polls, ∃ u ∈ σ'.1, p.1 ≤ u := by
  induction h with
  | refl σ => exact ⟨fun t ht => ⟨t, ht, le_rfl⟩, by simp⟩
  | @head σ σ₁ σ' o os hstep _ ih =>
    obtain ⟨hclock, hpolls⟩ := ih
    cases hstep with
    | @round clock s r o s' hnow _ =>
      obtain ⟨u, hu, hle⟩ := hclock r.now rfl
      refine ⟨fun t ht => ⟨u, hu, (hnow.forward t ht).trans hle⟩, ?_⟩
      intro p hp
      rcases List.mem_append.mp hp with hp | hp
      · obtain ⟨q, -, rfl⟩ := List.mem_map.mp hp
        exact ⟨u, hu, hle⟩
      · exact hpolls p hp

/-! ### A source that serves a timetable -/

section Serves

variable {D : Timetable (Time Src) (Event Src)} {start : Time Src}
  {inv : Option (Time Src) → Events Src → Src → Prop} {busy : Src → Prop}

/-- The item of an event. -/
def finalized {τ ε : Type} (x : τ × ε) : τ × Interrupt ε := (x.1, .finalizedEvent x.2)

/-- What a round at `now` does once the events `out` have been yielded: it goes on or yields the
    next event; or it goes to sleep, either until the next event is due or because the source is
    busy and will wake it. -/
inductive RoundServes (D : Timetable (Time Src) (Event Src)) (inv : Events Src → Src → Prop)
    (busy : Src → Prop) (now : Time Src) (out : Events Src) :
    Option (StreamPoll (Item Src)) → InterruptStream Src → Prop where
  | again {s} : inv out s.source → D.Covers out now → RoundServes D inv busy now out none s
  | item {s x} : inv (out ++ [x]) s.source → x.1 ≤ now →
      RoundServes D inv busy now out (some (.ready (some (finalized x)))) s
  | parked {s} : inv out s.source → D.Covers out now → D.NextDue now s.currentWait →
      RoundServes D inv busy now out (some .pending) s
  | busy {s} : inv out s.source → busy s.source →
      RoundServes D inv busy now out (some .pending) s

/-- **A round** does not panic, and when it ends it has served the timetable. -/
theorem Source.Serves.round (hS : Serves D start inv busy) {clock : Option (Time Src)}
    {out : Events Src} {s : InterruptStream Src} {r : Wake Src} (hinv : inv clock out s.source)
    (hclock : OnClock start clock r.now) :
    pollNextRound r s = .running ∨ ∃ o s', pollNextRound r s = .ok (o, s') ∧
      RoundServes D (inv (some r.now)) busy r.now out o s' := by
  obtain ⟨source, hadvance, hinv⟩ := hS.advance hinv hclock.started hclock.forward
  have hpoll := hS.pollEvents r.outside hinv
  generalize hq : Source.pollEvents source r.now r.outside = q at hpoll
  simp only [pollNextRound, hadvance, Outcome.ok_bind, hq]
  cases hpoll with
  | running => exact Or.inl rfl
  | @ready next s' hinv' hcovers hnext =>
    refine Or.inr ?_
    cases next with
    | none => exact ⟨_, _, rfl, .parked hinv' hcovers hnext⟩
    | some u =>
      cases hwait : r.waitIsOver with
      | true => exact ⟨none, ⟨s', none⟩, by simp, .again hinv' hcovers⟩
      | false => exact ⟨_, ⟨s', some u⟩, by simp, .parked hinv' hcovers hnext⟩
  | @interrupt t e s' hinv' hle =>
    have hitem : RoundServes D (inv (some r.now)) busy r.now out
        (some (.ready (some (finalized (t, e))))) ⟨s', s.currentWait⟩ := .item hinv' hle
    exact Or.inr ⟨_, _, rfl, hitem⟩
  | pending hinv' hbusy => exact Or.inr ⟨_, _, rfl, .busy hinv' hbusy⟩

/-- One round of the loop serves the source, from any state that the invariant holds of. -/
theorem Source.Serves.round_ok (hS : Serves D start inv busy) {clock : Option (Time Src)}
    {out : Events Src} {s s' : InterruptStream Src} {r : Wake Src}
    {o : Option (StreamPoll (Item Src))} (hinv : inv clock out s.source)
    (hclock : OnClock start clock r.now) (h : pollNextRound r s = .ok (o, s')) :
    RoundServes D (inv (some r.now)) busy r.now out o s' := by
  rcases hS.round hinv hclock with hrunning | ⟨o', t, hround, hserves⟩
  · rw [h] at hrunning
    cases hrunning
  · rw [h, Outcome.ok.injEq, Prod.mk.injEq] at hround
    obtain ⟨rfl, rfl⟩ := hround
    exact hserves

/-- The items that the polls of a run yield. -/
def items (polls : Polls Src) : List (Item Src) :=
  polls.flatMap fun p => p.2.items

/-- The items of two lists of polls are those of the first and then those of the second. -/
theorem items_append (polls polls' : Polls Src) :
    items (polls ++ polls') = items polls ++ items polls' := List.flatMap_append

/-- Polls that each return an event give the items of those events. -/
theorem items_map_ready (now : Time Src) (more : Events Src) :
    items (more.map fun x => (now, .ready (some (finalized x)))) = more.map finalized := by
  rw [items, List.flatMap_map, List.map_eq_flatMap]
  rfl

/-- No poll of the run yields an item before its time. -/
def OnTime (polls : Polls Src) : Prop :=
  ∀ p ∈ polls, ∀ x ∈ p.2.items, x.1 ≤ p.1

/-- The clock has shown the time of every item. -/
theorem OnTime.by_clock {σ σ' : Option (Time Src) × InterruptStream Src} {polls : Polls Src}
    (h : OnTime polls) (hrun : Run (StreamStep start) σ polls σ') :
    ∀ x ∈ items polls, ∃ u ∈ σ'.1, x.1 ≤ u := by
  intro x hx
  obtain ⟨p, hp, hxp⟩ := List.mem_flatMap.mp hx
  obtain ⟨u, hu, hle⟩ := (run_clock hrun).2 p hp
  exact ⟨u, hu, (h p hp x hxp).trans hle⟩

/-- **A run** yields the next events of the timetable, none before its time. -/
theorem Source.Serves.run (hS : Serves D start inv busy)
    {σ σ' : Option (Time Src) × InterruptStream Src}
    {polls : Polls Src} (hrun : Run (StreamStep start) σ polls σ')
    {out : Events Src} (hinv : inv σ.1 out σ.2.source) :
    ∃ more, items polls = more.map finalized ∧ OnTime polls ∧
      inv σ'.1 (out ++ more) σ'.2.source := by
  induction hrun generalizing out with
  | refl σ => exact ⟨[], rfl, by simp [OnTime], by simpa using hinv⟩
  | @head σ σ₁ σ' o os hstep hrest ih =>
    cases hstep with
    | @round clock s r o s' hclock hround =>
      -- what the first round yields, and then the others
      obtain ⟨now, hnow⟩ : ∃ now, now = r.now := ⟨_, rfl⟩
      have hserves := hS.round_ok hinv hclock hround
      rw [← hnow] at hserves ih ⊢
      cases hserves with
      | again hinv' _ => exact ih hinv'
      | parked hinv' _ _ | busy hinv' _ =>
        obtain ⟨more, hitems, htime, hend⟩ := ih hinv'
        refine ⟨more, hitems, ?_, hend⟩
        intro p hp
        rcases List.mem_cons.mp hp with rfl | hp
        · intro x hx
          cases hx
        · exact htime p hp
      | @item _ x hinv' hle =>
        obtain ⟨more, hitems, htime, hend⟩ := ih hinv'
        refine ⟨x :: more, ?_, ?_, by simpa using hend⟩
        · show finalized x :: items os = _
          rw [hitems, List.map_cons]
        · intro p hp
          rcases List.mem_cons.mp hp with rfl | hp
          · intro y hy
            obtain rfl := List.mem_singleton.mp hy
            exact hle
          · exact htime p hp

/-- **A call does not panic** in any round that follows the clock. -/
theorem Source.Serves.pollNext_ne_panic (hS : Serves D start inv busy)
    {clock : Option (Time Src)} {out : Events Src} {s : InterruptStream Src}
    {rounds : List (Wake Src)} (hinv : inv clock out s.source) (hticks : Ticks start clock rounds)
    (site : Panic) : s.pollNext rounds ≠ .panic site := by
  induction rounds generalizing clock s with
  | nil =>
    intro h
    cases h
  | cons r rounds ih =>
    obtain ⟨hclock, hticks⟩ := hticks
    rw [InterruptStream.pollNext, Outcome.loop]
    rcases hS.round hinv hclock with hrunning | ⟨o, s', hround, hserves⟩
    · rw [hrunning]
      simp
    · rw [hround, Outcome.ok_bind]
      cases hserves with
      | again hinv' _ => exact ih hinv' hticks
      | item _ _ | parked _ _ _ | busy _ _ => simp

/-- What a call has come to in its last round: it has yielded the next event, or the stream
    sleeps. -/
theorem Source.Serves.pollNext_ok (hS : Serves D start inv busy) {clock : Option (Time Src)}
    {out : Events Src} {s s' : InterruptStream Src} {rounds : List (Wake Src)}
    {p : StreamPoll (Item Src)} (hinv : inv clock out s.source)
    (hticks : Ticks start clock rounds) (h : s.pollNext rounds = .ok (p, s')) :
    ∃ now, s.lastPollTime rounds = some now ∧ OnClock start clock now ∧
      RoundServes D (inv (some now)) busy now out (some p) s' := by
  obtain ⟨before, u, r, hrun, hbefore, hnow, htime, hlast⟩ := run_of_pollNext hticks h
  -- the rounds before the last one have yielded nothing
  obtain ⟨more, hmore, -, hinv'⟩ := hS.run hrun hinv
  obtain rfl := List.map_eq_nil_iff.mp hmore.symm
  rw [List.append_nil] at hinv'
  exact ⟨r.now, htime, hnow, hS.round_ok hinv' hbefore hlast⟩

/-- **Where the stream goes to sleep** everything before the time it waits for has been yielded,
    and that is the next due time after the last round; unless the source is busy. -/
theorem Source.Serves.parked (hS : Serves D start inv busy) {clock : Option (Time Src)}
    {out : Events Src} {s s' : InterruptStream Src} {rounds : List (Wake Src)}
    (hinv : inv clock out s.source) (hticks : Ticks start clock rounds)
    (h : s.pollNext rounds = .ok (.pending, s')) :
    busy s'.source ∨ (∃ now, s.lastPollTime rounds = some now ∧ OnClock start clock now ∧
      D.NextDue now s'.currentWait) ∧ ∀ t, (∀ u ∈ s'.currentWait, t < u) → D.Covers out t := by
  obtain ⟨now, htime, hclock, hserves⟩ := hS.pollNext_ok hinv hticks h
  cases hserves with
  | busy _ hbusy => exact Or.inl hbusy
  | parked _ hcovers hnext =>
    exact Or.inr ⟨⟨now, htime, hclock, hnext⟩, fun t ht => hcovers.until_next hnext ht⟩

/-- **What is due is yielded** by as many calls, of one round each, as there are events. -/
theorem Source.Serves.delivers (hS : Serves D start inv busy) (hD : Delivers D inv)
    {clock : Option (Time Src)} {now : Time Src} {out more : Events Src}
    {s : InterruptStream Src} (hinv : inv clock out s.source) (hclock : OnClock start clock now)
    (hmore : D.Outputs (out ++ more)) (hle : ∀ x ∈ more, x.1 ≤ now) :
    ∃ clock' s', Run (StreamStep start) (clock, s)
      (more.map fun x => (now, .ready (some (finalized x)))) (clock', s') := by
  induction more generalizing clock out s with
  | nil => exact ⟨clock, s, .refl _⟩
  | cons x more ih =>
    obtain ⟨source, hadvance, hinv'⟩ := hS.advance hinv hclock.started hclock.forward
    rw [List.append_cons] at hmore
    obtain ⟨outside, source', hpoll⟩ := hD hinv' (D.of_append hmore) (hle x List.mem_cons_self)
    have hround : pollNextRound ⟨now, outside, false⟩ s
        = .ok (some (.ready (some (finalized x))), { s with source := source' }) := by
      simp only [pollNextRound, hadvance, Outcome.ok_bind, hpoll, Outcome.expect_ok,
        Outcome.pure_eq, finalized]
    -- the round has served the timetable, so the rest goes on behind the event
    have hinv'' : inv (some now) (out ++ [x]) source' := by
      have hserves := hS.pollEvents outside hinv'
      rw [hpoll] at hserves
      cases hserves with
      | interrupt hinv'' _ => exact hinv''
    obtain ⟨clock', s', hrun⟩ := ih (s := { s with source := source' }) hinv''
      ⟨hclock.started, fun t ht => (Option.mem_some.mp ht).ge⟩ hmore
      fun y hy => hle y (List.mem_cons_of_mem x hy)
    exact ⟨clock', s', .head (.round hclock hround) hrun⟩

end Serves

end Cozal.Adapters
