import Cozal.Adapters.InterruptStream
import Cozal.Source.Liveness

namespace Cozal.Adapters

open Transposer

/-!
# The stream of a transposer without inputs

`NoInputTransposerSource` is a source in the sense of the trait, and a stream drives it only
forward.  So it serves the timetable of its reference, and all that has been shown of such streams
holds of it.

* `noInputTransposerSource_serves` — the source serves the events of the reference.
* `stream_plays_reference` — what the stream has yielded, in any run, and what it keeps.
* `stream_never_panics` — no call of `poll_next` panics.
* `stream_wakes_on_time` — where it goes to sleep it is to be woken at the next due time.
* `stream_delivers` — every event that is due can be got.
-/

variable {T : Type} [Transposer T] {R : Reference T} {clock : Option (Transposer.Time T)}

section Build

variable [BuildProfile]

/-- The futures of the transposer are what the outside of this source decides; it never fails. -/
instance : Source (NoInputTransposerSource T) where
  Time := Transposer.Time T
  Event := OutputEvent T
  Error := Unit
  Outside := List (Round T)
  pollEvents s now rounds := do
    let (poll, s) ← s.pollEvents now rounds
    return (.ok poll, s)
  advance s now := s.advance now

open NoInputTransposerSource in
/-- **A source that is only driven forward serves the timetable of the reference.** -/
theorem noInputTransposerSource_serves (hd : Deterministic T) (ha : AwaitsEmissions T)
    (R : Reference T) :
    @Source.Serves (NoInputTransposerSource T) _ R.timetable R.startTime (Forward R) Busy where
  outputs h := h.outputs
  advance h hstart hclock := h.advance hd ha hstart hclock
  pollEvents := by
    intro now out s rounds h
    -- the rounds of the loop return nothing before the last one
    let P (u : NoInputTransposerSource T) := Forward R (some now) out u
    have hnext : ∀ (r : Round T) (u u' : NoInputTransposerSource T), P u → True →
        pollEventsRound now [] r u = .ok (none, u') → P u' := by
      intro r u u' hu _ hr
      have hround := Forward.round hd ha hu (pollEventsRound_cases hu.sound hr)
      rwa [roundInterrupts, Option.elim_none, List.append_nil] at hround
    have hall : Outcome.AllRounds (pollEventsRound now []) (fun _ _ => True) rounds s :=
      .of_forall (fun _ _ => trivial) _ _
    show Source.PollServes R.timetable (Forward R (some now)) Busy now out
      (s.pollEvents now rounds >>= fun q => pure (.ok q.1, q.2))
    rw [NoInputTransposerSource.pollEvents, h.unpinned]
    cases hq : Outcome.loop (pollEventsRound now []) rounds s with
    | running => exact .running
    | panic site =>
      have havoids : (Outcome.loop (pollEventsRound now []) rounds s).Avoids fun _ => True := by
        refine Outcome.Avoids.loop (P := P) hall h hnext ?_
        intro r u hu _ site _
        exact hu.pollEventsRound_ne_panic hd ha r site
      exact absurd hq (havoids site trivial)
    | ok q =>
      obtain ⟨p, s'⟩ := q
      obtain ⟨r, u, hu, -, hr⟩ := Outcome.loop_ok (P := P) hq hall h hnext
      have hcases := pollEventsRound_cases hu.sound hr
      have hround := Forward.round hd ha hu hcases
      have hcovers : ∀ next, p = .ready () next → R.Covers out now := by
        rintro next rfl
        exact hu.events.eventsRound_ready hd ha hcases
      cases hcases with
      | ready hpushed hx hcond =>
        rw [roundInterrupts, Option.elim_some, SourcePoll.interrupts, List.append_nil] at hround
        exact .ready hround (hcovers _ rfl) (Forward.nextDue hd ha hu hpushed hx hcond)
      | @emitted steps i n steps' x p e hpushed hfound hx hp hresult =>
        refine .interrupt hround ?_
        obtain ⟨rfl, y, hone, -, hle⟩ := (hu.steps.pushed hpushed).found (hpushed.sound hu.sound)
          (hpushed.deletedBefore.trans hu.deleted) hfound
        rw [hone] at hx
        obtain rfl := Option.some.inj hx
        exact hle
      | @pending steps i n steps' x p hpushed hfound hx hp hresult =>
        rw [roundInterrupts, Option.elim_some, SourcePoll.interrupts, List.append_nil] at hround
        refine .pending hround ⟨p.step, ?_, ?_⟩
        · obtain ⟨rfl, y, hone, -, -⟩ := (hu.steps.pushed hpushed).found (hpushed.sound hu.sound)
            (hpushed.deletedBefore.trans hu.deleted) hfound
          show (steps'.steps.set 0 p.step).getLast? = some p.step
          rw [hone]
          rfl
        · exact (Steps.polled hp hresult).2.2 (by simp)

open NoInputTransposerSource in
/-- The source delivers what is due. -/
theorem noInputTransposerSource_delivers (hd : Deterministic T) (ha : AwaitsEmissions T)
    (R : Reference T) :
    @Source.Delivers (NoInputTransposerSource T) _ R.timetable (Forward R) := by
  intro now out s x h hx hle
  obtain ⟨rounds, s', hs'⟩ := h.quiet.delivers hd ha hx hle
  refine ⟨rounds, s', ?_⟩
  show (s.pollEvents now rounds >>= fun q => pure (Except.ok q.1, q.2)) = _
  rw [hs']
  rfl

/-- The stream of a source that has just been made. -/
def streamOf (R : Reference T) : InterruptStream (NoInputTransposerSource T) :=
  .new (.new R.transposer R.startTime R.rngSeed)

/-- What a stream has yielded, and what it keeps. -/
structure Plays (R : Reference T) (polls : Polls (NoInputTransposerSource T))
    (s : InterruptStream (NoInputTransposerSource T)) : Prop where
  /-- It has yielded the events of the reference, each as a finalized one. -/
  events : ∃ out, items polls = out.map finalized ∧ R.Outputs out
  /-- The times of what it yields do not go back. -/
  ordered : (items polls).Pairwise fun x y => x.1 ≤ y.1
  /-- Nothing has been yielded before its time. -/
  onTime : OnTime polls
  /-- No more than two steps are kept. -/
  steps_le : s.source.steps.steps.length ≤ 2

open NoInputTransposerSource in
/-- The invariant of the source holds all along. -/
theorem forward_of_run (hd : Deterministic T) (ha : AwaitsEmissions T)
    {polls : Polls (NoInputTransposerSource T)} {s : InterruptStream (NoInputTransposerSource T)}
    (h : Run (StreamStep R.startTime) (none, streamOf R) polls (clock, s)) :
    ∃ out, items polls = out.map finalized ∧ OnTime polls ∧ Forward R clock out s.source :=
  (noInputTransposerSource_serves hd ha R).run h (Forward.new _ _ _)

end Build

/-- **The stream plays the reference.**  Whatever wakes it and however long its polls take, it
    yields the events of the reference in order, none before its time, and keeps no more than two
    steps. -/
theorem stream_plays_reference [BuildProfile] (hd : Deterministic T) (ha : AwaitsEmissions T)
    {polls : Polls (NoInputTransposerSource T)} {s : InterruptStream (NoInputTransposerSource T)}
    (h : Run (StreamStep R.startTime) (none, streamOf R) polls (clock, s)) : Plays R polls s := by
  obtain ⟨out, hitems, htime, hforward⟩ := forward_of_run hd ha h
  have houtputs : R.Outputs out := hforward.outputs
  refine ⟨⟨out, hitems, houtputs⟩, ?_, htime, hforward.steps.length_le⟩
  rw [hitems, List.pairwise_map]
  exact houtputs.sorted

/-- A transposer that schedules and emits, in a stream that is first polled after both. -/
theorem stream_plays_reference_script :
    ∃ (_ : BuildProfile) (polls : Polls (NoInputTransposerSource Script))
      (s : InterruptStream (NoInputTransposerSource Script)),
      Plays ⟨⟨[.schedule 2], [.emit 7], [], 0⟩, (0 : ℕ), ()⟩ polls s ∧
      items polls = [((2 : ℕ), .finalizedEvent (7 : ℕ))] := by
  let _ : BuildProfile := debugBuild
  let R : Reference Script := ⟨⟨[.schedule 2], [.emit 7], [], 0⟩, (0 : ℕ), ()⟩
  let round : Round Script := ⟨[], 20, []⟩
  have hrun : Run (StreamStep R.startTime) (none, streamOf R) _ _ :=
    .single (.round (r := ⟨(3 : ℕ), [round, round], false⟩) ⟨by decide, by simp⟩ rfl)
  exact ⟨inferInstance, _, _,
    stream_plays_reference Script.deterministic Script.awaitsEmissions hrun, rfl⟩

/-- **No call of `poll_next` panics**, as long as the clock does not go back and has reached the
    start. -/
theorem stream_never_panics [BuildProfile] (hd : Deterministic T) (ha : AwaitsEmissions T)
    {polls : Polls (NoInputTransposerSource T)} {s : InterruptStream (NoInputTransposerSource T)}
    {rounds : List (Wake (NoInputTransposerSource T))}
    (h : Run (StreamStep R.startTime) (none, streamOf R) polls (clock, s))
    (hticks : Ticks R.startTime clock rounds) : ∀ site, s.pollNext rounds ≠ .panic site := by
  obtain ⟨out, -, -, hforward⟩ := forward_of_run hd ha h
  exact fun site => (noInputTransposerSource_serves hd ha R).pollNext_ne_panic hforward hticks site

/-- A second call of two rounds, the first of which starts again. -/
theorem stream_never_panics_script :
    ∃ (_ : BuildProfile) (s : InterruptStream (NoInputTransposerSource Script))
      (rounds : List (Wake (NoInputTransposerSource Script))),
      (∀ site, s.pollNext rounds ≠ .panic site) ∧
      s.source.steps.deletedBefore = some (3 : ℕ) ∧ rounds.length = 2 := by
  let _ : BuildProfile := debugBuild
  let R : Reference Script := ⟨⟨[.schedule 2], [.emit 7, .schedule 2], [], 0⟩, (0 : ℕ), ()⟩
  let round : Round Script := ⟨[], 20, []⟩
  have hrun : Run (StreamStep R.startTime) (none, streamOf R) _ _ :=
    .single (.round (r := ⟨(3 : ℕ), [round, round], false⟩) ⟨by decide, by simp⟩ rfl)
  exact ⟨inferInstance, _, [⟨(3 : ℕ), [round], true⟩, ⟨(5 : ℕ), [round], false⟩],
    stream_never_panics Script.deterministic Script.awaitsEmissions hrun
      ⟨⟨by decide, by decide⟩, ⟨by decide, by decide⟩, trivial⟩, rfl, rfl⟩

/-- **The stream wakes on time.**  When `poll_next` returns that it is pending and no step is in
    the middle of its work, the stream waits for the first due time of the reference after the
    `poll_time` of its last round, or for none when nothing is left; and it has yielded every event
    before that time. -/
theorem stream_wakes_on_time [BuildProfile] (hd : Deterministic T) (ha : AwaitsEmissions T)
    {polls : Polls (NoInputTransposerSource T)}
    {s s' : InterruptStream (NoInputTransposerSource T)}
    {rounds : List (Wake (NoInputTransposerSource T))}
    (h : Run (StreamStep R.startTime) (none, streamOf R) polls (clock, s))
    (hticks : Ticks R.startTime clock rounds) (hp : s.pollNext rounds = .ok (.pending, s'))
    (hidle : ¬ s'.source.Busy) :
    ∃ (out : List (Transposer.Time T × OutputEvent T)) (now : Transposer.Time T),
      items polls = out.map finalized ∧ R.Outputs out ∧ s.lastPollTime rounds = some now ∧
      OnClock R.startTime clock now ∧ R.timetable.NextDue now s'.currentWait ∧
      ∀ t, (∀ u ∈ s'.currentWait, t < u) → R.Covers out t := by
  obtain ⟨out, hitems, -, hforward⟩ := forward_of_run hd ha h
  rcases (noInputTransposerSource_serves hd ha R).parked hforward hticks hp with
    hbusy | ⟨⟨now, htime, hclock, hnext⟩, hcovers⟩
  · exact absurd hbusy hidle
  · exact ⟨out, now, hitems, hforward.outputs, htime, hclock, hnext, hcovers⟩

/-- The transposer schedules at 2 and at 4.  A stream that is polled at 0 waits for the first of the
    two. -/
theorem stream_wakes_on_time_script :
    ∃ (_ : BuildProfile) (R : Reference Script)
      (s s' : InterruptStream (NoInputTransposerSource Script))
      (wake : Wake (NoInputTransposerSource Script)), s.lastPollTime [wake] = some (0 : ℕ) ∧
      R.timetable.NextDue (0 : ℕ) s'.currentWait ∧ s'.currentWait = some (2 : ℕ) := by
  let _ : BuildProfile := debugBuild
  let R : Reference Script := ⟨⟨[.schedule 2, .schedule 4], [.emit 7], [], 0⟩, (0 : ℕ), ()⟩
  let round : Round Script := ⟨[], 20, []⟩
  let wake : Wake (NoInputTransposerSource Script) := ⟨(0 : ℕ), [round, round], false⟩
  have hticks : Ticks R.startTime none [wake] := ⟨⟨by decide, by simp⟩, trivial⟩
  have hp : (streamOf R).pollNext [wake] = .ok (.pending, _) := rfl
  obtain ⟨-, now, -, -, htime, -, hnext, -⟩ := stream_wakes_on_time Script.deterministic
    Script.awaitsEmissions (.refl (none, streamOf R)) hticks hp (by
      rintro ⟨x, hx, hsat⟩
      cases hx
      cases hsat)
  obtain rfl : (0 : ℕ) = now := Option.some.inj htime
  exact ⟨inferInstance, R, streamOf R, _, wake, rfl, hnext, rfl⟩

/-- **Every event that is due can be got.**  From wherever the stream has come to, it goes on to
    yield all the events of the reference up to the present. -/
theorem stream_delivers [BuildProfile] (hd : Deterministic T) (ha : AwaitsEmissions T)
    {polls : Polls (NoInputTransposerSource T)} {s : InterruptStream (NoInputTransposerSource T)}
    (h : Run (StreamStep R.startTime) (none, streamOf R) polls (clock, s))
    {now : Transposer.Time T} (hnow : OnClock R.startTime clock now)
    {all : List (Transposer.Time T × OutputEvent T)} (hall : R.Outputs all)
    (hdue : ∀ x ∈ all, x.1 ≤ now) :
    ∃ polls' clock' s', Run (StreamStep R.startTime) (clock, s) polls' (clock', s') ∧
      (∀ p ∈ polls', p.1 = now) ∧ all.map finalized <+: items (polls ++ polls') := by
  obtain ⟨out, hitems, -, hforward⟩ := forward_of_run hd ha h
  have hserves := noInputTransposerSource_serves hd ha R
  rcases hforward.outputs.total hd hall with ⟨more, rfl⟩ | hpre
  · have hle : ∀ x ∈ more, x.1 ≤ now := fun x hx => hdue x (List.mem_append_right out hx)
    obtain ⟨clock', s', hrun⟩ := hserves.delivers (noInputTransposerSource_delivers hd ha R)
      hforward hnow hall hle
    refine ⟨_, clock', s', hrun, ?_, ?_⟩
    · intro p hp
      obtain ⟨x, -, rfl⟩ := List.mem_map.mp hp
      rfl
    · -- the new polls yield the rest
      rw [items_append, items_map_ready, hitems, List.map_append]
  · refine ⟨[], clock, s, .refl _, by simp, ?_⟩
    rw [List.append_nil, hitems]
    exact hpre.map finalized

/-- A transposer that emits at the start. -/
theorem stream_delivers_script :
    ∃ (_ : BuildProfile) (polls : Polls (NoInputTransposerSource Script)),
      [((0 : ℕ), .finalizedEvent (5 : ℕ))] <+: items polls := by
  let _ : BuildProfile := debugBuild
  let R : Reference Script := ⟨⟨[.emit 5], [], [], 0⟩, (0 : ℕ), ()⟩
  have hall : R.Outputs [((0 : ℕ), (5 : ℕ))] := ⟨_, .single (.work (.emit rfl))⟩
  have hnow : OnClock R.startTime none (0 : ℕ) := ⟨by decide, by simp⟩
  obtain ⟨polls, -, -, -, -, hpre⟩ := stream_delivers Script.deterministic Script.awaitsEmissions
    (.refl (none, streamOf R)) hnow hall (by simp)
  exact ⟨inferInstance, polls, hpre⟩

end Cozal.Adapters
