import Mathlib.Logic.Function.Iterate
import Cozal.Source.ForwardOnly

namespace Cozal.Testing

open Transposer

/-!
# The transposer of the test program

`CollatzTransposer` holds a number.  Ten times a second it emits the number and replaces it by the
next one of the Collatz sequence.

* `CollatzHandler` — the bodies of `init` and `handle_scheduled`, suspended.
* `Waits` — the state between two events: a value, and one event scheduled.
* `Waits.completes` — the event emits the value and leaves the next one waiting.
* `outputs_iff`, `due_iff` — what the transposer emits, and when: as long as nothing overflows, the
  orbit of the value, one number every 100 ms.
-/

/-- Nanoseconds of an `Instant` since some origin.  They are unbounded here, whereas in the standard
    library `Instant + Duration` panics when the sum cannot be represented: what is shown holds as
    long as no time that is due is out of the range of an `Instant`. -/
abbrev Instant := ℕ

/-- `Duration::from_millis`. -/
def fromMillis (ms : ℕ) : ℕ := ms * 1000000

/-- A tenth of a second later is later. -/
theorem lt_add_fromMillis (time : Instant) : time < time + fromMillis 100 :=
  Nat.lt_add_of_pos_right (by decide)

/-! ### The sequence -/

/-- The Collatz sequence, without overflow. -/
def collatz (n : ℕ) : ℕ := if n % 2 = 0 then n / 2 else n * 3 + 1

/-- No number that the sequence comes to is too large for a `usize`. -/
def Fits (value : ℕ) : Prop := ∀ n, collatz^[n] value < usizeSize

/-- When the `n`-th event is due. -/
def due (startTime : Instant) (n : ℕ) : Instant := startTime + fromMillis 100 * n

/-- The first event is due at the start. -/
theorem due_zero (startTime : Instant) : due startTime 0 = startTime := by
  rw [due, Nat.mul_zero, Nat.add_zero]

/-- Each event is due a tenth of a second after the one before it. -/
theorem due_succ (startTime : Instant) (n : ℕ) :
    due startTime (n + 1) = due startTime n + fromMillis 100 := by
  rw [due, due, Nat.mul_succ, Nat.add_assoc]

/-- The first `n` events. -/
def events (startTime : Instant) (value n : ℕ) : List (Instant × ℕ) :=
  (List.range n).map fun i => (due startTime i, collatz^[i] value)

/-- One more event is that of the next value, when it is due. -/
theorem events_succ (startTime : Instant) (value n : ℕ) : events startTime value (n + 1)
    = events startTime value n ++ [(due startTime n, collatz^[n] value)] := by
  rw [events, List.range_succ, List.map_append]
  rfl

/-- Fewer events are a prefix of more. -/
theorem events_prefix (startTime : Instant) (value : ℕ) {n m : ℕ} (h : n ≤ m) :
    events startTime value n <+: events startTime value m := by
  induction m, h using Nat.le_induction with
  | base => exact List.prefix_rfl
  | succ m _ ih => exact ih.trans (events_succ startTime value m ▸ List.prefix_append _ _)

/-- The first events are those of the first values, each when it is due. -/
theorem mem_events {startTime : Instant} {value n : ℕ} {x : Instant × ℕ} :
    x ∈ events startTime value n ↔ ∃ i < n, (due startTime i, collatz^[i] value) = x := by
  simp [events]

/-! ### The transposer -/

/-- The transposer holds the current number. -/
structure CollatzTransposer where
  value : ℕ
deriving DecidableEq, Repr

/-- The bodies of `init` and `handle_scheduled`, at the calls they make on their context.  A body
    that has panicked is never resumed; it is told here as one that waits for ever. -/
inductive CollatzHandler where
  | init (t : CollatzTransposer)
  | schedule (t : CollatzTransposer) (time : Instant)
  | finish (t : CollatzTransposer)
  | emit (t : CollatzTransposer)
  | update (t : CollatzTransposer)
  | panicked
deriving DecidableEq, Repr

namespace CollatzTransposer

variable [BuildProfile]

/-- Start with the given number. -/
def new (value : ℕ) : CollatzTransposer := ⟨value⟩

/-- What becomes of the value. -/
def next (value : ℕ) : Outcome ℕ :=
  if value % 2 = 0 then return value / 2
  else do
    let m ← usizeMul value 3
    usizeAdd m 1

end CollatzTransposer

/-- The `unwrap` of what `schedule_event` returns, and the end of the body. -/
def CollatzHandler.unwrap (t : CollatzTransposer) :
    Except ScheduleEventError Unit → CollatzHandler
  | .ok () => .finish t
  | .error _ => .panicked

/-- The next call that a body makes. -/
def CollatzHandler.resume [BuildProfile] : CollatzHandler →
    HandlerStep CollatzTransposer Instant Unit ℕ (List UInt8) Unit CollatzHandler
  | .init t => .currentTime (fun now => .schedule t now)
  | .schedule t time => .scheduleEvent time () (.unwrap t)
  | .finish t => .done t
  | .emit t => .emitEvent t.value true (.update t)
  | .update t =>
      match CollatzTransposer.next t.value with
      | .ok value => .currentTime (fun now => .schedule ⟨value⟩ (now + fromMillis 100))
      | _ => .await (fun _ => .panicked)
  | .panicked => .await (fun _ => .panicked)

/-- The transposer emits numbers at instants, and has no inputs and no state to interpolate. -/
instance [BuildProfile] : Transposer CollatzTransposer where
  Time := Instant
  OutputEvent := ℕ
  OutputState := Unit
  Scheduled := Unit
  Rng := List UInt8
  Seed := List UInt8
  fromSeed := id
  Response := Unit
  Handler := CollatzHandler
  Interpolating := Unit
  resume := CollatzHandler.resume
  resumeInterpolation _ := .done ()
  init t := .init t
  handleScheduled t _ := .emit t
  interpolate _ _ _ := ()
  Input := Empty
  InputEvent := Empty.elim
  sort := Empty.elim
  handleInput _ input := input.elim
  sortInputEvents _ input := input.elim

namespace CollatzTransposer

variable [BuildProfile]

/-- No answer changes what the bodies do. -/
theorem deterministic : Deterministic CollatzTransposer where
  handler := fun _ _ _ => rfl
  interpolation := fun _ _ _ => rfl

/-- The only emission is awaited. -/
theorem awaitsEmissions : AwaitsEmissions CollatzTransposer := by
  intro h e awaited k hr
  change CollatzHandler.resume h = _ at hr
  unfold CollatzHandler.resume at hr
  split at hr <;> try cases hr <;> rfl
  split at hr <;> cases hr

/-! ### One event after the other -/

/-- Between two events: the value, and one event scheduled. -/
structure Waits (w : WrappedTransposer CollatzTransposer) (time : Instant) (value : ℕ) : Prop where
  value : w.transposer = ⟨value⟩
  schedule : ∃ key : ScheduledTime Instant,
    w.metadata.schedule = OrdMap.empty.insert key () ∧ key.time = time
  handles : w.metadata.expireHandlesBackward = .empty

/-- The event that is scheduled is the next one. -/
theorem Waits.getNextScheduledTime {w : WrappedTransposer CollatzTransposer} {time : Instant}
    {value : ℕ} (h : Waits w time value) :
    ∃ key, w.metadata.getNextScheduledTime = some key ∧ key.time = time := by
  obtain ⟨key, hkey, htime⟩ := h.schedule
  refine ⟨key, ?_, htime⟩
  rw [TransposerMetaData.getNextScheduledTime, hkey]
  rfl

/-- A body that schedules at a time that has not passed goes on to its end. -/
theorem schedule_finishes {caller : Caller CollatzTransposer} {t : CollatzTransposer}
    {time : Instant} {cx : SubStepUpdateContext CollatzTransposer} (hle : cx.time.time ≤ time) :
    Run FutureStep (.running caller (CollatzHandler.schedule t time) cx) []
      (SaturationFuture.resumeCaller caller t { cx with
        metadata := cx.metadata.scheduleEvent (cx.nextKey time) ()
        currentEmissionIndex := cx.currentEmissionIndex + 1 }) := by
  have hscheduled : FutureStep (.running caller (CollatzHandler.schedule t time) cx) []
      (.running caller (CollatzHandler.finish t) { cx with
        metadata := cx.metadata.scheduleEvent (cx.nextKey time) ()
        currentEmissionIndex := cx.currentEmissionIndex + 1 }) :=
    .next (SaturationFuture.advance_scheduleEvent (k := CollatzHandler.unwrap t) rfl hle)
  exact .head hscheduled (.single (.next (SaturationFuture.advance_done rfl)))

/-- Nothing is due when the one event is scheduled for another time. -/
theorem draining_ready {time : SubStepTime Instant} {t : CollatzTransposer}
    {cx : SubStepUpdateContext CollatzTransposer} {key : ScheduledTime Instant}
    (hkey : cx.metadata.schedule = OrdMap.empty.insert key ()) (hne : key.time ≠ time.time) :
    SaturationFuture.advance (.draining time t cx) = .ready ⟨t, cx.metadata⟩ := by
  have hfirst : cx.metadata.getNextScheduledTime = some key := by
    rw [TransposerMetaData.getNextScheduledTime, hkey]
    rfl
  rw [SaturationFuture.advance, if_neg]
  rw [hfirst]
  exact fun h => hne (Option.some.inj h)

/-- The loop over what is due handles the one event there is. -/
theorem draining_completes {time : SubStepTime Instant} {value value' : ℕ}
    {cx : SubStepUpdateContext CollatzTransposer} {key : ScheduledTime Instant}
    (hkey : cx.metadata.schedule = OrdMap.empty.insert key ()) (hdue : key.time = time.time)
    (hhandles : cx.metadata.expireHandlesBackward = .empty) (hnow : cx.time.time = time.time)
    (hswallow : cx.outputsToSwallow = 0) (hnext : next value = .ok value') :
    ∃ w', Completes (.draining time ⟨value⟩ cx) [value] w' ∧
      Waits w' (time.time + fromMillis 100) value' := by
  have hlater : cx.time.time < time.time + fromMillis 100 := hnow ▸ lt_add_fromMillis _
  -- the event is taken off the schedule, which leaves nothing there
  have hpop : cx.metadata.popFirstEvent = some ((key, ()), { cx.metadata with
      schedule := .empty, expireHandlesBackward := .empty }) := by
    unfold TransposerMetaData.popFirstEvent
    rw [hkey, OrdMap.popFirst_insert_empty, hhandles]
    rfl
  have hfirst : cx.metadata.getNextScheduledTime.map (·.time) = some time.time := by
    rw [TransposerMetaData.getNextScheduledTime, hkey]
    exact congrArg some hdue
  have htake : FutureStep (.draining time ⟨value⟩ cx) [] (.running (.scheduled time)
      (CollatzHandler.emit ⟨value⟩) { cx with metadata := { cx.metadata with
        schedule := .empty, expireHandlesBackward := .empty } }) :=
    .next (by rw [SaturationFuture.advance, if_pos hfirst, hpop]; rfl)
  generalize hcx : ({ cx with metadata := { cx.metadata with
    schedule := .empty, expireHandlesBackward := .empty } } :
      SubStepUpdateContext CollatzTransposer) = cx' at htake
  have hemit : FutureStep (.running (.scheduled time) (CollatzHandler.emit ⟨value⟩) cx') [value]
      (.running (.scheduled time) (CollatzHandler.update ⟨value⟩) cx') :=
    .emit (SaturationFuture.advance_emitEvent rfl (hcx ▸ hswallow))
  have hupdate : FutureStep (.running (.scheduled time) (CollatzHandler.update ⟨value⟩) cx') []
      (.running (.scheduled time)
        (CollatzHandler.schedule ⟨value'⟩ (time.time + fromMillis 100)) cx') := by
    have hresume : CollatzHandler.resume (.update ⟨value⟩) = .currentTime fun now : Instant =>
        .schedule ⟨value'⟩ (now + fromMillis 100) := by
      simp only [CollatzHandler.resume, hnext]
    refine .next (l := .internal) ((SaturationFuture.advance_currentTime hresume).trans ?_)
    rw [← hcx, hnow]
  have hrun := (((Run.single htake).tail hemit).tail hupdate).trans
    (schedule_finishes (hcx ▸ hlater.le))
  -- the next event is the only one, and it is not due
  have hschedule :
      (cx'.metadata.scheduleEvent (cx'.nextKey (time.time + fromMillis 100)) ()).schedule
      = OrdMap.empty.insert (cx'.nextKey (time.time + fromMillis 100)) () := by
    rw [← hcx]
    rfl
  have hhandles' : cx'.metadata.expireHandlesBackward = .empty := by
    rw [← hcx]
  have hready : SaturationFuture.advance (.draining ⟨time.index + 1, time.time⟩ ⟨value'⟩ { cx' with
      metadata := { cx'.metadata.scheduleEvent (cx'.nextKey (time.time + fromMillis 100)) () with
        lastUpdated := time }
      currentEmissionIndex := cx'.currentEmissionIndex + 1 }) = .ready _ :=
    draining_ready hschedule (lt_add_fromMillis _).ne'
  exact ⟨_, ⟨_, hrun, hready⟩, rfl, ⟨_, hschedule, rfl⟩, hhandles'⟩

/-- **An event** emits the value and leaves the next one waiting. -/
theorem Waits.completes {w : WrappedTransposer CollatzTransposer} {time : Instant}
    {value value' : ℕ} (h : Waits w time value) (hnext : next value = .ok value') :
    ∃ w', Completes (w.handleScheduled time 0) [value] w' ∧
      Waits w' (time + fromMillis 100) value' := by
  obtain ⟨t, m⟩ := w
  obtain ⟨rfl, ⟨key, hkey, htime⟩, hhandles⟩ := h
  exact draining_completes hkey htime hhandles rfl rfl hnext

/-- **The start** schedules an event there and then, which emits the value. -/
theorem init_completes {value value' : ℕ} {rngSeed : List UInt8} {startTime : Instant}
    (hnext : next value = .ok value') :
    ∃ w', Completes (WrappedTransposer.init (⟨value⟩ : CollatzTransposer) rngSeed startTime 0)
      [value] w' ∧ Waits w' (startTime + fromMillis 100) value' := by
  have hnow : FutureStep
      (WrappedTransposer.init (⟨value⟩ : CollatzTransposer) rngSeed startTime 0) []
      (.running (.init startTime) (CollatzHandler.schedule ⟨value⟩ startTime)
        (.new (.newInit startTime) (.new rngSeed startTime) 0)) := .next (l := .internal) rfl
  have hrun := (Run.single hnow).trans (schedule_finishes le_rfl)
  let m : TransposerMetaData CollatzTransposer :=
    (TransposerMetaData.new rngSeed startTime).scheduleEvent
      ((SubStepTime.newInit startTime).spawnScheduled startTime 0) ()
  have hstart : Waits ⟨⟨value⟩, m⟩ startTime value := ⟨rfl, ⟨_, rfl, rfl⟩, rfl⟩
  obtain ⟨w', ⟨g, hg, hw⟩, hwaits⟩ := hstart.completes hnext
  exact ⟨w', ⟨g, hrun.trans hg, hw⟩, hwaits⟩

/-! ### What is emitted, and when -/

/-- As long as nothing overflows, the next value is that of the sequence. -/
theorem next_eq_collatz {value : ℕ} (h : collatz value < usizeSize) :
    next value = .ok (collatz value) := by
  unfold next collatz at *
  split
  · rfl
  · rename_i hodd
    rw [if_neg hodd] at h
    rw [usizeMul, fitting_of_lt (by omega), Outcome.ok_bind, usizeAdd, fitting_of_lt h]

variable {value : ℕ} {startTime : Instant} {rngSeed : List UInt8}

/-- **The due times** are 100 ms apart, and one number is emitted at each. -/
theorem point (h : Fits value) (startTime : Instant) (rngSeed : List UInt8) (n : ℕ) : ∃ f w,
    Reference.Point (⟨⟨value⟩, startTime, rngSeed⟩ : Reference CollatzTransposer) n
      (events startTime value n) (due startTime n) f ∧
    Completes f [collatz^[n] value] w ∧
    Waits w (due startTime (n + 1)) (collatz^[n + 1] value) := by
  have hnext : ∀ n, next (collatz^[n] value) = .ok (collatz^[n + 1] value) := by
    intro n
    have hiter : collatz^[n + 1] value = collatz (collatz^[n] value) :=
      Function.iterate_succ_apply' collatz n value
    rw [hiter]
    exact next_eq_collatz (hiter ▸ h (n + 1))
  induction n with
  | zero =>
    obtain ⟨w, hc, hwaits⟩ := init_completes (hnext 0)
    refine ⟨_, w, ?_, hc, ?_⟩
    · rw [due_zero]
      exact .init
    · rw [due_succ, due_zero]
      exact hwaits
  | succ n ih =>
    obtain ⟨f, w, hpoint, hc, hwaits⟩ := ih
    obtain ⟨key, hkey, htime⟩ := hwaits.getNextScheduledTime
    obtain ⟨w', hc', hwaits'⟩ := hwaits.completes (hnext (n + 1))
    refine ⟨_, w', ?_, hc', ?_⟩
    · have hpoint' := hpoint.next hc hkey
      rw [htime] at hpoint'
      rw [events_succ]
      exact hpoint'
    · rw [due_succ startTime (n + 1)]
      exact hwaits'

/-- The events of the transposer are the numbers of the sequence. -/
theorem outputs_iff (h : Fits value) {o : List (Instant × ℕ)} :
    Reference.Outputs (⟨⟨value⟩, startTime, rngSeed⟩ : Reference CollatzTransposer) o ↔
      ∃ n, o = events startTime value n := by
  constructor
  · rintro ⟨σ, hrun⟩
    obtain ⟨n, o', os, f, hpoint, hf, rfl⟩ := Reference.point_of_run hrun
    obtain ⟨f', w, hpoint', hc, -⟩ := point h startTime rngSeed n
    obtain ⟨rfl, htime, rfl⟩ := hpoint.unique deterministic hpoint'
    -- of the one event of the due time none is emitted, or all
    rcases List.prefix_cons_iff.mp (hc.covers deterministic ⟨_, hf⟩) with rfl | ⟨os, rfl, hos⟩
    · exact ⟨n, List.append_nil _⟩
    · refine ⟨n + 1, ?_⟩
      rw [events_succ, List.prefix_nil.mp hos, htime]
      rfl
  · rintro ⟨n, rfl⟩
    obtain ⟨f, w, hpoint, -, -⟩ := point h startTime rngSeed n
    exact ⟨_, hpoint.run⟩

/-- The due times of the reference. -/
theorem due_iff (h : Fits value) {t : Instant} :
    (⟨⟨value⟩, startTime, rngSeed⟩ : Reference CollatzTransposer).timetable.Due t ↔
      ∃ n, t = due startTime n := by
  constructor
  · rintro ⟨n, o, f, hpoint⟩
    obtain ⟨f', w, hpoint', -, -⟩ := point h startTime rngSeed n
    exact ⟨n, (hpoint.unique deterministic hpoint').2.1⟩
  · rintro ⟨n, rfl⟩
    obtain ⟨f, w, hpoint, -, -⟩ := point h startTime rngSeed n
    exact ⟨n, _, f, hpoint⟩

end CollatzTransposer

end Cozal.Testing
