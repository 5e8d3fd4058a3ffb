import Cozal.Adapters.NoInputSource
import Cozal.Testing.CollatzTransposer

namespace Cozal.Testing

open Transposer Adapters CollatzTransposer

/-!
# The test program

`main` makes a source of `CollatzTransposer`, turns it into a stream and prints what the stream
yields.

* `printInterrupt` — the closure of `for_each`.
* `prints_collatz` — in every run the program has printed the first numbers of the Collatz
  sequence, none before its time; it does not panic, and it sleeps until the next number is due.
* `keeps_pace` — it can always go on to print every number that is due.
* `fits_main` — nothing overflows for the value that `main` starts with.
-/

/-- What the closure of `for_each` prints. -/
def printInterrupt : Interrupt ℕ → Outcome ℕ
  | .event e => .ok e
  | .finalizedEvent e => .ok e
  | _ => .panic .unreachable

/-- The numbers printed, in order. -/
def printItems : List (Instant × Interrupt ℕ) → Outcome (List ℕ)
  | [] => .ok []
  | (_, i) :: rest => do
      let e ← printInterrupt i
      let es ← printItems rest
      return e :: es

/-- Finalized events are printed one after the other. -/
theorem printItems_finalized (xs : List (Instant × ℕ)) :
    printItems (xs.map finalized) = .ok (xs.map Prod.snd) := by
  induction xs with
  | nil => rfl
  | cons x xs ih =>
    show (printInterrupt (.finalizedEvent x.2) >>= fun e => printItems (xs.map finalized) >>= _) = _
    rw [ih]
    rfl

/-- The first events are printed as the first numbers of the sequence. -/
theorem printItems_events (start : Instant) (value n : ℕ) :
    printItems ((events start value n).map finalized)
      = .ok ((List.range n).map fun i => collatz^[i] value) := by
  rw [printItems_finalized, events, List.map_map]
  rfl

/-- Later events are due later. -/
theorem due_strictMono (start : Instant) : StrictMono (due start) := by
  refine strictMono_nat_of_lt_succ ?_
  intro n
  rw [due_succ]
  exact lt_add_fromMillis _

/-- No time is after all numbers. -/
theorem exists_lt_due (start now : Instant) : ∃ n, now < due start n := by
  refine ⟨now + 1, ?_⟩
  have hle : now + 1 ≤ fromMillis 100 * (now + 1) := Nat.le_mul_of_pos_left _ (by decide)
  exact lt_of_lt_of_le (Nat.lt_succ_self now) (hle.trans (Nat.le_add_left _ _))

/-- The value that `main` starts with. -/
def mainValue : ℕ := 27

/-- One starts at `27` and comes to `1` after `111` numbers, none of which is too large. -/
theorem fits_main : Fits mainValue := by
  have hone : ∀ n, collatz^[n] 1 = 1 ∨ collatz^[n] 1 = 4 ∨ collatz^[n] 1 = 2 := by
    intro n
    induction n with
    | zero => exact Or.inl rfl
    | succ n ih =>
      rw [Function.iterate_succ_apply']
      rcases ih with heq | heq | heq <;> rw [heq] <;> decide
  have hstart : ∀ n < 111, collatz^[n] mainValue < usizeSize := by decide +kernel
  intro n
  rcases Nat.lt_or_ge n 111 with hlt | hge
  · exact hstart n hlt
  · obtain ⟨m, rfl⟩ := Nat.exists_eq_add_of_le' hge
    have hpath : collatz^[111] mainValue = 1 := by decide +kernel
    rw [Function.iterate_add_apply, hpath]
    rcases hone m with heq | heq | heq <;> rw [heq] <;> decide

/-- The seed that `main` uses. -/
def mainSeed : List UInt8 := List.replicate 32 0

/-- The stream that `main` makes when it is started. -/
def mainStream [BuildProfile] (value : ℕ) (now : Instant) :
    InterruptStream (NoInputTransposerSource CollatzTransposer) :=
  .new (.new (CollatzTransposer.new value) now mainSeed)

section Run

variable [BuildProfile] {value : ℕ} {start : Instant} {clock : Option Instant}
  {polls : Polls (NoInputTransposerSource CollatzTransposer)}
  {s : InterruptStream (NoInputTransposerSource CollatzTransposer)}

/-- The reference of the source that `main` makes. -/
def mainReference (value : ℕ) (start : Instant) : Reference CollatzTransposer :=
  ⟨CollatzTransposer.new value, start, mainSeed⟩

/-- What a run of the program has done: the first `n` numbers have been printed, and everything
    else waits for the next one. -/
structure Prints (value : ℕ) (start : Instant) (n : ℕ)
    (polls : Polls (NoInputTransposerSource CollatzTransposer)) (clock : Option Instant)
    (s : InterruptStream (NoInputTransposerSource CollatzTransposer)) : Prop where
  numbers : printItems (items polls) = .ok ((List.range n).map fun i => collatz^[i] value)
  /-- They are due 100 ms apart, and none has been printed before. -/
  times : (items polls).map Prod.fst = (List.range n).map (due start)
  onTime : Adapters.OnTime polls
  /-- No call of `poll_next` panics. -/
  safe : ∀ rounds, Ticks start clock rounds → ∀ site, s.pollNext rounds ≠ .panic site
  /-- When it goes to sleep with no step in the middle of its work, it sleeps until the next
      number is due. -/
  sleeps : ∀ rounds s', Ticks start clock rounds → s.pollNext rounds = .ok (.pending, s') →
    ¬ s'.source.Busy → s'.currentWait = some (due start n)
  /-- It can go on to print every number that is due. -/
  keepsPace : ∀ now m, OnClock start clock now → due start m ≤ now →
    ∃ polls' clock' s' n', Run (StreamStep start) (clock, s) polls' (clock', s') ∧ m < n' ∧
      printItems (items (polls ++ polls')) = .ok ((List.range n').map fun i => collatz^[i] value)

open NoInputTransposerSource in
/-- What has been printed in a run. -/
theorem numbers_of_run (h : Fits value)
    (hrun : Run (StreamStep start) (none, mainStream value start) polls (clock, s)) :
    ∃ n, items polls = (events start value n).map finalized ∧ Adapters.OnTime polls ∧
      Forward (mainReference value start) clock (events start value n) s.source := by
  obtain ⟨out, hitems, htime, hforward⟩ := forward_of_run
    (R := mainReference value start) deterministic awaitsEmissions hrun
  obtain ⟨n, rfl⟩ := (outputs_iff h).mp hforward.outputs
  exact ⟨n, hitems, htime, hforward⟩

open NoInputTransposerSource in
/-- Where the stream goes to sleep the next number is the one it sleeps for. -/
theorem sleeps_of_parked (h : Fits value) {n : ℕ} {now : Instant} {wait : Option Instant}
    (hbefore : ∀ i < n, due start i ≤ now)
    (hcovers : ∀ t, (∀ u ∈ wait, t < u) →
      (mainReference value start).Covers (events start value n) t)
    (hnext : (mainReference value start).timetable.NextDue now wait) :
    wait = some (due start n) := by
  cases hnext with
  | none hnone =>
    obtain ⟨k, hk⟩ := exists_lt_due start now
    exact absurd (hnone _ ((due_iff h).mpr ⟨k, rfl⟩)) (not_le.mpr hk)
  | @some u hleast =>
    obtain ⟨⟨hdue, hlt⟩, hmin⟩ := hleast
    obtain ⟨k, rfl⟩ := (due_iff h).mp hdue
    rcases lt_trichotomy k n with hkn | rfl | hnk
    · exact absurd hlt (not_lt.mpr (hbefore k hkn))
    · rfl
    · -- the number itself would not be covered
      have hout : (mainReference value start).Outputs
          (events start value n ++ [(due start n, collatz^[n] value)]) :=
        (outputs_iff h).mpr ⟨n + 1, (events_succ start value n).symm⟩
      have hself := hcovers (due start n) (by
        rintro u ⟨rfl⟩
        exact due_strictMono start hnk) _ hout _ (List.mem_singleton.mpr rfl)
      exact absurd hself (lt_irrefl _)

end Run

open NoInputTransposerSource in
/-- **The test program prints the Collatz sequence**, whatever it starts with that does not
    overflow. -/
theorem prints_collatz [BuildProfile] {value : ℕ} {start : Instant} {clock : Option Instant}
    {polls : Polls (NoInputTransposerSource CollatzTransposer)}
    {s : InterruptStream (NoInputTransposerSource CollatzTransposer)} (h : Fits value)
    (hrun : Run (StreamStep start) (none, mainStream value start) polls (clock, s)) :
    ∃ n, Prints value start n polls clock s := by
  obtain ⟨n, hitems, htime, hforward⟩ := numbers_of_run h hrun
  have hserves := noInputTransposerSource_serves deterministic awaitsEmissions
    (mainReference value start)
  refine ⟨n, ?_, ?_, htime, ?_, ?_, ?_⟩
  · rw [hitems, printItems_events]
  · rw [hitems, List.map_map, events, List.map_map]
    rfl
  · exact fun rounds hticks site => hserves.pollNext_ne_panic hforward hticks site
  · intro rounds s' hticks hp hidle
    rcases hserves.parked hforward hticks hp with hbusy | ⟨⟨now, -, hclock, hnext⟩, hcovers⟩
    · exact absurd hbusy hidle
    · refine sleeps_of_parked h ?_ hcovers hnext
      -- what has been printed was due
      intro i hi
      have hmem : finalized (due start i, collatz^[i] value) ∈ items polls := by
        rw [hitems]
        exact List.mem_map_of_mem (mem_events.mpr ⟨i, hi, rfl⟩)
      obtain ⟨u, hu, hle⟩ := htime.by_clock hrun _ hmem
      exact hle.trans (hclock.forward u hu)
  · intro now m hnow hdue
    rcases Nat.lt_or_ge m n with hmn | hnm
    · exact ⟨[], clock, s, n, .refl _, hmn, by rw [List.append_nil, hitems, printItems_events]⟩
    · obtain ⟨more, hmore⟩ := events_prefix start value (Nat.le_succ_of_le hnm)
      have hle : ∀ x ∈ more, x.1 ≤ now := by
        intro x hx
        obtain ⟨i, hi, rfl⟩ := mem_events.mp (hmore ▸ List.mem_append_right _ hx)
        exact ((due_strictMono start).monotone (Nat.le_of_lt_succ hi)).trans hdue
      obtain ⟨clock', s', hrun'⟩ := hserves.delivers
        (noInputTransposerSource_delivers deterministic awaitsEmissions _) hforward hnow
        ((outputs_iff h).mpr ⟨m + 1, hmore⟩) hle
      refine ⟨_, clock', s', m + 1, hrun', Nat.lt_succ_self m, ?_⟩
      rw [items_append, items_map_ready, hitems, ← List.map_append, hmore, printItems_events]

/-- `main` is started, and polled once. -/
theorem prints_collatz_main :
    ∃ (_ : BuildProfile) (n : ℕ) (polls : Polls (NoInputTransposerSource CollatzTransposer))
      (clock : Option Instant) (s : InterruptStream (NoInputTransposerSource CollatzTransposer)),
      Prints mainValue 5 n polls clock s ∧ printItems (items polls) = .ok [27] := by
  let _ : BuildProfile := debugBuild
  let round : Round CollatzTransposer := ⟨[], 20, []⟩
  have hrun : Run (StreamStep (5 : ℕ)) (none, mainStream mainValue 5) _ _ :=
    .single (.round (r := ⟨(7 : ℕ), [round, round], false⟩) ⟨by decide, by simp⟩ rfl)
  obtain ⟨n, hn⟩ := prints_collatz fits_main hrun
  exact ⟨inferInstance, n, _, _, _, hn, rfl⟩

end Cozal.Testing
