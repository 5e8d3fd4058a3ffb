import Cozal.Lib.Spacing
import Cozal.Source.Evictions

namespace Cozal

open Transposer

/-!
# Where the checkpoints are

When the steps are saturated one after the other, the checkpoints that are kept are evenly spaced:
the one that is given up has the fewest trailing zeros, so it is the least divisible by powers of
two.

* `two_pow_dvd_iff_le_trailingZeros` — what the number of trailing zeros says.
* `Steps.SaturatedInOrder` — the runs that saturate the steps in order.
* `Steps.Spaced` — the checkpoints after such a run.
-/

variable {T : Type} [Transposer T]

/-- The trailing zeros of a positive number count the powers of two it is divisible by. -/
theorem two_pow_dvd_iff_le_trailingZerosOf {bits n : ℕ} (hpos : 0 < n) (hlt : n < 2 ^ bits)
    (k : ℕ) : 2 ^ k ∣ n ↔ k ≤ trailingZerosOf bits n := by
  induction bits generalizing n k with
  | zero => omega
  | succ bits ih =>
    rw [trailingZerosOf]
    rcases Nat.mod_two_eq_zero_or_one n with heven | hodd
    -- half of an even number has one trailing zero less
    · obtain ⟨m, rfl⟩ := Nat.dvd_of_mod_eq_zero heven
      rw [pow_succ'] at hlt
      have ih := ih (n := m) (by omega) (by omega)
      rw [if_neg (by omega), Nat.mul_div_cancel_left m (by omega)]
      cases k with
      | zero => simp
      | succ k =>
        rw [pow_succ', Nat.mul_dvd_mul_iff_left (by omega), ih]
        omega
    · rw [if_pos hodd]
      cases k with
      | zero => simp
      | succ k =>
        refine iff_of_false ?_ (by omega)
        intro hdvd
        have htwo : 2 ∣ n := (Dvd.intro_left _ (pow_succ 2 k).symm).trans hdvd
        omega

/-- A `usize` is divisible by as many twos as it has trailing zeros. -/
theorem two_pow_dvd_iff_le_trailingZeros {n : ℕ} (hpos : 0 < n) (hlt : n < usizeSize) (k : ℕ) :
    2 ^ k ∣ n ↔ k ≤ trailingZeros n :=
  two_pow_dvd_iff_le_trailingZerosOf hpos hlt k

namespace Steps

variable {s s' : Steps T}

/-- The step of a sequence number becomes a checkpoint. -/
def Saturates (s s' : Steps T) (n : ℕ) : Prop := n ∉ s.notUnsaturated ∧ n ∈ s'.notUnsaturated

/-- A call that neither pins a time nor forgets steps. -/
def Call.Plain : Call T → Prop
  | .getBeforeOrAt _ _ pinnedTimes => pinnedTimes = []
  | .getBeforeOrAtEvents _ pinnedTimes => pinnedTimes = []
  | .deleteBefore _ => False
  | .poll _ _ _ => True

/-- A plain call has pinned no times. -/
theorem Call.Plain.pinnedTimes {c : Call T} (h : c.Plain) : c.pinnedTimes = [] := by
  cases c with
  | getBeforeOrAt _ _ _ | getBeforeOrAtEvents _ _ => exact h
  | deleteBefore _ | poll _ _ _ => rfl

/-- The checkpoints after the steps up to `n` have been saturated in order: all of them while there
    is room, and then as many as there may be, evenly spaced. -/
structure Spaced (s : Steps T) (n : ℕ) : Prop where
  kept : s.numDeletedSteps = 0
  never_deleted : s.deletedBefore = none
  number : s.numberOfCheckpoints = 30
  newest : n ∈ s.notUnsaturated
  checkpoints : (n + 1 < 30 ∧ s.notUnsaturated = Finset.range (n + 1)) ∨
    (30 ≤ n + 1 ∧ s.notUnsaturated.card = 30 ∧ ∃ k, EvenlySpaced 2 k n s.notUnsaturated)

/-- At first the only checkpoint is 0. -/
theorem Spaced.new (transposer : T) (startTime : Time T) (rngSeed : Seed T) :
    (Steps.new transposer startTime rngSeed).Spaced 0 where
  kept := rfl
  never_deleted := rfl
  number := rfl
  newest := Finset.mem_singleton_self 0
  checkpoints := Or.inl ⟨by omega, rfl⟩

/-- In either case the checkpoints are evenly spaced. -/
theorem Spaced.evenlySpaced {n : ℕ} (h : s.Spaced n) :
    ∃ k, EvenlySpaced 2 k n s.notUnsaturated := by
  rcases h.checkpoints with ⟨-, hrange⟩ | ⟨-, -, hk⟩
  · rw [hrange]
    exact ⟨0, evenlySpaced_range 2 n⟩
  · exact hk

/-- There are as many checkpoints as there may be. -/
theorem Spaced.card {n : ℕ} (h : s.Spaced n) : s.notUnsaturated.card = min (n + 1) 30 := by
  rcases h.checkpoints with ⟨hlt, hrange⟩ | ⟨hle, hcard, -⟩
  · rw [hrange, Finset.card_range, min_eq_left hlt.le]
  · rw [hcard, min_eq_right hle]

/-- The step that was saturated last is the last checkpoint. -/
theorem Spaced.last {n : ℕ} (h : s.Spaced n) : OrdSet.last s.notUnsaturated = some n := by
  obtain ⟨k, hk⟩ := h.evenlySpaced
  exact OrdSet.last_eq_some.mpr ⟨h.newest, hk.le⟩

/-- What the checkpoints are depends only on what the push leaves as it is. -/
theorem Spaced.of_eq {n : ℕ} (h : s.Spaced n) (hnum : s'.numDeletedSteps = s.numDeletedSteps)
    (hdel : s'.deletedBefore = s.deletedBefore)
    (hnumber : s'.numberOfCheckpoints = s.numberOfCheckpoints)
    (hcheck : s'.notUnsaturated = s.notUnsaturated) : s'.Spaced n where
  kept := hnum.trans h.kept
  never_deleted := hdel.trans h.never_deleted
  number := hnumber.trans h.number
  newest := by rw [hcheck]; exact h.newest
  checkpoints := by rw [hcheck]; exact h.checkpoints

section Build

variable [BuildProfile]

/-- The steps after calls that have saturated the steps 1, 2, ..., `n` in this order, and no
    others. -/
inductive SaturatedInOrder (transposer : T) (startTime : Time T) (rngSeed : Seed T) :
    ℕ → Steps T → Prop where
  | new : SaturatedInOrder transposer startTime rngSeed 0 (.new transposer startTime rngSeed)
  | other {n s s'} {c : Call T} : SaturatedInOrder transposer startTime rngSeed n s → c.Plain →
      c.Does s s' → (∀ m, ¬ s.Saturates s' m) →
      SaturatedInOrder transposer startTime rngSeed n s'
  | next {n s s'} {c : Call T} : SaturatedInOrder transposer startTime rngSeed n s → c.Plain →
      c.Does s s' → s.Saturates s' (n + 1) →
      SaturatedInOrder transposer startTime rngSeed (n + 1) s'

/-- What is given up for the step after the last checkpoint, when there is no room and no time is
    pinned: a checkpoint other than the first one, with as few trailing zeros as possible. -/
theorem sequenceNumberToDelete_least (h : s.Sound) (hdel : s.deletedBefore = none) {n d : ℕ}
    (hlast : OrdSet.last s.notUnsaturated = some n)
    (hr : s.sequenceNumberToDelete [] (n + 1) = .ok (some d)) :
    s.numberOfCheckpoints ≤ s.notUnsaturated.card ∧ d ∈ s.notUnsaturated ∧
      d ≠ s.numDeletedSteps ∧
      ∀ m ∈ s.notUnsaturated, m ≠ s.numDeletedSteps → trailingZeros d ≤ trailingZeros m := by
  simp only [sequenceNumberToDelete, h.first_checkpoint, hlast, hdel, pinnedSteps,
    Outcome.unwrap_some, Outcome.ok_bind, Outcome.pure_eq, Option.mem_def, reduceCtorEq,
    false_and, exists_false, if_false, ne_eq, not_true_eq_false, List.nil_append,
    Outcome.bind_eq_ok] at hr
  obtain ⟨front, -, hr⟩ := hr
  split at hr
  · cases hr
  · rename_i hroom
    have hmin := Outcome.ok.inj hr
    obtain ⟨hd, hne⟩ := Finset.mem_filter.mp (OrdSet.minByKey_mem hmin)
    refine ⟨not_lt.mp hroom, hd, fun heq => hne (List.mem_singleton.mpr heq), ?_⟩
    intro m hm hmne
    exact OrdSet.minByKey_le hmin
      (Finset.mem_filter.mpr ⟨hm, fun hl => hmne (List.mem_singleton.mp hl)⟩)

/-- **Saturating the next step** keeps the checkpoints spaced. -/
theorem Spaced.saturate {n : ℕ} (h : s.Spaced n) (hs : s.Sound) (hn : n + 1 < usizeSize)
    {prev step : Step T} (hprev : s.steps[n]? = some prev) (hsat : prev.isSaturated = true)
    (hstep : s.steps[n + 1]? = some step) (hunsat : step.isUnsaturated = true)
    (hs' : s.saturate (s.numDeletedSteps + (n + 1)) [] = .ok s') : s'.Spaced (n + 1) := by
  obtain ⟨w, hw⟩ := Step.isSaturated_iff.mp hsat
  obtain ⟨r, f, hr, -, hgiven⟩ := saturate_givenUp hs hprev hw hstep
    (Step.isUnsaturated_iff.mp hunsat) hs'
  have hcheck := hgiven.checkpoints
  obtain ⟨hkept, hdel, hnumber⟩ : s'.numDeletedSteps = 0 ∧ s'.deletedBefore = none ∧
      s'.numberOfCheckpoints = 30 := by
    cases hgiven with
    | front _ _ hb _ => rw [h.never_deleted] at hb; cases hb
    | nothing _ | checkpoint _ _ => exact ⟨h.kept, h.never_deleted, h.number⟩
  rw [h.kept, Nat.zero_add] at hr hcheck
  obtain ⟨k, hk⟩ := h.evenlySpaced
  have hnew : n + 1 ∉ s.notUnsaturated := by
    intro hmem
    have hle := hk.le _ hmem
    omega
  refine ⟨hkept, hdel, hnumber, by rw [hcheck]; exact Finset.mem_insert_self _ _, ?_⟩
  cases r with
  | none =>
    -- nothing is given up, so there was room, and no checkpoint has been given up so far
    have hroom : s.notUnsaturated.card < 30 := by
      rcases sequenceNumberToDelete_none hr with hroom | hneeded
      · rwa [h.number] at hroom
      · rw [List.length_nil] at hneeded
        omega
    rcases h.checkpoints with ⟨hlt, hrange⟩ | ⟨-, hcard, -⟩
    · have hrange' : s'.notUnsaturated = Finset.range (n + 1 + 1) := by
        rw [hcheck, hrange, Finset.range_add_one (n := n + 1)]
        rfl
      rcases Nat.lt_or_ge (n + 1 + 1) 30 with hlt' | hge
      · exact Or.inl ⟨hlt', hrange'⟩
      · rw [hrange']
        exact Or.inr ⟨hge, by rw [Finset.card_range]; omega, 0, evenlySpaced_range 2 (n + 1)⟩
    · omega
  | some d =>
    obtain ⟨hfull, hd, hdne, hleast⟩ :=
      sequenceNumberToDelete_least hs h.never_deleted h.last hr
    rw [h.kept] at hdne hleast
    have hcard : s.notUnsaturated.card = 30 := by
      have hcard := h.card
      rw [h.number] at hfull
      omega
    have hdlt : d < usizeSize := (hk.le d hd).trans_lt (by omega)
    have hdleast : LeastDivisible 2 d s.notUnsaturated := by
      refine ⟨hd, Nat.pos_of_ne_zero hdne, ?_⟩
      intro m hm hmpos j hj
      have hmlt : m < usizeSize := (hk.le m hm).trans_lt (by omega)
      rw [two_pow_dvd_iff_le_trailingZeros hmpos hmlt]
      rw [two_pow_dvd_iff_le_trailingZeros (Nat.pos_of_ne_zero hdne) hdlt] at hj
      exact hj.trans (hleast m hm hmpos.ne')
    obtain ⟨k', hk'⟩ := hk.evict le_rfl hdleast
    refine Or.inr ⟨?_, ?_, k', by rw [hcheck]; exact hk'⟩
    · have hcard' := h.card
      omega
    · rw [hcheck]
      show (insert (n + 1) (s.notUnsaturated.erase d)).card = 30
      rw [Finset.card_insert_of_notMem (fun hm => hnew (Finset.mem_of_mem_erase hm)),
        Finset.card_erase_add_one hd, hcard]

/-- A call that saturates no step leaves the checkpoints as they are; one that saturates the next
    step keeps them spaced. -/
theorem Spaced.starts {n : ℕ} (h : s.Spaced n) (hs : s.Sound) (hstarts : Starts s [] s') :
    ((∀ m, ¬ s.Saturates s' m) → s'.Spaced n) ∧
      (n + 1 < usizeSize → s.Saturates s' (n + 1) → s'.Spaced (n + 1)) := by
  cases hstarts with
  | nothing => exact ⟨fun _ => h, fun _ hsat => absurd hsat.2 hsat.1⟩
  | @saturate j prev step s' hprev hsat hstep hunsat hs' =>
    obtain ⟨w, hw⟩ := Step.isSaturated_iff.mp hsat
    obtain ⟨r, f, -, -, hgiven⟩ := saturate_givenUp hs hprev hw hstep
      (Step.isUnsaturated_iff.mp hunsat) hs'
    have hnot := hs.not_mem_checkpoints hstep hunsat
    have hcheck := hgiven.checkpoints
    constructor
    · intro hnone
      refine absurd ⟨hnot, ?_⟩ (hnone (s.numDeletedSteps + (j + 1)))
      rw [hcheck]
      exact Finset.mem_insert_self _ _
    · rintro hn ⟨hnew, hmem⟩
      have hj := hgiven.eq_of_new hnew hmem
      rw [h.kept, Nat.zero_add] at hj
      obtain rfl := Nat.succ.inj hj
      exact h.saturate hs hn hprev hsat hstep hunsat hs'

/-- **A plain call keeps the checkpoints spaced.** -/
theorem Spaced.does {n : ℕ} (h : s.Spaced n) (hs : s.Sound) {c : Call T} (hplain : c.Plain)
    (hdoes : c.Does s s') :
    ((∀ m, ¬ s.Saturates s' m) → s'.Spaced n) ∧
      (n + 1 < usizeSize → s.Saturates s' (n + 1) → s'.Spaced (n + 1)) := by
  cases hdoes.cases hs with
  | @starts _ s₁ _ hpushed hstarts =>
    have h₁ : s₁.Spaced n := by
      refine h.of_eq ?_ ?_ hpushed.numberOfCheckpoints hpushed.notUnsaturated <;>
        cases hpushed <;> rfl
    rw [hplain.pinnedTimes] at hstarts
    have hboth := h₁.starts (hpushed.sound hs) hstarts
    simpa only [Saturates, hpushed.notUnsaturated] using hboth
  | ignored | forget => cases hplain
  | poll => exact ⟨fun _ => h.of_eq rfl rfl rfl rfl, fun _ hsat => absurd hsat.2 hsat.1⟩

variable {transposer : T} {startTime : Time T} {rngSeed : Seed T} {n : ℕ}

/-- The invariant of the steps holds in such a run. -/
theorem SaturatedInOrder.sound (h : SaturatedInOrder transposer startTime rngSeed n s) :
    s.Sound := by
  induction h with
  | new => exact .new transposer startTime rngSeed
  | other _ _ hdoes _ ih | next _ _ hdoes _ ih => exact sound_of_moves (hdoes.moves ih) ih

/-- **The checkpoints stay spaced** in a run that saturates the steps in order. -/
theorem SaturatedInOrder.spaced (h : SaturatedInOrder transposer startTime rngSeed n s)
    (hn : n < usizeSize) : s.Spaced n := by
  induction h with
  | new => exact .new transposer startTime rngSeed
  | other hrun hplain hdoes hnone ih =>
    exact ((ih hn).does hrun.sound hplain hdoes).1 hnone
  | next hrun hplain hdoes hsat ih =>
    exact ((ih (Nat.lt_of_succ_lt hn)).does hrun.sound hplain hdoes).2 hn hsat

end Build

end Steps

/-- **The checkpoints are evenly spaced.**  After a run that saturates the steps up to `n` in order,
    with no pinned times and without forgetting any, there are as many checkpoints as steps, or
    their intended number; they hold a grid whose width is a power of two, and but for the newest
    one they lie in the next finer grid.  So they are at most the width apart, and but for the
    newest one at least half of it.  A sequence number is a `usize`. -/
theorem checkpoints_evenly_spaced [BuildProfile] {transposer : T} {startTime : Time T}
    {rngSeed : Seed T} {n : ℕ} {s : Steps T}
    (h : Steps.SaturatedInOrder transposer startTime rngSeed n s) (hn : n < usizeSize) :
    s.notUnsaturated.card = min (n + 1) s.numberOfCheckpoints ∧
      ∃ k, EvenlySpaced 2 k n s.notUnsaturated ∧
        ∀ a c, a ∈ s.notUnsaturated → c ∈ s.notUnsaturated → a < c →
          (∀ m ∈ s.notUnsaturated, a < m → c ≤ m) →
          c - a ≤ 2 ^ k ∧ (c ≠ n → 2 ^ (k - 1) ≤ c - a) := by
  have hspaced := h.spaced hn
  obtain ⟨k, hk⟩ := hspaced.evenlySpaced
  refine ⟨by rw [hspaced.number, hspaced.card], k, hk, ?_⟩
  intro a c ha hc hac hnext
  exact ⟨hk.gap_le le_rfl hc hac hnext, hk.le_gap ha hc hac⟩

/-- After the second step has been saturated both steps are checkpoints. -/
theorem checkpoints_evenly_spaced_script :
    ∃ (_ : BuildProfile) (s : Steps Script) (k : ℕ),
      s.notUnsaturated.card = min 2 s.numberOfCheckpoints ∧
      EvenlySpaced 2 k 1 s.notUnsaturated := by
  let _ : BuildProfile := debugBuild
  have hnew := @Steps.SaturatedInOrder.new Script _ _ ⟨[.schedule 3], [], [], 0⟩ (0 : ℕ) ()
  have hinit := hnew.other (c := .poll 0 20 []) trivial (.poll 0 20 [] rfl rfl rfl)
    (fun m hm => hm.1 hm.2)
  obtain ⟨s, hfirst⟩ : ∃ s, Steps.SaturatedInOrder _ _ _ 1 s := by
    refine ⟨_, hinit.next ?_ (.getBeforeOrAt 5 (3 : ℕ) [] rfl) ⟨?_, ?_⟩⟩
    · exact rfl
    · show (1 : ℕ) ∉ ({0} : Finset ℕ)
      decide
    · exact Finset.mem_insert_self 1 _
  obtain ⟨hcard, k, hk, -⟩ := checkpoints_evenly_spaced hfirst (by decide)
  exact ⟨inferInstance, s, k, hcard, hk⟩

end Cozal
