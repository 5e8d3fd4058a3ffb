import Cozal.Source.Lookup

namespace Cozal

open Transposer

/-!
# The steps that channels wait for

A channel waits for the last step, or for an earlier one that is run again.  The steps move in
the deque while it waits, but they keep their sequence numbers.

* `Steps.RunsLast`, `Steps.RunsAgain` — what a channel that waits relies on.
* `Steps.RunsLast.saturate`, `Steps.RunsAgain.saturate` — a poll on another channel that starts a
  step keeps both, because the times of the channels that wait are pinned.
* `Steps.RunsLast.poll`, `Steps.RunsAgain.poll` — so does a poll of a step, unless it completes
  the step that is waited for.
* `Steps.RunsLast.forget`, `Steps.RunsAgain.forget` — so does `delete_before`, unless it forgets
  that step.
* `Steps.NextIsDue.pushed`, `Steps.LastIsDue.before`, `Steps.LastIsDue.events` — when the last
  step has completed and the next one is due, the poll that goes on starts that one.
-/

variable {T : Type} [Transposer T]

namespace Steps

variable {s s' : Steps T} {p : Time T} {n : ℕ} {x : Step T}

/-! ### Sequence numbers -/

/-- The sequence number of a step is its index plus the number of deleted steps. -/
theorem getBySequenceNumber_add (s : Steps T) (i : ℕ) :
    s.getBySequenceNumber (s.numDeletedSteps + i) = s.steps[i]? := by
  simp [getBySequenceNumber]

/-- Pushing a step leaves the others alone. -/
theorem Pushed.get_of (h : Pushed s s') (hx : s.getBySequenceNumber n = some x) :
    s'.getBySequenceNumber n = some x := by
  cases h with
  | none _ => exact hx
  | push _ _ _ =>
    obtain ⟨i, rfl, hi⟩ := getBySequenceNumber_eq_some.mp hx
    exact getBySequenceNumber_eq_some.mpr ⟨i, rfl, getElem?_push hi _⟩

/-- A step after a push was there before, or it is unsaturated. -/
theorem Pushed.get (h : Pushed s s') (hx : s'.getBySequenceNumber n = some x) :
    s.getBySequenceNumber n = some x ∨ x.isUnsaturated = true := by
  cases h with
  | none _ => exact Or.inl hx
  | push _ _ _ =>
    obtain ⟨i, rfl, hi⟩ := getBySequenceNumber_eq_some.mp hx
    rcases push_cases hi with hi | ⟨-, rfl⟩
    · exact Or.inl (getBySequenceNumber_eq_some.mpr ⟨i, rfl, hi⟩)
    · exact Or.inr rfl

/-- Pushing the next step deletes none. -/
theorem Pushed.total_le (h : Pushed s s') :
    s.numDeletedSteps + s.steps.length ≤ s'.numDeletedSteps + s'.steps.length := by
  cases h with
  | none _ => exact Nat.le_refl _
  | push _ _ _ => simp

section Saturate

variable {pinnedTimes : List (Time T)} {j : ℕ} {prev step : Step T} {w : WrappedTransposer T}

/-- A step that is saturating stays when it cannot be dispensed with. -/
theorem SaturateCases.get_of (h : SaturateCases s pinnedTimes j step w s')
    (hprev : s.steps[j]? = some prev) (hw : prev.status = .saturated w)
    (hstep : s.steps[j + 1]? = some step) (hunsat : step.status = .unsaturated)
    (hx : s.getBySequenceNumber n = some x) (hsat : x.isSaturating = true)
    (hneeded : ∀ d, n = s.numDeletedSteps + d → ¬ s.Dispensable pinnedTimes j d) :
    s'.getBySequenceNumber n = some x := by
  obtain ⟨m, rfl, hm⟩ := getBySequenceNumber_eq_some.mp hx
  have hne : m ≠ j + 1 := by
    rintro rfl
    rw [hstep, Option.some.injEq] at hm
    subst hm
    exact isSaturating_ne_unsaturated hsat hunsat
  cases h with
  | saturate d _ hd _ =>
    refine getBySequenceNumber_eq_some.mpr ⟨m, rfl, ?_⟩
    have hdm : d ≠ some m := by
      rintro rfl
      exact hneeded m rfl (hd m rfl)
    exact (getElem?_saturatedAt_of_ne hstep hne hdm).trans hm
  | @consume front rest f b hj hs _ _ _ =>
    subst hj
    rw [hs, List.getElem?_cons_zero, Option.some.injEq] at hprev
    subst hprev
    -- the first step is saturated, so it is not the one
    obtain ⟨m, rfl⟩ : ∃ k, m = k + 2 := by
      match m, hm, hne with
      | 0, hm, _ =>
        rw [hs, List.getElem?_cons_zero, Option.some.injEq] at hm
        subst hm
        exact absurd hw (isSaturating_ne_saturated hsat w)
      | 1, _, hne => exact absurd rfl hne
      | k + 2, _, _ => exact ⟨k, rfl⟩
    refine getBySequenceNumber_eq_some.mpr ⟨m + 1, ?_, ?_⟩
    · show s.numDeletedSteps + (m + 2) = s.numDeletedSteps + 1 + (m + 1)
      omega
    · rw [hs] at hm
      exact hm

/-- A step after another one has started is that one, or it was there before, or it is
    unsaturated. -/
theorem SaturateCases.get (h : SaturateCases s pinnedTimes j step w s')
    (hstep : s.steps[j + 1]? = some step) (hx : s'.getBySequenceNumber n = some x) :
    (n = s.numDeletedSteps + (j + 1) ∧ x.getTime = step.getTime) ∨
      s.getBySequenceNumber n = some x ∨ x.isUnsaturated = true := by
  obtain ⟨m, rfl, hm⟩ := getBySequenceNumber_eq_some.mp hx
  cases h with
  | saturate d _ _ _ =>
    rcases saturatedAt_cases hstep hm with ⟨rfl, rfl⟩ | ⟨-, -, y, -, rfl⟩ | ⟨-, -, hm⟩
    · exact Or.inl ⟨rfl, rfl⟩
    · exact Or.inr (Or.inr rfl)
    · exact Or.inr (Or.inl (getBySequenceNumber_eq_some.mpr ⟨m, rfl, hm⟩))
  | @consume front rest f b hj hs _ _ _ =>
    subst hj
    cases m with
    | zero =>
      cases hm
      exact Or.inl ⟨rfl, rfl⟩
    | succ m =>
      refine Or.inr (Or.inl (getBySequenceNumber_eq_some.mpr ⟨m + 2, ?_, ?_⟩))
      · show s.numDeletedSteps + 1 + (m + 1) = s.numDeletedSteps + (m + 2)
        omega
      · rw [hs]
        exact hm

end Saturate

/-- A step that is written is found under its number, and the others under theirs. -/
theorem get_setStep {i : ℕ} (hi : i < s.steps.length) (y : Step T) (n : ℕ) :
    (s.setStep i y).getBySequenceNumber n =
      if n = s.numDeletedSteps + i then some y else s.getBySequenceNumber n := by
  unfold getBySequenceNumber
  show (if s.numDeletedSteps ≤ n then (s.steps.set i y)[n - s.numDeletedSteps]? else none) = _
  by_cases hn : s.numDeletedSteps ≤ n
  · by_cases hni : n = s.numDeletedSteps + i
    · subst hni
      simp [hi]
    · rw [if_pos hn, if_pos hn, if_neg hni, List.getElem?_set_ne (by omega)]
  · rw [if_neg hn, if_neg hn, if_neg (by omega)]

/-- The steps that are not forgotten keep their numbers. -/
theorem get_forget {i : ℕ} (time : Time T) (hn : s.numDeletedSteps + i ≤ n) :
    (s.forget i time).getBySequenceNumber n = s.getBySequenceNumber n := by
  unfold getBySequenceNumber
  show (if s.numDeletedSteps + i ≤ n then (s.steps.drop i)[n - (s.numDeletedSteps + i)]?
    else none) = _
  rw [if_pos hn, if_pos (by omega), List.getElem?_drop]
  congr 1
  omega

/-! ### What a channel relies on -/

/-- The step of the sequence number `n` is saturating and not later than `p`. -/
structure Running (s : Steps T) (p : Time T) (n : ℕ) (x : Step T) : Prop where
  get : s.getBySequenceNumber n = some x
  saturating : x.isSaturating = true
  le : x.getTime ≤ p

/-- It is the last step. -/
structure RunsLast (s : Steps T) (p : Time T) (n : ℕ) (x : Step T) : Prop
    extends s.Running p n x where
  last : n + 1 = s.numDeletedSteps + s.steps.length

/-- It is the last checkpoint at or before `p`, and not the last step. -/
structure RunsAgain (s : Steps T) (p : Time T) (n : ℕ) (x : Step T) : Prop
    extends s.Running p n x where
  after : ∀ n' y, n < n' → s.getBySequenceNumber n' = some y → y.getTime ≤ p →
    y.isUnsaturated = true
  not_last : n + 1 < s.numDeletedSteps + s.steps.length

/-- The last step, by its index. -/
theorem RunsLast.getLast (h : s.RunsLast p n x) : s.steps[s.steps.length - 1]? = some x := by
  obtain ⟨i, rfl, hi⟩ := getBySequenceNumber_eq_some.mp h.get
  have hlast := h.last
  rw [show s.steps.length - 1 = i by omega]
  exact hi

/-- A last step that is saturating and due runs. -/
theorem runsLast_of_getLast (hx : s.steps[s.steps.length - 1]? = some x)
    (hsat : x.isSaturating = true) (hle : x.getTime ≤ p) :
    s.RunsLast p (s.numDeletedSteps + (s.steps.length - 1)) x := by
  have hlt := (List.getElem?_eq_some_iff.mp hx).1
  exact ⟨⟨getBySequenceNumber_eq_some.mpr ⟨_, rfl, hx⟩, hsat, hle⟩, by omega⟩

/-- The step that is run again, by its index. -/
theorem RunsAgain.latest (h : s.RunsAgain p n x) {d : ℕ} (hn : n = s.numDeletedSteps + d) :
    s.LatestCheckpoint p d x := by
  subst hn
  refine ⟨?_, isSaturating_not_unsaturated h.saturating, h.le, ?_⟩
  · rw [← getBySequenceNumber_add]
    exact h.get
  · intro m y hm hy hle
    exact h.after _ y (Nat.add_lt_add_left hm _) ((s.getBySequenceNumber_add m).trans hy) hle

/-- The last checkpoint at a time is run again when it is saturating and other steps follow. -/
theorem runsAgain_of_latest {i : ℕ} (h : s.LatestCheckpoint p i x)
    (hsat : x.isSaturating = true) (hi : i + 1 < s.steps.length) :
    s.RunsAgain p (s.numDeletedSteps + i) x := by
  refine ⟨⟨(s.getBySequenceNumber_add i).trans h.get, hsat, h.le⟩, ?_, by omega⟩
  intro n' y hn' hy hle
  obtain ⟨m, rfl, hm⟩ := getBySequenceNumber_eq_some.mp hy
  exact h.after m y (by omega) hm hle

/-! ### What a poll on another channel keeps -/

/-- No step is pushed while the last one runs. -/
theorem RunsLast.pushed (h : s.RunsLast p n x) (hp : Pushed s s') : s' = s := by
  cases hp with
  | none _ => rfl
  | @push last w k hlast hw _ =>
    rw [List.getLast?_eq_getElem?, h.getLast, Option.some.injEq] at hlast
    subst hlast
    exact absurd hw (isSaturating_ne_saturated h.saturating w)

/-- A pushed step is behind the one that is run again. -/
theorem RunsAgain.pushed (h : s.RunsAgain p n x) (hp : Pushed s s') : s'.RunsAgain p n x := by
  refine ⟨⟨hp.get_of h.get, h.saturating, h.le⟩, ?_, h.not_last.trans_le hp.total_le⟩
  intro n' y hn' hy hle
  rcases hp.get hy with hy | hu
  · exact h.after n' y hn' hy hle
  · exact hu

section Saturate

variable {pinnedTimes : List (Time T)} {j : ℕ} {prev step : Step T} {w : WrappedTransposer T}

/-- The last step runs on when another step starts. -/
theorem RunsLast.saturate (h : s.RunsLast p n x)
    (hcases : SaturateCases s pinnedTimes j step w s') (hprev : s.steps[j]? = some prev)
    (hw : prev.status = .saturated w) (hstep : s.steps[j + 1]? = some step)
    (hunsat : step.status = .unsaturated) : s'.RunsLast p n x := by
  refine ⟨⟨hcases.get_of hprev hw hstep hunsat h.get h.saturating ?_, h.saturating, h.le⟩, ?_⟩
  · -- the last step is not given up while it is a checkpoint
    rintro d rfl hd
    have hlast := h.last
    have hx : s.steps.getLast? = some x := by rw [List.getLast?_eq_getElem?, h.getLast]
    exact (hd.not_last x hx).1 (isSaturating_not_unsaturated h.saturating) (by omega)
  · rw [hcases.total_eq]
    exact h.last

/-- A step that is run again for a pinned time runs on when another step starts. -/
theorem RunsAgain.saturate (h : s.RunsAgain p n x) (hs : s.Sound) (hpinned : p ∈ pinnedTimes)
    (hcases : SaturateCases s pinnedTimes j step w s') (hprev : s.steps[j]? = some prev)
    (hw : prev.status = .saturated w) (hstep : s.steps[j + 1]? = some step)
    (hunsat : step.status = .unsaturated) : s'.RunsAgain p n x := by
  refine ⟨⟨hcases.get_of hprev hw hstep hunsat h.get h.saturating ?_, h.saturating, h.le⟩, ?_, ?_⟩
  -- a step that a pinned time needs is not given up
  · intro d hn hd
    exact hd.not_pinned p hpinned x (h.latest hn)
  · intro n' y hn' hy hle
    rcases hcases.get hstep hy with ⟨rfl, ht⟩ | hy | hu
    · -- the step before the one that starts is a checkpoint too, and it is saturated
      have hlt := hs.sorted.lt hprev hstep (by omega)
      have hprevle : prev.getTime ≤ p := by
        rw [ht] at hle
        exact hlt.le.trans hle
      have hgetprev := (s.getBySequenceNumber_add j).trans hprev
      rcases Nat.lt_or_ge n (s.numDeletedSteps + j) with hlt | hge
      · have hu := h.after _ prev hlt hgetprev hprevle
        rw [isUnsaturated_of_saturated hw] at hu
        cases hu
      · obtain rfl : n = s.numDeletedSteps + j := by omega
        rw [h.get, Option.some.injEq] at hgetprev
        subst hgetprev
        exact absurd hw (isSaturating_ne_saturated h.saturating w)
    · exact h.after n' y hn' hy hle
    · exact hu
  · rw [hcases.total_eq]
    exact h.not_last

end Saturate

/-! ### What a poll of a step keeps -/

section Poll

variable {i fuel : ℕ} {step : Step T} {answers : List (Response T)} {q : StepPolled T}
  {result : StepPoll T}

/-- A step that is polled stays at its time and is no less far. -/
theorem polled (hq : step.poll fuel answers = .ok q) (hr : q.result = .ok result) :
    q.step.getTime = step.getTime ∧ q.step.isUnsaturated = false ∧
      (result ≠ .ready → q.step.isSaturating = true) := by
  obtain ⟨f, a, ch, hst⟩ := Step.isSaturating_iff.mp (Step.isSaturating_of_poll hq hr)
  obtain ⟨hdata, -, -, hcases⟩ := Step.poll_run hst hq
  refine ⟨Step.getTime_eq hdata, ?_⟩
  rcases hcases with ⟨w, g, hready, hw, -⟩ | ⟨g, a', ch', hg, -⟩
  · refine ⟨isUnsaturated_of_saturated hw, ?_⟩
    intro hne
    rw [hr, Except.ok.injEq] at hready
    exact absurd hready hne
  · exact ⟨isUnsaturated_of_saturating hg, fun _ => Step.isSaturating_iff.mpr ⟨g, a', ch', hg⟩⟩

/-- A step that a poll completes is saturated. -/
theorem completed (hq : step.poll fuel answers = .ok q) (hr : q.result = .ok .ready) :
    ∃ w, q.step.status = .saturated w := by
  obtain ⟨f, a, ch, hst⟩ := Step.isSaturating_iff.mp (Step.isSaturating_of_poll hq hr)
  obtain ⟨-, -, -, hcases⟩ := Step.poll_run hst hq
  rcases hcases with ⟨w, g, -, hw, -⟩ | ⟨g, a', ch', -, -, -, ⟨hp, -⟩ | ⟨e, he, -⟩⟩
  · exact ⟨w, hw⟩
  · rw [hr] at hp
    cases hp
  · rw [hr] at he
    cases he

/-- A poll of a step keeps the one that runs, unless it completes it. -/
theorem Running.poll (h : s.Running p n x) (hstep : s.steps[i]? = some step)
    (hq : step.poll fuel answers = .ok q) (hr : q.result = .ok result)
    (hother : result = .ready → n ≠ s.numDeletedSteps + i) :
    ∃ y, (s.setStep i q.step).Running p n y := by
  obtain ⟨htime, -, hsat⟩ := polled hq hr
  have hi := (List.getElem?_eq_some_iff.mp hstep).1
  by_cases hn : n = s.numDeletedSteps + i
  · subst hn
    have hx := h.get
    rw [getBySequenceNumber_add, hstep, Option.some.injEq] at hx
    subst hx
    refine ⟨q.step, ?_, hsat (fun hready => hother hready rfl), htime.trans_le h.le⟩
    rw [get_setStep hi, if_pos rfl]
  · refine ⟨x, ?_, h.saturating, h.le⟩
    rw [get_setStep hi, if_neg hn]
    exact h.get

/-- The last step runs on unless the poll completes it. -/
theorem RunsLast.poll (h : s.RunsLast p n x) (hstep : s.steps[i]? = some step)
    (hq : step.poll fuel answers = .ok q) (hr : q.result = .ok result)
    (hother : result = .ready → n ≠ s.numDeletedSteps + i) :
    ∃ y, (s.setStep i q.step).RunsLast p n y := by
  obtain ⟨y, hy⟩ := h.toRunning.poll hstep hq hr hother
  refine ⟨y, hy, ?_⟩
  simp only [setStep, List.length_set]
  exact h.last

/-- A step that is run again runs on unless the poll completes it. -/
theorem RunsAgain.poll (h : s.RunsAgain p n x) (hstep : s.steps[i]? = some step)
    (hq : step.poll fuel answers = .ok q) (hr : q.result = .ok result)
    (hother : result = .ready → n ≠ s.numDeletedSteps + i) :
    ∃ y, (s.setStep i q.step).RunsAgain p n y := by
  obtain ⟨y, hy⟩ := h.toRunning.poll hstep hq hr hother
  obtain ⟨htime, -, -⟩ := polled hq hr
  have hi := (List.getElem?_eq_some_iff.mp hstep).1
  have hsat := Step.isSaturating_of_poll hq hr
  refine ⟨y, hy, ?_, ?_⟩
  · intro n' z hn' hz hle
    rw [get_setStep hi] at hz
    split at hz
    · -- the step that is polled is a checkpoint, so it is later than `p`
      rename_i hn
      rw [Option.some.injEq] at hz
      subst hz hn
      have hu := h.after _ step hn' ((s.getBySequenceNumber_add i).trans hstep) (htime ▸ hle)
      rw [isSaturating_not_unsaturated hsat] at hu
      cases hu
    · exact h.after n' z hn' hz hle
  · simp only [setStep, List.length_set]
    exact h.not_last

end Poll

/-! ### What `delete_before` keeps -/

/-- The last step runs on when earlier steps are forgotten. -/
theorem RunsLast.forget (h : s.RunsLast p n x) {i : ℕ} (time : Time T)
    (hi : i < s.steps.length) : (s.forget i time).RunsLast p n x := by
  have hlast := h.last
  refine ⟨⟨?_, h.saturating, h.le⟩, ?_⟩
  · rw [get_forget time (by omega)]
    exact h.get
  · simp only [Steps.forget, List.length_drop]
    omega

/-- A step that is run again runs on when only earlier steps are forgotten. -/
theorem RunsAgain.forget (h : s.RunsAgain p n x) {i : ℕ} (time : Time T)
    (hn : s.numDeletedSteps + i ≤ n) : (s.forget i time).RunsAgain p n x := by
  have hlast := h.not_last
  refine ⟨⟨?_, h.saturating, h.le⟩, ?_, ?_⟩
  · rw [get_forget time hn]
    exact h.get
  · intro n' y hn' hy hle
    rw [get_forget time (by omega)] at hy
    exact h.after n' y hn' hy hle
  · simp only [Steps.forget, List.length_drop]
    omega

/-! ### The last step, or the one after it -/

variable {t : Time T} {pinnedTimes : List (Time T)}

/-- The last step is saturating and not later than `p`. -/
abbrev LastRuns (s : Steps T) (p : Time T) : Prop := ∃ n x, s.RunsLast p n x

/-- The last step is saturated, and the next one is due both at `t` and at `p`. -/
def NextIsDue (s : Steps T) (t p : Time T) : Prop :=
  ∃ last w k, s.steps.getLast? = some last ∧ last.status = .saturated w ∧
    w.metadata.getNextScheduledTime = some k ∧ k.time ≤ t ∧ k.time ≤ p

/-- The last step is unsaturated and due both at `t` and at `p`. -/
def LastIsDue (s : Steps T) (t p : Time T) : Prop :=
  ∃ x, s.steps[s.steps.length - 1]? = some x ∧ x.status = .unsaturated ∧ x.getTime ≤ t ∧
    x.getTime ≤ p

/-- The next step is due once it has been pushed. -/
theorem NextIsDue.pushed (h : s.NextIsDue t p) (hp : Pushed s s') : s'.LastIsDue t p := by
  obtain ⟨last, w, k, hlast, hw, hk, ht, hpk⟩ := h
  cases hp with
  | none hnone =>
    rw [hnone last w hlast hw] at hk
    cases hk
  | @push last' w' k' hlast' hw' hk' =>
    rw [hlast, Option.some.injEq] at hlast'
    subst hlast'
    rw [hw, StepStatus.saturated.injEq] at hw'
    subst hw'
    rw [hk, Option.some.injEq] at hk'
    subst hk'
    refine ⟨s.nextStep last k, ?_, rfl, ht, hpk⟩
    simp

/-- The last step runs after it has been started. -/
theorem SaturateCases.lastRuns {j : ℕ} {step : Step T} {w : WrappedTransposer T}
    (h : SaturateCases s pinnedTimes j step w s') (hstep : s.steps[j + 1]? = some step)
    (hlast : j + 2 = s.steps.length) (hle : step.getTime ≤ p) : s'.LastRuns p := by
  cases h with
  | @saturate f d _ _ _ =>
    refine ⟨_, step.started f, runsLast_of_getLast ?_ rfl hle⟩
    rw [length_saturatedAt, getElem?_saturatedAt hstep, if_pos (by omega)]
  | @consume front rest f b hj hs _ _ _ =>
    subst hj
    have hrest : rest = [] := by
      rw [hs, List.length_cons, List.length_cons] at hlast
      exact List.length_eq_zero_iff.mp (by omega)
    subst hrest
    exact ⟨_, step.started f, runsLast_of_getLast rfl rfl hle⟩

/-- A poll of the state starts the last step when it is due. -/
theorem LastIsDue.before (h : s.LastIsDue t p) (hs : s.Sound) {i n : ℕ}
    (hcases : BeforeCases s pinnedTimes t (.ok (.saturating i n)) s') : s'.LastRuns p := by
  obtain ⟨y, hy, hyu, ht, hp⟩ := h
  cases hcases with
  | saturating hx hsat =>
    obtain ⟨-, rfl⟩ := hx.eq_last hy ht
    exact absurd hyu (isSaturating_ne_unsaturated hsat)
  | @previous i x prev hx _ hprev hsat =>
    obtain ⟨hi, rfl⟩ := hx.eq_last hy ht
    -- the step before an unsaturated last one is saturated
    have hlast := hs.last _ x hy (by omega)
    simp only [LastStep, hyu] at hlast
    obtain ⟨-, j, prev', w, k, hj, hprev', hw, -, -⟩ := hlast
    obtain rfl : j = i := by omega
    rw [hprev, Option.some.injEq] at hprev'
    subst hprev'
    exact absurd hw (isSaturating_ne_saturated hsat w)
  | @start j x prev w _ _ hx _ _ _ hcases _ =>
    obtain ⟨hj, rfl⟩ := hx.eq_last hy ht
    exact hcases.lastRuns hx.get (by omega) hp

/-- So does a poll of the events. -/
theorem LastIsDue.events (h : s.LastIsDue t p) {i n : ℕ}
    (hcases : EventsCases s pinnedTimes t (.saturating i n) s') : s'.LastRuns p := by
  obtain ⟨y, hy, hyu, ht, hp⟩ := h
  cases hcases with
  | saturating hx _ hsat =>
    rw [hy, Option.some.injEq] at hx
    subst hx
    exact absurd hyu (isSaturating_ne_unsaturated hsat)
  | @start j x prev w _ hx _ _ hj _ _ hcases =>
    rw [hy, Option.some.injEq] at hx
    subst hx
    refine hcases.lastRuns ?_ hj hp
    rw [show j + 1 = s.steps.length - 1 by omega]
    exact hy

/-! ### What a lookup keeps -/

/-- The last step runs on when a state is searched for. -/
theorem RunsLast.before (h : s.RunsLast p n x) {r : Except Unit (BeforeStatus T)}
    (hcases : BeforeCases s pinnedTimes t r s') : s'.RunsLast p n x := by
  cases hcases with
  | before _ | saturated _ _ _ | saturating _ _ | previous _ _ _ _ => exact h
  | start hx hunsat hprev hw hcases _ => exact h.saturate hcases hprev hw hx.get hunsat

/-- A step that is run again for a pinned time runs on when a state is searched for. -/
theorem RunsAgain.before (h : s.RunsAgain p n x) (hs : s.Sound) (hpinned : p ∈ pinnedTimes)
    {r : Except Unit (BeforeStatus T)} (hcases : BeforeCases s pinnedTimes t r s') :
    s'.RunsAgain p n x := by
  cases hcases with
  | before _ | saturated _ _ _ | saturating _ _ | previous _ _ _ _ => exact h
  | start hx hunsat hprev hw hcases _ => exact h.saturate hs hpinned hcases hprev hw hx.get hunsat

/-- The last step runs on when events are searched for. -/
theorem RunsLast.events (h : s.RunsLast p n x) {r : BeforeStatusEvents T}
    (hcases : EventsCases s pinnedTimes t r s') : s'.RunsLast p n x := by
  cases hcases with
  | ready _ _ | saturating _ _ _ => exact h
  | @start j y prev w _ hy _ hunsat hj hprev hw hcases =>
    refine h.saturate hcases hprev hw ?_ hunsat
    rw [show j + 1 = s.steps.length - 1 by omega]
    exact hy

/-- A step that is run again for a pinned time runs on when events are searched for. -/
theorem RunsAgain.events (h : s.RunsAgain p n x) (hs : s.Sound) (hpinned : p ∈ pinnedTimes)
    {r : BeforeStatusEvents T} (hcases : EventsCases s pinnedTimes t r s') :
    s'.RunsAgain p n x := by
  cases hcases with
  | ready _ _ | saturating _ _ _ => exact h
  | @start j y prev w _ hy _ hunsat hj hprev hw hcases =>
    refine h.saturate hs hpinned hcases hprev hw ?_ hunsat
    rw [show j + 1 = s.steps.length - 1 by omega]
    exact hy

end Steps

end Cozal
