import Cozal.Source.Returns

namespace Cozal

open Transposer

/-!
# Which checkpoint is given up

A step is saturated at the cost of a checkpoint once there are too many.  This file says for whom
the choice of it is safe, and how many checkpoints there can be.

* `Steps.GivenUp.checkpoints` — the new step is a checkpoint, the one that was chosen is none.
* `Steps.Starts` — what a call does once it has pushed the next step: nothing, or it saturates a
  step.
* `Steps.SparesWaiting` — the choice sets neither a pinned time nor the last step back.
* `Steps.sequenceNumberToDelete_none` — nothing is given up while there is room, or when every
  checkpoint is needed; so there are few of them.
-/

variable {T : Type} [Transposer T]

namespace Steps

variable {s s' : Steps T}

/-! ### The checkpoints after a step has been saturated -/

/-- The checkpoints after the step at `j + 1` has become one and `r` has been given up for it. -/
theorem GivenUp.checkpoints {pinnedTimes : List (Time T)} {j : ℕ} {step : Step T}
    {f : SaturationFuture T} {r : Option ℕ} (h : GivenUp s pinnedTimes j step f r s') :
    s'.notUnsaturated = insert (s.numDeletedSteps + (j + 1))
      (r.elim s.notUnsaturated s.notUnsaturated.erase) := by
  cases h with
  | front hj _ _ _ => subst hj; rfl
  | nothing _ | checkpoint _ _ => rfl

/-- What is given up is a checkpoint. -/
theorem GivenUp.mem (hs : s.Sound) {pinnedTimes : List (Time T)} {j n : ℕ} {step : Step T}
    {f : SaturationFuture T} (h : GivenUp s pinnedTimes j step f (some n) s') :
    n ∈ s.notUnsaturated := by
  cases h with
  | front _ _ _ _ => exact (OrdSet.first_eq_some.mp hs.first_checkpoint).1
  | checkpoint _ hd =>
    obtain ⟨x, hx, hxu⟩ := hd.checkpoint
    exact hs.checkpoint hx hxu

/-- The only new checkpoint is the step that has started. -/
theorem GivenUp.eq_of_new {pinnedTimes : List (Time T)} {j m : ℕ} {step : Step T}
    {f : SaturationFuture T} {r : Option ℕ} (h : GivenUp s pinnedTimes j step f r s')
    (hm : m ∉ s.notUnsaturated) (hm' : m ∈ s'.notUnsaturated) :
    m = s.numDeletedSteps + (j + 1) := by
  by_contra hne
  rw [h.checkpoints] at hm'
  have hold := Finset.mem_of_mem_insert_of_ne hm' hne
  cases r with
  | none => exact hm hold
  | some d => exact hm (Finset.mem_of_mem_erase hold)

/-- It keeps its sequence number. -/
theorem GivenUp.getBySequenceNumber {pinnedTimes : List (Time T)} {j : ℕ} {step : Step T}
    {f : SaturationFuture T} {r : Option ℕ} (h : GivenUp s pinnedTimes j step f r s')
    (hstep : s.steps[j + 1]? = some step) :
    s'.getBySequenceNumber (s.numDeletedSteps + (j + 1)) = some (step.started f) := by
  rw [getBySequenceNumber_eq_some]
  cases h with
  | front hj _ _ _ =>
    subst hj
    exact ⟨0, rfl, rfl⟩
  | nothing _ | checkpoint _ _ => exact ⟨j + 1, rfl, getElem?_saturatedAt_self hstep⟩

/-- The step to start is no checkpoint yet. -/
theorem Sound.not_mem_checkpoints (h : s.Sound) {i : ℕ} {x : Step T} (hx : s.steps[i]? = some x)
    (hunsat : x.isUnsaturated = true) : s.numDeletedSteps + i ∉ s.notUnsaturated := by
  intro hmem
  obtain ⟨k, y, hk, hy, hyu⟩ := h.exists_of_checkpoint hmem
  exact index_ne hx hy hunsat hyu (Nat.add_left_cancel hk)

/-- The step at `j + 1` is the one a poll at `t` has to start: it is the last one before or at `t`,
    it is unsaturated, and the one before it is saturated. -/
def ToStart (s : Steps T) (t : Time T) (j : ℕ) : Prop :=
  ∃ prev step, s.steps[j]? = some prev ∧ prev.isSaturated = true ∧ s.LatestStep t (j + 1) step ∧
    step.isUnsaturated = true

section Build

variable [BuildProfile]

/-- What a call does once it has pushed the next step: nothing, or it saturates a step from the
    one before it. -/
inductive Starts (s : Steps T) (pinnedTimes : List (Time T)) : Steps T → Prop where
  | nothing : Starts s pinnedTimes s
  | saturate {j prev step s'} : s.steps[j]? = some prev → prev.isSaturated = true →
      s.steps[j + 1]? = some step → step.isUnsaturated = true →
      s.saturate (s.numDeletedSteps + (j + 1)) pinnedTimes = .ok s' → Starts s pinnedTimes s'

/-- After the push, `get_before_or_at` saturates the step it has to start, and no other. -/
theorem getBeforeOrAt_toStart (h : s.Sound) {fuel : ℕ} {t : Time T}
    {pinnedTimes : List (Time T)} {r : Except Unit (BeforeStatus T)}
    (hr : s.getBeforeOrAt fuel t pinnedTimes = .ok (r, s')) :
    ∃ s₁, s.tryNextScheduled = .ok s₁ ∧ ((∀ j, ¬ s₁.ToStart t j) ∧ s' = s₁ ∨
      ∃ j, s₁.ToStart t j ∧ s₁.saturate (s₁.numDeletedSteps + (j + 1)) pinnedTimes = .ok s') := by
  obtain ⟨s₁, found, hpush, -, hfound, -⟩ := getBeforeOrAt_found h hr
  refine ⟨s₁, hpush, ?_⟩
  cases hfound with
  | before hbefore =>
    refine Or.inl ⟨?_, rfl⟩
    rintro j ⟨-, step, -, -, hstep, -⟩
    exact absurd hstep.le (not_le.mpr (hbefore step (List.mem_of_getElem? hstep.get)))
  | saturated hx hsat =>
    refine Or.inl ⟨?_, rfl⟩
    rintro j ⟨-, step, -, -, hstep, hunsat⟩
    obtain ⟨-, rfl⟩ := hx.unique hstep
    rw [isUnsaturated_eq_false_iff.mpr (Or.inr hsat)] at hunsat
    cases hunsat
  | saturating hx hsat =>
    refine Or.inl ⟨?_, rfl⟩
    rintro j ⟨-, step, -, -, hstep, hunsat⟩
    obtain ⟨-, rfl⟩ := hx.unique hstep
    rw [isUnsaturated_eq_false_iff.mpr (Or.inl hsat)] at hunsat
    cases hunsat
  -- the step before the one to start would have to be saturated, and it is saturating
  | @previous i x prev hx _ hprev hsat =>
    refine Or.inl ⟨?_, rfl⟩
    rintro j ⟨prev', step, hprev', hsat', hstep, -⟩
    obtain ⟨hij, -⟩ := hx.unique hstep
    obtain rfl := Nat.succ.inj hij
    rw [hprev, Option.some.injEq] at hprev'
    obtain ⟨w, hw⟩ := Step.isSaturated_iff.mp (hprev' ▸ hsat')
    exact absurd hw (isSaturating_ne_saturated hsat w)
  | @start j x prev _ hx hunsat hprev hsat hs' =>
    exact Or.inr ⟨j, ⟨prev, x, hprev, hsat, hx, Step.isUnsaturated_iff.mpr hunsat⟩, hs'⟩

/-- After the push, `get_before_or_at_events` saturates the last step if it has to start. -/
theorem getBeforeOrAtEvents_toStart (h : s.Sound) {t : Time T} {pinnedTimes : List (Time T)}
    {r : BeforeStatusEvents T} (hr : s.getBeforeOrAtEvents t pinnedTimes = .ok (r, s')) :
    ∃ s₁, s.tryNextScheduled = .ok s₁ ∧
      ((∀ j, j + 2 = s₁.steps.length → ¬ s₁.ToStart t j) ∧ s' = s₁ ∨
        ∃ j, j + 2 = s₁.steps.length ∧ s₁.ToStart t j ∧
          s₁.saturate (s₁.numDeletedSteps + (j + 1)) pinnedTimes = .ok s') := by
  obtain ⟨s₁, hpush, hpushed, hfound⟩ := getBeforeOrAtEvents_found h hr
  have h₁ := hpushed.sound h
  refine ⟨s₁, hpush, ?_⟩
  -- the step to start would be the last one
  have hlast : ∀ {x step : Step T} {j}, s₁.steps[s₁.steps.length - 1]? = some x →
      j + 2 = s₁.steps.length → s₁.LatestStep t (j + 1) step → step = x := by
    intro x step j hx hj hstep
    have hget := hstep.get
    rw [show j + 1 = s₁.steps.length - 1 by omega, hx, Option.some.injEq] at hget
    exact hget.symm
  cases hfound with
  | @ready x hx hcond =>
    refine Or.inl ⟨?_, rfl⟩
    rintro j hj ⟨-, step, -, -, hstep, hunsat⟩
    obtain rfl := hlast hx hj hstep
    have hend := h₁.last _ step hx (by omega)
    simp only [LastStep, Step.isUnsaturated_iff.mp hunsat] at hend
    exact absurd hstep.le (not_le.mpr (hcond.resolve_right (by simp [hend.1])))
  | saturating hx _ hsat =>
    refine Or.inl ⟨?_, rfl⟩
    rintro j hj ⟨-, step, -, -, hstep, hunsat⟩
    obtain rfl := hlast hx hj hstep
    exact isSaturating_ne_unsaturated hsat (Step.isUnsaturated_iff.mp hunsat)
  | @start j x prev _ hx hle hunsat hj hprev hsat hs' =>
    rw [show s₁.steps.length - 1 = j + 1 by omega] at hx
    exact Or.inr ⟨j, hj, ⟨prev, x, hprev, hsat, .of_last hx hj hle,
      Step.isUnsaturated_iff.mpr hunsat⟩, hs'⟩

/-- A call that saturates the step it has to start does no more than start it. -/
theorem ToStart.starts {t : Time T} {pinnedTimes : List (Time T)} {j : ℕ} (h : s.ToStart t j)
    (hs' : s.saturate (s.numDeletedSteps + (j + 1)) pinnedTimes = .ok s') :
    Starts s pinnedTimes s' := by
  obtain ⟨prev, step, hprev, hsat, hstep, hunsat⟩ := h
  exact .saturate hprev hsat hstep.get hunsat hs'

/-- `get_before_or_at` pushes the next step, and starts one step at most. -/
theorem getBeforeOrAt_starts (h : s.Sound) {fuel : ℕ} {t : Time T} {pinnedTimes : List (Time T)}
    {r : Except Unit (BeforeStatus T)} (hr : s.getBeforeOrAt fuel t pinnedTimes = .ok (r, s')) :
    ∃ s₁, s.tryNextScheduled = .ok s₁ ∧ Starts s₁ pinnedTimes s' := by
  obtain ⟨s₁, hpush, ⟨-, rfl⟩ | ⟨j, hj, hs'⟩⟩ := getBeforeOrAt_toStart h hr
  · exact ⟨s', hpush, .nothing⟩
  · exact ⟨s₁, hpush, hj.starts hs'⟩

/-- `get_before_or_at_events` pushes the next step, and starts one step at most. -/
theorem getBeforeOrAtEvents_starts (h : s.Sound) {t : Time T} {pinnedTimes : List (Time T)}
    {r : BeforeStatusEvents T} (hr : s.getBeforeOrAtEvents t pinnedTimes = .ok (r, s')) :
    ∃ s₁, s.tryNextScheduled = .ok s₁ ∧ Starts s₁ pinnedTimes s' := by
  obtain ⟨s₁, hpush, ⟨-, rfl⟩ | ⟨j, -, hj, hs'⟩⟩ := getBeforeOrAtEvents_toStart h hr
  · exact ⟨s', hpush, .nothing⟩
  · exact ⟨s₁, hpush, hj.starts hs'⟩

/-- What a call does to the checkpoints: a lookup starts at most one step, after the scheduled
    step has been pushed. -/
inductive CallCases (s : Steps T) : Call T → Steps T → Prop where
  | starts {c s₁ s'} : Pushed s s₁ → Starts s₁ c.pinnedTimes s' → CallCases s c s'
  | ignored (time : Time T) : CallCases s (.deleteBefore time) s
  | forget {i} (time : Time T) : CallCases s (.deleteBefore time) (s.forget i time)
  | poll {step} (i fuel : ℕ) (answers : List (Response T)) :
      CallCases s (.poll i fuel answers) (s.setStep i step)

/-- Every call is one of the cases. -/
theorem Call.Does.cases {c : Call T} (h : c.Does s s') (hs : s.Sound) : CallCases s c s' := by
  cases h with
  | getBeforeOrAt fuel time pinnedTimes hr =>
    obtain ⟨s₁, hpush, hstarts⟩ := getBeforeOrAt_starts hs hr
    exact .starts (tryNextScheduled_cases hpush) hstarts
  | getBeforeOrAtEvents time pinnedTimes hr =>
    obtain ⟨s₁, hpush, hstarts⟩ := getBeforeOrAtEvents_starts hs hr
    exact .starts (tryNextScheduled_cases hpush) hstarts
  | deleteBefore time hr =>
    rcases deleteBefore_cases hs hr with ⟨-, rfl⟩ | ⟨-, i, x, -, -, rfl, -⟩
    · exact .ignored time
    · exact .forget time
  | poll i fuel answers _ _ _ => exact .poll i fuel answers

end Build

/-! ### Whom the choice sets back -/

/-- The step at `i` is a checkpoint of `s`, and has lost its state or is gone in `s'`. -/
def LosesCheckpoint (s s' : Steps T) (i : ℕ) (x : Step T) : Prop :=
  s.steps[i]? = some x ∧ x.isUnsaturated = false ∧
    ∀ y, s'.getBySequenceNumber (s.numDeletedSteps + i) = some y → y.isUnsaturated = true

/-- Saturating the step at `j + 1` sets nobody back.  A checkpoint that is lost is not the last one
    before or at a pinned time, unless the new one takes its place; and it is not the last one of
    all, unless the new one comes right after it. -/
def SparesWaiting (s s' : Steps T) (pinnedTimes : List (Time T)) (j : ℕ) (step : Step T) : Prop :=
  ∀ i x, s.LosesCheckpoint s' i x →
    (∀ t ∈ pinnedTimes, s.LatestCheckpoint t i x → step.getTime ≤ t) ∧
    ((∀ k y, i < k → s.steps[k]? = some y → y.isUnsaturated = true) → i = j)

/-- Only what was chosen to be given up is lost. -/
theorem GivenUp.loses {pinnedTimes : List (Time T)} {j : ℕ} {step : Step T}
    {f : SaturationFuture T} {r : Option ℕ} (h : GivenUp s pinnedTimes j step f r s')
    (hs : s.Sound) (hs' : s'.Sound) {i : ℕ} {x : Step T} (hlost : s.LosesCheckpoint s' i x) :
    r = some (s.numDeletedSteps + i) := by
  obtain ⟨hx, hxu, hgone⟩ := hlost
  have hmem := hs.checkpoint hx hxu
  have hnot : s.numDeletedSteps + i ∉ s'.notUnsaturated := by
    intro hmem'
    obtain ⟨k, y, hk, hy, hyu⟩ := hs'.exists_of_checkpoint hmem'
    have hu := hgone y (getBySequenceNumber_eq_some.mpr ⟨k, hk, hy⟩)
    rw [hyu] at hu
    cases hu
  rw [h.checkpoints, Finset.mem_insert, not_or] at hnot
  cases r with
  | none => exact absurd hmem hnot.2
  | some n =>
    by_contra hne
    refine hnot.2 (Finset.mem_erase.mpr ⟨?_, hmem⟩)
    intro heq
    exact hne (by rw [heq])

/-- The last checkpoint of all is the last step, or the one before it. -/
theorem Sound.near_last_of_no_later (h : s.Sound) {i : ℕ} {x : Step T}
    (hx : s.steps[i]? = some x) (hafter : ∀ k y, i < k → s.steps[k]? = some y →
      y.isUnsaturated = true) : i + 1 = s.steps.length ∨ i + 2 = s.steps.length := by
  obtain ⟨n, hn, hlast⟩ := h.last_checkpoint
  obtain ⟨k, y, rfl, hy, hyu⟩ := h.exists_of_checkpoint (OrdSet.last_eq_some.mp hn).1
  have hi := (List.getElem?_eq_some_iff.mp hx).1
  have hki : ¬ i < k := by
    intro hlt
    rw [hafter k y hlt hy] at hyu
    cases hyu
  omega

section Build

variable [BuildProfile]

/-- **Whom the choice sets back.**  It sets back a pinned time exactly when the first step is
    consumed, and the time lies between that and the step it is consumed for. -/
theorem sparesWaiting_iff (h : s.Sound) (hlinked : s.Linked) {pinnedTimes : List (Time T)}
    {j : ℕ} {prev step : Step T} (hprev : s.steps[j]? = some prev)
    (hsat : prev.isSaturated = true) (hstep : s.steps[j + 1]? = some step)
    (hunsat : step.isUnsaturated = true) :
    (∀ s', s.saturate (s.numDeletedSteps + (j + 1)) pinnedTimes = .ok s' →
        s.SparesWaiting s' pinnedTimes j step) ↔
      (s.ConsumesFront j → ∀ t ∈ pinnedTimes, prev.getTime ≤ t → step.getTime ≤ t) := by
  obtain ⟨w, hw⟩ := Step.isSaturated_iff.mp hsat
  rw [Step.isUnsaturated_iff] at hunsat
  constructor
  · intro hspares hconsumes t ht hle
    obtain ⟨s', hs'⟩ := (saturate_returns_iff h hlinked hprev hsat hstep
      (Step.isUnsaturated_iff.mpr hunsat)).mpr (Or.inl hconsumes)
    obtain ⟨r, f, -, -, hgiven⟩ := saturate_givenUp h hprev hw hstep hunsat hs'
    obtain ⟨rfl, front, b, hfront, hb, hlt⟩ := hconsumes
    rw [List.head?_eq_getElem?, hprev, Option.some.injEq] at hfront
    subst hfront
    cases hgiven with
    | nothing hkeep | checkpoint hkeep _ =>
      exact absurd hlt (not_lt.mpr (hkeep rfl b prev hb (by rw [List.head?_eq_getElem?, hprev])))
    | @front first rest _ _ heq _ _ =>
      have hlost : s.LosesCheckpoint (s.consumeFront step rest f) 0 prev := by
        refine ⟨hprev, isUnsaturated_of_saturated hw, ?_⟩
        intro y hy
        -- the first step has no sequence number any more
        obtain ⟨k, hk, -⟩ := getBySequenceNumber_eq_some.mp hy
        have hk : s.numDeletedSteps + 0 = s.numDeletedSteps + 1 + k := hk
        omega
      by_contra hgt
      refine hgt ((hspares _ hs' 0 prev hlost).1 t ht ⟨hprev, isUnsaturated_of_saturated hw, hle,
        ?_⟩)
      intro k y hk hy hyt
      rcases Nat.lt_or_ge 1 k with hlt1 | hge
      · exact absurd ((h.sorted.lt hstep hy hlt1).le.trans hyt) hgt
      · obtain rfl : k = 1 := by omega
        rw [hstep, Option.some.injEq] at hy
        exact hy ▸ Step.isUnsaturated_iff.mpr hunsat
  · intro hcond s' hs' i x hlost
    obtain ⟨r, f, -, hf, hgiven⟩ := saturate_givenUp h hprev hw hstep hunsat hs'
    have hmove := (saturate_cases h hprev hw hstep hunsat hs').move hprev hw hstep hunsat
    have hr := hgiven.loses h (hmove.sound h) hlost
    cases hgiven with
    | nothing _ => cases hr
    | @front front rest b hj heq hb hlt =>
      subst hj
      rw [heq, List.getElem?_cons_zero, Option.some.injEq] at hprev
      subst hprev
      obtain rfl : i = 0 := by
        have hi := Option.some.inj hr
        omega
      obtain rfl : front = x := by simpa [heq] using hlost.1
      have hconsumes : s.ConsumesFront 0 := ⟨rfl, front, b, by rw [heq]; rfl, hb, hlt⟩
      exact ⟨fun t ht hlatest => hcond hconsumes t ht hlatest.le, fun _ => rfl⟩
    | @checkpoint d _ hd =>
      obtain rfl : d = i := Nat.add_left_cancel (Option.some.inj hr)
      refine ⟨fun t ht hlatest => absurd hlatest (hd.not_pinned t ht x), ?_⟩
      intro hafter
      obtain ⟨y, hy, hylast, -⟩ := h.exists_last
      obtain ⟨hnot, hnext⟩ := hd.not_last y hy
      rcases h.near_last_of_no_later hlost.1 hafter with hlen | hlen
      · -- the last step is not given up when it is a checkpoint
        rw [show s.steps.length - 1 = d by omega, hlost.1, Option.some.injEq] at hylast
        exact absurd hlen (hnot (hylast ▸ hlost.2.1))
      · exact hnext (hafter _ y (by omega) hylast) hlen

end Build

end Steps

/-- **Eviction sets nobody back.**  After any sequence of calls, whatever step is about to be
    saturated and whatever times are pinned, the checkpoint that is given up is neither the last
    one of a pinned time nor the last one of all, unless the new one takes its place; but for a
    first step that is consumed, while a pinned time lies before the step it is consumed for. -/
theorem eviction_spares_waiting [BuildProfile] {transposer : T} {startTime : Time T}
    {rngSeed : Seed T} {calls : List (Steps.Call T)} {s : Steps T}
    (h : Steps.Reachable transposer startTime rngSeed calls s) (pinnedTimes : List (Time T)) :
    ∃ s₁, s.tryNextScheduled = .ok s₁ ∧ ∀ j prev step, s₁.steps[j]? = some prev →
      prev.isSaturated = true → s₁.steps[j + 1]? = some step → step.isUnsaturated = true →
      ((∀ s', s₁.saturate (s₁.numDeletedSteps + (j + 1)) pinnedTimes = .ok s' →
          s₁.SparesWaiting s' pinnedTimes j step) ↔
        (s₁.ConsumesFront j → ∀ t ∈ pinnedTimes, prev.getTime ≤ t → step.getTime ≤ t)) := by
  obtain ⟨s₁, hpush⟩ := h.sound.tryNextScheduled_returns
  have hpushed := Steps.tryNextScheduled_cases hpush
  exact ⟨s₁, hpush, fun j prev step hprev hsat hstep hunsat =>
    Steps.sparesWaiting_iff (hpushed.sound h.sound) (hpushed.linked h.linked) hprev hsat hstep
      hunsat⟩

/-- The first step is consumed for the one at 10, at which the pinned time is. -/
theorem eviction_spares_waiting_script :
    ∃ (_ : BuildProfile) (s s' : Steps Script) (step : Step Script),
      s.saturate 1 [(10 : ℕ)] = .ok s' ∧ s'.numDeletedSteps = 1 ∧
      s.SparesWaiting s' [(10 : ℕ)] 0 step := by
  let _ : BuildProfile := debugBuild
  have hnew := @Steps.ReachableBy.new Script _ _ (fun _ _ => True) ⟨[.schedule 10], [], [], 0⟩
    (0 : ℕ) ()
  have hpoll := hnew.call trivial (.poll 0 20 [] rfl rfl rfl)
  have hdelete := hpoll.call trivial (.deleteBefore (5 : ℕ) rfl)
  obtain ⟨s₁, hpush, hspares⟩ := eviction_spares_waiting hdelete [(10 : ℕ)]
  obtain rfl := Outcome.ok.inj hpush
  refine ⟨inferInstance, _, _, _, rfl, rfl, (hspares 0 _ _ rfl rfl rfl rfl).mpr ?_ _ rfl⟩
  intro _ t ht _
  obtain rfl := List.mem_singleton.mp ht
  exact le_refl (10 : ℕ)

/-- The steps are at 0 and 10, and `delete_before(5)` has been called.  When the step at 10 is
    saturated, the first step is given up, which is the last checkpoint of the pinned time 7. -/
theorem eviction_spares_waiting_fails :
    ∃ (_ : BuildProfile) (calls : List (Steps.Call Script)) (s s₁ s' : Steps Script)
      (prev step : Step Script),
      Steps.Reachable ⟨[.schedule 10], [], [], 0⟩ (0 : ℕ) () calls s ∧
      s.tryNextScheduled = .ok s₁ ∧ s₁.steps[0]? = some prev ∧ prev.isSaturated = true ∧
      s₁.steps[1]? = some step ∧ step.isUnsaturated = true ∧
      s₁.saturate 1 [(7 : ℕ)] = .ok s' ∧ ¬ s₁.SparesWaiting s' [(7 : ℕ)] 0 step := by
  let _ : BuildProfile := debugBuild
  have hnew := @Steps.ReachableBy.new Script _ _ (fun _ _ => True) ⟨[.schedule 10], [], [], 0⟩
    (0 : ℕ) ()
  have hpoll := hnew.call trivial (.poll 0 20 [] rfl rfl rfl)
  have hdelete := hpoll.call trivial (.deleteBefore (5 : ℕ) rfl)
  refine ⟨inferInstance, _, _, _, _, _, _, hdelete, rfl, rfl, rfl, rfl, rfl, rfl, ?_⟩
  intro hspares
  have hle := (hspares 0 _ ⟨rfl, rfl, fun y hy => by cases hy⟩).1 (7 : ℕ) List.mem_cons_self
    ⟨rfl, rfl, Nat.zero_le 7, ?_⟩
  · revert hle
    show ¬ (10 : ℕ) ≤ 7
    decide
  · intro k y hk hy _
    have hlt := (List.getElem?_eq_some_iff.mp hy).1
    obtain rfl : k = 1 := by
      have hlt : k < 2 := hlt
      omega
    cases hy
    rfl

/-! ### The number of checkpoints -/

namespace Steps

variable {s s' : Steps T}

/-- The push makes no checkpoint. -/
theorem Pushed.notUnsaturated (h : Pushed s s') : s'.notUnsaturated = s.notUnsaturated := by
  cases h <;> rfl

/-- Pushing the next step leaves the budget. -/
theorem Pushed.numberOfCheckpoints (h : Pushed s s') :
    s'.numberOfCheckpoints = s.numberOfCheckpoints := by
  cases h <;> rfl

/-- There are as many checkpoints as steps that hold the state of a transposer. -/
theorem Sound.card_checkpoints (h : s.Sound) :
    s.notUnsaturated.card = s.steps.countP (fun x => !x.isUnsaturated) := by
  refine OrdSet.card_eq_countP _ s.steps s.numDeletedSteps _ ?_
  intro n
  rw [h.checkpoints n]
  simp only [Bool.not_eq_true']

section Build

variable [BuildProfile]

/-- There is one checkpoint for each pinned time. -/
theorem pinnedSteps_length {pinnedTimes : List (Time T)} {ns : List ℕ}
    (h : s.pinnedSteps pinnedTimes = .ok ns) : ns.length = pinnedTimes.length := by
  induction pinnedTimes generalizing ns with
  | nil =>
    obtain rfl := Outcome.ok.inj h
    rfl
  | cons t ts ih =>
    simp only [pinnedSteps, Outcome.bind_eq_ok, Outcome.pure_eq, Outcome.ok.injEq] at h
    obtain ⟨n, -, ns', hns', rfl⟩ := h
    rw [List.length_cons, List.length_cons, ih hns']

/-- Nothing is given up while there is room; else each checkpoint is the first or the last one, or
    one that a pinned time needs. -/
theorem sequenceNumberToDelete_none {pinnedTimes : List (Time T)} {n : ℕ}
    (h : s.sequenceNumberToDelete pinnedTimes n = .ok none) :
    s.notUnsaturated.card < s.numberOfCheckpoints ∨
      s.notUnsaturated.card ≤ pinnedTimes.length + 2 := by
  simp only [sequenceNumberToDelete, Outcome.bind_eq_ok] at h
  obtain ⟨first, -, front, -, h⟩ := h
  split at h
  · cases h
  · split at h
    · rename_i hroom
      exact Or.inl hroom
    · simp only [Outcome.bind_eq_ok, Outcome.pure_eq, Outcome.ok.injEq] at h
      obtain ⟨last, -, ns, hns, h⟩ := h
      refine Or.inr ?_
      -- the filter is empty, so every checkpoint is among the numbers that it leaves out
      have hneeded : s.notUnsaturated ⊆
          (first :: ((if last + 1 ≠ n then [last] else []) ++ ns)).toFinset := by
        intro m hm
        by_contra hnot
        rw [List.mem_toFinset] at hnot
        have hmem : m ∈ s.notUnsaturated.filter
            (· ∉ first :: ((if last + 1 ≠ n then [last] else []) ++ ns)) :=
          Finset.mem_filter.mpr ⟨hm, hnot⟩
        rw [OrdSet.minByKey_eq_none h] at hmem
        cases hmem
      calc s.notUnsaturated.card
          ≤ (first :: ((if last + 1 ≠ n then [last] else []) ++ ns)).toFinset.card :=
            Finset.card_le_card hneeded
        _ ≤ (first :: ((if last + 1 ≠ n then [last] else []) ++ ns)).length :=
            List.toFinset_card_le _
        _ ≤ pinnedTimes.length + 2 := by
            rw [List.length_cons, List.length_append, pinnedSteps_length hns]
            split
            · rw [List.length_singleton]
              omega
            · rw [List.length_nil]
              omega

/-- Saturating a step keeps the budget. -/
theorem Starts.card_le {pinnedTimes : List (Time T)} (h : Starts s pinnedTimes s')
    (hs : s.Sound) {p : ℕ} (hp : pinnedTimes.length ≤ p)
    (hcard : s.notUnsaturated.card ≤ max s.numberOfCheckpoints (p + 3)) :
    s'.notUnsaturated.card ≤ max s'.numberOfCheckpoints (p + 3) := by
  cases h with
  | nothing => exact hcard
  | @saturate j prev step s' hprev hsat hstep hunsat hs' =>
    obtain ⟨w, hw⟩ := Step.isSaturated_iff.mp hsat
    obtain ⟨r, f, hr, -, hgiven⟩ := saturate_givenUp hs hprev hw hstep
      (Step.isUnsaturated_iff.mp hunsat) hs'
    have hnumber : s'.numberOfCheckpoints = s.numberOfCheckpoints := by
      cases hgiven <;> rfl
    rw [hnumber, hgiven.checkpoints]
    cases r with
    | none =>
      have hnew := Finset.card_insert_le (s.numDeletedSteps + (j + 1)) s.notUnsaturated
      rw [le_max_iff]
      rcases sequenceNumberToDelete_none hr with hroom | hneeded
      · exact Or.inl (hnew.trans hroom)
      · exact Or.inr (by simp only [Option.elim]; omega)
    | some n =>
      refine le_trans ?_ hcard
      calc (insert (s.numDeletedSteps + (j + 1)) (s.notUnsaturated.erase n)).card
          ≤ (s.notUnsaturated.erase n).card + 1 := Finset.card_insert_le _ _
        _ = s.notUnsaturated.card := Finset.card_erase_add_one (hgiven.mem hs)

/-- **A call keeps the budget.** -/
theorem Call.Does.card_le {c : Call T} (h : c.Does s s') (hs : s.Sound) {p : ℕ}
    (hp : c.pinnedTimes.length ≤ p)
    (hcard : s.notUnsaturated.card ≤ max s.numberOfCheckpoints (p + 3)) :
    s'.notUnsaturated.card ≤ max s'.numberOfCheckpoints (p + 3) := by
  cases h.cases hs with
  | starts hpushed hstarts =>
    refine hstarts.card_le (hpushed.sound hs) hp ?_
    rw [hpushed.notUnsaturated, hpushed.numberOfCheckpoints]
    exact hcard
  | ignored => exact hcard
  | forget => exact (Finset.card_filter_le _ _).trans hcard
  | poll => exact hcard

end Build

end Steps

/-- **The checkpoint budget.**  In a run of calls each of which passes at most `p` pinned times,
    there are never more steps that hold the state of a transposer than the intended number of
    checkpoints, or `p + 3` if that is greater. -/
theorem checkpoint_budget [BuildProfile] {transposer : T} {startTime : Time T}
    {rngSeed : Seed T} {calls : List (Steps.Call T)} {s : Steps T} {p : ℕ}
    (h : Steps.ReachableBy (fun _ c => c.pinnedTimes.length ≤ p) transposer startTime rngSeed
      calls s) :
    s.notUnsaturated.card = s.steps.countP (fun x => !x.isUnsaturated) ∧
      s.notUnsaturated.card ≤ max s.numberOfCheckpoints (p + 3) := by
  refine ⟨h.sound.card_checkpoints, ?_⟩
  induction h with
  | new =>
    show ({0} : Finset ℕ).card ≤ max 30 (p + 3)
    simp
  | call hreach hp hdoes ih => exact hdoes.card_le hreach.sound hp ih

/-- The step at 10 starts while 7 is pinned. -/
theorem checkpoint_budget_script :
    ∃ (_ : BuildProfile) (s : Steps Script), s.steps.length = 2 ∧
      s.notUnsaturated.card ≤ max s.numberOfCheckpoints (1 + 3) := by
  let _ : BuildProfile := debugBuild
  have hnew := @Steps.ReachableBy.new Script _ _ (fun _ c => c.pinnedTimes.length ≤ 1)
    ⟨[.schedule 10], [], [], 0⟩ (0 : ℕ) ()
  have hpoll := hnew.call (by decide) (.poll 0 20 [] rfl rfl rfl)
  have hevents := hpoll.call (by decide) (.getBeforeOrAtEvents (10 : ℕ) [(7 : ℕ)] rfl)
  exact ⟨inferInstance, _, rfl, (checkpoint_budget hevents).2⟩

end Cozal
