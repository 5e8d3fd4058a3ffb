import Cozal.Source.Rounds

namespace Cozal

open Transposer

/-!
# Which step a poll finds

`get_before_or_at` hands out the step that a poll has to wait for by its index.  The index is
found before the first step is consumed, so when that happens it is one too great: it is the
index of the step after the one that was started, or of none.

* `Steps.HandsOutNext` — a poll hands out the step after the one it starts.
* `Steps.BeforeCases.finds` — else it hands out the last checkpoint before or at the time, which
  is saturating.
-/

variable {T : Type} [Transposer T]

namespace Steps

variable {s s' : Steps T}

/-- A poll at `t` consumes the first step for the second one, and hands out `next`, the third
    one, which is later than `t`. -/
def HandsOutNext (s : Steps T) (t : Time T) (next : Step T) : Prop :=
  ∃ front step rest d, s.steps = front :: step :: next :: rest ∧ front.isSaturated = true ∧
    s.deletedBefore = some d ∧ front.getTime < d ∧ step.isUnsaturated = true ∧
    step.getTime ≤ t ∧ t < next.getTime

/-- The push does not matter to it. -/
theorem HandsOutNext.of_pushed {t : Time T} {next : Step T} (hp : Pushed s s')
    (h : s'.HandsOutNext t next) : s.HandsOutNext t next := by
  cases hp with
  | none _ => exact h
  | @push last w k hlast hw hk =>
    obtain ⟨front, step, rest, d, heq, hfront, hd, hlt, hunsat, hle, hgt⟩ := h
    have heq : s.steps ++ [s.nextStep last k] = front :: step :: next :: rest := heq
    cases hsl : s.steps with
    | nil => rw [hsl] at hlast; cases hlast
    | cons x l =>
      rw [hsl, List.cons_append, List.cons.injEq] at heq
      obtain ⟨rfl, heq⟩ := heq
      cases l with
      | nil => cases heq
      | cons y l =>
        rw [List.cons_append, List.cons.injEq] at heq
        obtain ⟨rfl, heq⟩ := heq
        cases l with
        | nil =>
          -- the second step would be the saturated last one
          rw [hsl] at hlast
          obtain rfl : y = last := Option.some.inj hlast
          rw [Step.isUnsaturated_iff.mp hunsat] at hw
          cases hw
        | cons z l =>
          rw [List.cons_append, List.cons.injEq] at heq
          obtain ⟨rfl, -⟩ := heq
          exact ⟨x, y, l, d, hsl, hfront, hd, hlt, hunsat, hle, hgt⟩

/-- **What a poll finds**: the last checkpoint before or at the time, which is saturating; or the
    step after the one it starts. -/
theorem BeforeCases.finds (hs : s.Sound) {pinnedTimes : List (Time T)} {t : Time T} {i n : ℕ}
    {step : Step T} (h : BeforeCases s pinnedTimes t (.ok (.saturating i n)) s')
    (hstep : s'.steps[i]? = some step) :
    (n = s'.numDeletedSteps + i ∧ s'.LatestCheckpoint t i step ∧ step.isSaturating = true) ∨
      s.HandsOutNext t step := by
  cases h with
  | saturating hx hsat =>
    rw [hx.get, Option.some.injEq] at hstep
    subst hstep
    refine Or.inl ⟨rfl, ⟨hx.get, isSaturating_not_unsaturated hsat, hx.le, ?_⟩, hsat⟩
    intro j y hj hy hle
    exact absurd (hx.after j y hj hy) (not_lt.mpr hle)
  | @previous i x prev hx hunsat hprev hsat =>
    rw [hprev, Option.some.injEq] at hstep
    subst hstep
    refine Or.inl ⟨rfl, ⟨hprev, isSaturating_not_unsaturated hsat, ?_, ?_⟩, hsat⟩
    · exact (hs.sorted.lt hprev hx.get (by omega)).le.trans hx.le
    · intro j y hj hy hle
      rcases Nat.lt_or_ge (i + 1) j with hlt | hge
      · exact absurd (hx.after j y hlt hy) (not_lt.mpr hle)
      · obtain rfl : j = i + 1 := by omega
        rw [hx.get, Option.some.injEq] at hy
        subst hy
        exact Step.isUnsaturated_iff.mpr hunsat
  | @start j x prev w _ y hx hunsat hprev hw hcases hy =>
    cases hcases with
    | @saturate f d hf hd hkeep =>
      rw [getElem?_saturatedAt_self hx.get, Option.some.injEq] at hstep
      subst hstep
      refine Or.inl ⟨by simp [saturatedAt], ⟨getElem?_saturatedAt_self hx.get, rfl, hx.le, ?_⟩,
        rfl⟩
      · intro m z hm hz hle
        rcases saturatedAt_cases hx.get hz with ⟨heq, -⟩ | ⟨-, -, z', hz', rfl⟩ | ⟨-, -, hz'⟩
        · omega
        · rfl
        · exact absurd (hx.after m z hm hz') (not_lt.mpr hle)
    | @consume front rest f b hj heq hf hb hlt =>
      -- the first step is gone, and the index is that of the third one
      subst hj
      rw [heq, List.getElem?_cons_zero, Option.some.injEq] at hprev
      subst hprev
      have hrest : rest[0]? = some step := hstep
      cases rest with
      | nil => cases hrest
      | cons z rest =>
        obtain rfl : z = step := Option.some.inj hrest
        have hz : s.steps[2]? = some z := by rw [heq]; rfl
        exact Or.inr ⟨front, x, rest, b, heq, Step.isSaturated_iff.mpr ⟨w, hw⟩, hb, hlt,
          Step.isUnsaturated_iff.mpr hunsat, hx.le, hx.after 2 z (by omega) hz⟩

end Steps

end Cozal
