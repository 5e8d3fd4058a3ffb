import Cozal.Lib.Outcome
import Cozal.Lib.Triangle
import Mathlib.Order.Bounds.Defs

namespace Cozal

/-!
# The channels of duplicates

All duplicates of a source share its channels: the pairs of a duplicate and one of its channels
are numbered along the diagonals.  A duplicate asks how many channels it may use, so that no
number gets above the largest channel of the source.

* `map` — the channel of the source for a channel of a duplicate.
* `intSqrt`, `maxDuplicates`, `maxChannel` — the largest channel of a duplicate.
* `intSqrt_eq`, `maxDuplicates_eq`, `integer_square_root` — they compute what they say.
* `channel_allocation_iff` — when the largest channel is exact.

All of it is for a target of 64 bits.
-/

namespace ChannelMap

section Build

variable [BuildProfile]

/-! ### The functions -/

/-- The channel of the source, with the halving done first so that no product overflows early. -/
def map (duplicate channel : ℕ) : Outcome ℕ := do
  let s ← usizeAdd duplicate channel
  let succ ← usizeAdd s 1
  let product ← (if s % 2 = 0 then usizeMul (s / 2) succ else usizeMul s (succ / 2) : Outcome ℕ)
  usizeAdd product channel

/-- The loop of `int_sqrt`. -/
def intSqrtLoop (a x0 x1 : ℕ) : Outcome ℕ :=
  if x1 < x0 then do
    let quotient ← divide a x1
    let sum ← u128Add x1 quotient
    intSqrtLoop a x1 (sum / 2)
  else return x0
termination_by x0

/-- The square root of a `u128`, which is cast to `usize`. -/
def intSqrt (a : ℕ) : Outcome ℕ :=
  let x0 := a / 2
  if x0 ≠ 0 then do
    let quotient ← divide a x0
    let sum ← u128Add x0 quotient
    let root ← intSqrtLoop a x0 (sum / 2)
    return root % usizeSize
  else return a % usizeSize

/-- The largest duplicate that has a channel, with `channels` the largest one of the source. -/
def maxDuplicates (channels : ℕ) : Outcome ℕ := do
  let channelsSpacious ← u128Mul 2 channels
  let sqrt ← intSqrt channelsSpacious
  let succ ← usizeAdd sqrt 1
  let p := if sqrt % 2 = 0 then checkedMul (sqrt / 2) succ else checkedMul sqrt (succ / 2)
  match p with
  | some m => if m ≤ channels then return sqrt else usizeSub sqrt 1
  | none => usizeSub sqrt 1

/-- How many channels of the source the last full diagonal leaves over. -/
def lastB (n : ℕ) : Outcome ℕ := do
  let a ← maxDuplicates n
  let succ ← usizeAdd a 1
  let product ← (if a % 2 = 0 then usizeMul (a / 2) succ else usizeMul a (succ / 2) : Outcome ℕ)
  usizeSub n product

/-- The largest channel of a duplicate, which is a `NonZeroUsize`. -/
def maxChannel (channels duplicate : ℕ) : Outcome ℕ := do
  let p ← maxDuplicates channels
  let maxB ← usizeSub p duplicate
  let b ← lastB channels
  let maxB ← (if maxB > b then usizeSub maxB 1 else .ok maxB : Outcome ℕ)
  Outcome.assert .zeroChannel (maxB ≠ 0)
  return maxB

/-! ### The square root -/

omit [BuildProfile] in
/-- A division by a number that is not zero returns. -/
theorem divide_of_pos {a b : ℕ} (h : 0 < b) : divide a b = .ok (a / b) := by
  rw [divide, if_neg h.ne']

/-- The loop of Newton's method ends at the square root, without an overflow. -/
theorem intSqrtLoop_eq {a x0 : ℕ} (ha : 0 < a) (hx0 : 0 < x0) (hsize : 2 * x0 < u128Size)
    (hupper : a < (x0 + 1) * (x0 + 1)) :
    intSqrtLoop a x0 ((x0 + a / x0) / 2) = .ok (Nat.sqrt a) := by
  induction x0 using Nat.strong_induction_on with
  | _ x0 ih =>
    obtain ⟨x1, hx1⟩ : ∃ x1, (x0 + a / x0) / 2 = x1 := ⟨_, rfl⟩
    have hnext : a < (x1 + 1) * (x1 + 1) := hx1 ▸ newton_upper hx0 a
    rw [hx1]
    unfold intSqrtLoop
    by_cases hlt : x1 < x0
    · have hpos : 0 < x1 := by
        rcases Nat.eq_zero_or_pos x1 with rfl | hpos
        · omega
        · exact hpos
      have hquotient := div_le_of_lt_succ_sq hpos hnext
      rw [if_pos hlt, divide_of_pos hpos, Outcome.ok_bind, u128Add,
        fitting_of_lt (by omega), Outcome.ok_bind]
      exact ih x1 hlt hpos (by omega) hnext
    · rw [if_neg hlt]
      have hlower : x0 * x0 ≤ a := newton_lower (by omega)
      exact congrArg Outcome.ok (Nat.eq_sqrt.mpr ⟨hlower, hupper⟩)

omit [BuildProfile] in
/-- The root of a number of 128 bits is one of 64 bits. -/
theorem sqrt_lt_usizeSize {a : ℕ} (ha : a < u128Size) : Nat.sqrt a < usizeSize :=
  Nat.sqrt_lt.mpr ha

/-- **`int_sqrt`** returns the square root of every `u128`. -/
theorem intSqrt_eq {a : ℕ} (ha : a < u128Size) : intSqrt a = .ok (Nat.sqrt a) := by
  unfold intSqrt
  by_cases hx0 : a / 2 = 0
  · -- 0 and 1 are their own square roots
    have hroot : Nat.sqrt a = a := by
      have hcases : a = 0 ∨ a = 1 := by omega
      rcases hcases with rfl | rfl
      · rfl
      · rfl
    have hmod : a % usizeSize = a := Nat.mod_eq_of_lt (hroot ▸ sqrt_lt_usizeSize ha)
    simp only [hx0, ne_eq, not_true_eq_false, if_false, hmod, hroot]
    rfl
  · obtain ⟨x0, hx⟩ : ∃ x0, a / 2 = x0 := ⟨_, rfl⟩
    rw [hx] at hx0
    have hpos : 0 < x0 := Nat.pos_of_ne_zero hx0
    have hupper : a < (x0 + 1) * (x0 + 1) := by
      have hle : a ≤ 2 * x0 + 1 := by omega
      nlinarith
    have hquotient : a / x0 ≤ 3 := Nat.div_le_of_le_mul (by omega)
    have hsum : x0 + a / x0 < u128Size := by
      rw [u128Size] at ha ⊢
      omega
    have hloop := intSqrtLoop_eq (show 0 < a by omega) hpos (by omega) hupper
    simp only [hx, ne_eq, hx0, not_false_eq_true, if_true, divide_of_pos hpos, Outcome.ok_bind,
      u128Add, fitting_of_lt hsum, hloop, Nat.mod_eq_of_lt (sqrt_lt_usizeSize ha)]
    rfl

/-! ### The triangular numbers -/

omit [BuildProfile] in
/-- The largest square root a bound on the channels leads to. -/
theorem sqrt_succ_lt {n : ℕ} (hn : n < usizeSize) : Nat.sqrt (2 * n) + 1 < usizeSize := by
  have hle : Nat.sqrt (2 * n) < 2 ^ 33 := Nat.sqrt_lt.mpr (by rw [usizeSize] at hn; omega)
  rw [usizeSize]
  omega

omit [BuildProfile] in
/-- With the even factor halved first, the checked product is the triangle, if that fits. -/
theorem checkedMul_triangle (m : ℕ) :
    (if m % 2 = 0 then checkedMul (m / 2) (m + 1) else checkedMul m ((m + 1) / 2))
      = if triangle m < usizeSize then some (triangle m) else none := by
  split
  · rename_i heven
    rw [checkedMul, half_mul_succ heven]
  · rename_i hodd
    rw [checkedMul, mul_half_succ hodd]

/-- The plain product is the triangle as well, and overflows exactly when that does not fit. -/
theorem usizeMul_triangle (m : ℕ) :
    (if m % 2 = 0 then usizeMul (m / 2) (m + 1) else usizeMul m ((m + 1) / 2))
      = fitting usizeSize (triangle m) := by
  split
  · rename_i heven
    rw [usizeMul, half_mul_succ heven]
  · rename_i hodd
    rw [usizeMul, mul_half_succ hodd]

/-- **`max_duplicates`** returns the root of the largest triangular number not above a bound. -/
theorem maxDuplicates_eq {n : ℕ} (hn : n < usizeSize) :
    ∃ p, maxDuplicates n = .ok p ∧ IsTriangleRoot n p := by
  refine ⟨_, ?_, isTriangleRoot_sqrt n⟩
  have hspacious : 2 * n < u128Size := by
    rw [usizeSize] at hn
    rw [u128Size]
    omega
  have hsucc := sqrt_succ_lt hn
  simp only [maxDuplicates, u128Mul, fitting_of_lt hspacious, Outcome.ok_bind,
    intSqrt_eq hspacious, usizeAdd, fitting_of_lt hsucc, checkedMul_triangle]
  obtain ⟨r, hr⟩ : ∃ r, Nat.sqrt (2 * n) = r := ⟨_, rfl⟩
  rw [hr]
  by_cases htriangle : triangle r ≤ n
  · rw [if_pos (show triangle r < usizeSize by omega), if_pos htriangle]
    exact if_pos htriangle
  · have hpos : 1 ≤ r := by
      rcases Nat.eq_zero_or_pos r with rfl | hpos
      · exact absurd (Nat.zero_le n) htriangle
      · exact hpos
    rw [if_neg htriangle, ← usizeSub_of_le hpos]
    -- an overflow says the same as a number that is too large
    split
    · rename_i m hm
      split at hm
      · rw [← Option.some.inj hm, if_neg htriangle]
      · cases hm
    · rfl

omit [BuildProfile] in
/-- The halved product is bounded like the triangle. -/
theorem triangle_le_iff (m n : ℕ) : m * (m + 1) / 2 ≤ n ↔ triangle m ≤ n := by
  rw [← two_mul_triangle, Nat.mul_div_cancel_left _ Nat.two_pos]

/-- **The integer square root.**  `int_sqrt` ends without an overflow, at the largest number with
    a square not above its argument; so `max_duplicates` ends at the largest number with a
    triangular number not above the number of channels. -/
theorem integer_square_root :
    (∀ a < u128Size, ∃ r, intSqrt a = .ok r ∧ IsGreatest {r | r * r ≤ a} r) ∧
      ∀ n < usizeSize, ∃ m, maxDuplicates n = .ok m ∧ IsGreatest {m | m * (m + 1) / 2 ≤ n} m := by
  constructor
  · intro a ha
    refine ⟨Nat.sqrt a, intSqrt_eq ha, Nat.sqrt_le a, ?_⟩
    intro r hr
    exact Nat.le_sqrt.mpr hr
  · intro n hn
    obtain ⟨m, hm, hroot⟩ := maxDuplicates_eq hn
    refine ⟨m, hm, (triangle_le_iff m n).mpr hroot.1, ?_⟩
    intro k hk
    apply (hroot.le_iff k).mp
    exact (triangle_le_iff k n).mp hk

omit [BuildProfile] in
/-- The successor of a number whose triangle fits does not overflow. -/
theorem succ_lt_of_triangle {m : ℕ} (h : triangle m < usizeSize) : m + 1 < usizeSize := by
  rcases Nat.lt_or_ge m 2 with hlt | hge
  · rw [usizeSize]
    omega
  · exact (Nat.succ_le_of_lt (lt_triangle hge)).trans_lt h

/-- The last `b` is what the number has above the triangle of the root. -/
theorem lastB_eq {n p : ℕ} (hn : n < usizeSize) (hp : maxDuplicates n = .ok p)
    (hroot : IsTriangleRoot n p) : lastB n = .ok (n - triangle p) := by
  have htriangle : triangle p < usizeSize := hroot.1.trans_lt hn
  have hsucc := succ_lt_of_triangle htriangle
  simp only [lastB, hp, Outcome.ok_bind, usizeAdd, fitting_of_lt hsucc, usizeMul_triangle,
    fitting_of_lt htriangle, usizeSub_of_le hroot.1]

/-! ### The channels of a duplicate -/

/-- Without an overflow, `map` numbers the pairs along the diagonals. -/
theorem map_eq {d c : ℕ} (h : diagonal d c < usizeSize) : map d c = .ok (diagonal d c) := by
  have htriangle : triangle (d + c) < usizeSize := by
    rw [diagonal] at h
    omega
  have hsucc := succ_lt_of_triangle htriangle
  simp only [map, usizeAdd, fitting_of_lt (show d + c < usizeSize by omega), Outcome.ok_bind,
    fitting_of_lt hsucc, usizeMul_triangle, fitting_of_lt htriangle]
  exact fitting_of_lt h

/-- The channel of the source for a channel of a duplicate, over all natural numbers. -/
def mapUnbounded (duplicate channel : ℕ) : ℕ :=
  let s := duplicate + channel
  if s % 2 = 0 then s / 2 * (s + 1) + channel else s * ((s + 1) / 2) + channel

omit [BuildProfile] in
/-- The map on unbounded integers is the diagonal pairing. -/
theorem mapUnbounded_eq (d c : ℕ) : mapUnbounded d c = diagonal d c := by
  simp only [mapUnbounded]
  split
  · rename_i heven
    rw [half_mul_succ heven, diagonal]
  · rename_i hodd
    rw [mul_half_succ hodd, diagonal]

/-- `map` computes the channel without an overflow: a build that checks for one returns it. -/
def MapsTo (d c v : ℕ) : Prop := @map debugBuild d c = .ok v

omit [BuildProfile] in
/-- A channel is mapped to its diagonal exactly when the diagonal fits. -/
theorem mapsTo_iff {d c v : ℕ} : MapsTo d c v ↔ v = diagonal d c ∧ diagonal d c < usizeSize := by
  constructor
  · intro h
    have hfitting : ∀ {m w : ℕ}, @fitting debugBuild usizeSize m = .ok w →
        m < usizeSize ∧ w = m := by
      intro m w hm
      unfold fitting at hm
      split at hm
      · rename_i hlt
        exact ⟨hlt, (Outcome.ok.inj hm).symm⟩
      · cases hm
    simp only [MapsTo, map, usizeAdd, Outcome.bind_eq_ok] at h
    obtain ⟨s, hs, succ, hsucc, product, hproduct, h⟩ := h
    obtain ⟨-, rfl⟩ := hfitting hs
    obtain ⟨-, rfl⟩ := hfitting hsucc
    rw [@usizeMul_triangle debugBuild] at hproduct
    obtain ⟨-, rfl⟩ := hfitting hproduct
    obtain ⟨hlt, rfl⟩ := hfitting h
    exact ⟨rfl, hlt⟩
  · rintro ⟨rfl, h⟩
    exact @map_eq debugBuild d c h

/-- The channels up to the largest one are those with a channel of the source. -/
def Exact (n d : ℕ) : Prop :=
  ∀ b, maxChannel n d = .ok b → ∀ c, c ≤ b ↔ ∃ v, MapsTo d c v ∧ v ≤ n

omit [BuildProfile] in
/-- Some value up to the bound is mapped to exactly when the diagonal is up to the bound. -/
theorem exists_mapsTo_iff {n : ℕ} (hn : n < usizeSize) (d c : ℕ) :
    (∃ v, MapsTo d c v ∧ v ≤ n) ↔ diagonal d c ≤ n := by
  simp only [mapsTo_iff]
  constructor
  · rintro ⟨v, ⟨rfl, -⟩, hle⟩
    exact hle
  · intro hle
    exact ⟨_, ⟨rfl, hle.trans_lt hn⟩, hle⟩

/-- A duplicate that has a channel is told its largest one. -/
theorem exact_of_le {n d : ℕ} (hn : n < usizeSize) (hd : triangle d ≤ n) : Exact n d := by
  obtain ⟨p, hp, hroot⟩ := maxDuplicates_eq hn
  have hdp : d ≤ p := (hroot.le_iff d).mp hd
  intro b hb c
  rw [exists_mapsTo_iff hn, diagonal_le_iff hroot hdp]
  simp only [maxChannel, hp, Outcome.ok_bind, usizeSub_of_le hdp, lastB_eq hn hp hroot,
    Outcome.bind_eq_ok, Outcome.pure_eq, Outcome.ok.injEq] at hb
  obtain ⟨maxB, hmax, -, -, rfl⟩ := hb
  split at hmax
  · rename_i hgt
    rw [usizeSub_of_le (by omega), Outcome.ok.injEq] at hmax
    rw [if_pos hgt, hmax]
  · rename_i hle
    rw [if_neg hle, ← Outcome.ok.inj hmax]

/-- With overflow checks, a duplicate that has no channel gets no answer. -/
theorem exact_of_checks {n d : ℕ} (hn : n < usizeSize) (hd : ¬ triangle d ≤ n)
    (hchecks : BuildProfile.debugAssertions = true) : Exact n d := by
  obtain ⟨p, hp, hroot⟩ := maxDuplicates_eq hn
  have hdp : ¬ d ≤ p := fun hle => hd ((hroot.le_iff d).mpr hle)
  intro b hb
  simp only [maxChannel, hp, Outcome.ok_bind, usizeSub, if_neg hdp, hchecks, if_true] at hb
  cases hb

/-- Without the checks of a debug build a subtraction from something smaller wraps around. -/
theorem usizeSub_wraps {a b : ℕ} (h : ¬ b ≤ a) (hchecks : BuildProfile.debugAssertions = false) :
    usizeSub a b = .ok (a + usizeSize - b) := by
  rw [usizeSub, if_neg h, hchecks, if_neg Bool.false_ne_true]

/-- Without them the difference wraps, and a large number is returned. -/
theorem maxChannel_wraps {n d : ℕ} (hpos : 1 ≤ n) (hn : n < usizeSize) (hsize : d < usizeSize)
    (hd : ¬ triangle d ≤ n) (hchecks : BuildProfile.debugAssertions = false) :
    ∃ b, maxChannel n d = .ok b := by
  obtain ⟨p, hp, hroot⟩ := maxDuplicates_eq hn
  have hdp : ¬ d ≤ p := fun hle => hd ((hroot.le_iff d).mpr hle)
  have hone : 1 ≤ p := (hroot.le_iff 1).mp hpos
  have hlast : n - triangle p ≤ p := by
    have hlt := hroot.2
    rw [triangle] at hlt
    omega
  -- the number of values of a `usize` is never computed with
  obtain ⟨size, hsize'⟩ : ∃ size, usizeSize = size := ⟨_, rfl⟩
  have hwraps := usizeSub_wraps hdp hchecks
  have hlast' := lastB_eq hn hp hroot
  rw [hsize'] at hwraps hsize
  obtain ⟨difference, hdifference⟩ : ∃ difference, p + size - d = difference := ⟨_, rfl⟩
  rw [hdifference] at hwraps
  have hgt : difference > n - triangle p := by omega
  have hone' : 1 ≤ difference := by omega
  have hne : difference - 1 ≠ 0 := by omega
  refine ⟨difference - 1, ?_⟩
  simp only [maxChannel, hp, Outcome.ok_bind, hwraps, hlast', if_pos hgt, usizeSub_of_le hone',
    Outcome.assert, if_pos hne, Outcome.pure_eq]

/-- Then the first channel of the duplicate seems to have a channel of the source. -/
theorem not_exact {n d : ℕ} (hpos : 1 ≤ n) (hn : n < usizeSize) (hsize : d < usizeSize)
    (hd : ¬ triangle d ≤ n) (hchecks : BuildProfile.debugAssertions = false) : ¬ Exact n d := by
  intro hexact
  obtain ⟨b, hb⟩ := maxChannel_wraps hpos hn hsize hd hchecks
  have hzero := (hexact b hb 0).mp (Nat.zero_le b)
  rw [exists_mapsTo_iff hn] at hzero
  exact hd hzero

/-- **Channel allocation.**  The channels up to the largest channel of a duplicate are exactly
    those that `map` gives a channel of the source when overflows are checked for, or the
    duplicate has a channel at all; and `map` gives no two channels the same one, neither over
    all natural numbers nor where it does not overflow. -/
theorem channel_allocation_iff {n d : ℕ} (hpos : 1 ≤ n) (hn : n < usizeSize)
    (hd : d < usizeSize) :
    (Exact n d ↔ BuildProfile.debugAssertions = true ∨ triangle d ≤ n) ∧
    Function.Injective2 mapUnbounded ∧
    ∀ d c d' c' v, MapsTo d c v → MapsTo d' c' v →
      v = mapUnbounded d c ∧ d = d' ∧ c = c' := by
  refine ⟨⟨?_, ?_⟩, ?_, ?_⟩
  · intro hexact
    by_contra hnot
    rw [not_or, Bool.not_eq_true] at hnot
    exact not_exact hpos hn hd hnot.2 hnot.1 hexact
  · intro h
    by_cases htriangle : triangle d ≤ n
    · exact exact_of_le hn htriangle
    · exact exact_of_checks hn htriangle (h.resolve_right htriangle)
  · intro d d' c c' h
    rw [mapUnbounded_eq, mapUnbounded_eq] at h
    exact diagonal_inj h
  · intro d c d' c' v h h'
    obtain ⟨rfl, -⟩ := mapsTo_iff.mp h
    obtain ⟨heq, -⟩ := mapsTo_iff.mp h'
    exact ⟨(mapUnbounded_eq d c).symm, diagonal_inj heq⟩

end Build

/-- The first duplicate of a source with five channels. -/
theorem channel_allocation_first : @Exact releaseBuild 5 0 :=
  (@channel_allocation_iff releaseBuild 5 0 (by decide) (by decide) (by decide)).1.mpr
    (Or.inr (by decide))

/-- The third duplicate of a source with two channels is told a largest channel, though even its
    first channel stands for the third one of the source. -/
theorem channel_allocation_fails :
    ∃ (_ : BuildProfile) (b : ℕ), maxChannel 2 2 = .ok b ∧ MapsTo 2 0 3 ∧ ¬ Exact 2 2 := by
  let _ : BuildProfile := releaseBuild
  obtain ⟨b, hb⟩ := maxChannel_wraps (n := 2) (d := 2) (by decide) (by decide) (by decide)
    (by decide) rfl
  exact ⟨releaseBuild, b, hb, mapsTo_iff.mpr ⟨rfl, by decide⟩,
    not_exact (by decide) (by decide) (by decide) (by decide) rfl⟩

end ChannelMap

end Cozal
