import Mathlib.Data.Nat.Sqrt
import Mathlib.Order.Monotone.Basic
import Mathlib.Tactic.Linarith
import Mathlib.Tactic.Ring

namespace Cozal

/-!
# Triangular numbers

* `triangle` — the triangular numbers, and `triangleRoot`, the largest one not above a bound.
* `diagonal` — the numbering of pairs along the diagonals; `diagonal_inj`, it numbers no two pairs
  alike, and `diagonal_le_iff`, the pairs of a row with a number not above a bound.
* `newton_upper`, `newton_lower` — a round of Newton's method for a square root ends above it, or
  has started at it.
-/

/-! ### Triangular numbers -/

/-- The sum of the numbers up to `m`. -/
def triangle : ℕ → ℕ
  | 0 => 0
  | m + 1 => triangle m + (m + 1)

/-- Twice the triangle is the product of the two factors. -/
theorem two_mul_triangle (m : ℕ) : 2 * triangle m = m * (m + 1) := by
  induction m with
  | zero => rfl
  | succ m ih =>
    rw [triangle, Nat.mul_add, ih]
    ring

/-- The triangles increase from one to the next. -/
theorem triangle_lt_succ (m : ℕ) : triangle m < triangle (m + 1) := by
  rw [triangle]
  omega

/-- The triangles increase. -/
theorem triangle_strictMono : StrictMono triangle := strictMono_nat_of_lt_succ triangle_lt_succ

/-- Half of an even number times the next one. -/
theorem half_mul_succ {m : ℕ} (h : m % 2 = 0) : m / 2 * (m + 1) = triangle m := by
  have htwo : 2 * (m / 2) = m := by omega
  have heq : 2 * (m / 2 * (m + 1)) = 2 * triangle m := by
    rw [two_mul_triangle, ← Nat.mul_assoc, htwo]
  omega

/-- An odd number times half of the next one. -/
theorem mul_half_succ {m : ℕ} (h : ¬ m % 2 = 0) : m * ((m + 1) / 2) = triangle m := by
  have htwo : 2 * ((m + 1) / 2) = m + 1 := by omega
  have heq : 2 * (m * ((m + 1) / 2)) = 2 * triangle m := by
    rw [two_mul_triangle, Nat.mul_left_comm, htwo]
  omega

/-- A number is not larger than its triangle. -/
theorem le_triangle (m : ℕ) : m ≤ triangle m := by
  induction m with
  | zero => exact Nat.le_refl 0
  | succ m ih =>
    rw [triangle]
    omega

/-- From 2 on, a triangular number is above its place. -/
theorem lt_triangle {m : ℕ} (h : 2 ≤ m) : m < triangle m := by
  cases m with
  | zero => omega
  | succ m =>
    have hle := le_triangle m
    rw [triangle]
    omega

/-- The triangular number of `m` is the largest one not above `n`. -/
def IsTriangleRoot (n m : ℕ) : Prop := triangle m ≤ n ∧ n < triangle (m + 1)

/-- Exactly the numbers up to the root have a triangle up to `n`. -/
theorem IsTriangleRoot.le_iff {n m : ℕ} (h : IsTriangleRoot n m) (k : ℕ) :
    triangle k ≤ n ↔ k ≤ m := by
  constructor
  · intro hk
    by_contra hlt
    have hle : triangle (m + 1) ≤ triangle k := triangle_strictMono.monotone (by omega)
    exact absurd h.2 (by omega)
  · intro hk
    exact (triangle_strictMono.monotone hk).trans h.1

/-- The root of a triangular bound is the square root of the doubled bound, or the number before
    it. -/
theorem isTriangleRoot_sqrt (n : ℕ) : IsTriangleRoot n
    (if triangle (Nat.sqrt (2 * n)) ≤ n then Nat.sqrt (2 * n) else Nat.sqrt (2 * n) - 1) := by
  obtain ⟨r, hr⟩ : ∃ r, Nat.sqrt (2 * n) = r := ⟨_, rfl⟩
  have hle : r * r ≤ 2 * n := hr ▸ Nat.sqrt_le (2 * n)
  have hlt : 2 * n < (r + 1) * (r + 1) := hr ▸ Nat.lt_succ_sqrt (2 * n)
  rw [hr]
  by_cases htriangle : triangle r ≤ n
  · rw [if_pos htriangle]
    refine ⟨htriangle, ?_⟩
    have htwo := two_mul_triangle (r + 1)
    nlinarith
  · rw [if_neg htriangle]
    cases r with
    | zero => exact absurd (Nat.zero_le n) htriangle
    | succ r =>
      rw [Nat.add_sub_cancel]
      have htwo := two_mul_triangle r
      exact ⟨by nlinarith, Nat.not_le.mp htriangle⟩

/-! ### Pairs along the diagonals -/

/-- The number of a pair: the pairs of smaller sums come before it. -/
def diagonal (d c : ℕ) : ℕ := triangle (d + c) + c

/-- The number of a pair lies on its diagonal. -/
theorem diagonal_lt (d c : ℕ) : diagonal d c < triangle (d + c + 1) := by
  rw [diagonal, triangle]
  omega

/-- No two pairs have one number. -/
theorem diagonal_inj {d c d' c' : ℕ} (h : diagonal d c = diagonal d' c') : d = d' ∧ c = c' := by
  have hsum : ∀ {d c d' c' : ℕ}, diagonal d c = diagonal d' c' → ¬ d + c < d' + c' := by
    intro d c d' c' h hlt
    have hle : triangle (d + c + 1) ≤ triangle (d' + c') := triangle_strictMono.monotone hlt
    have hbefore := diagonal_lt d c
    rw [h, diagonal] at hbefore
    omega
  have heq : d + c = d' + c' := by
    have h₁ := hsum h
    have h₂ := hsum h.symm
    omega
  rw [diagonal, diagonal, heq] at h
  omega

/-- The pairs of row `d` with a number not above a bound end on the last full diagonal, or where
    the bound cuts the next one. -/
theorem diagonal_le_iff {n m d : ℕ} (h : IsTriangleRoot n m) (hd : d ≤ m) (c : ℕ) :
    diagonal d c ≤ n ↔ c ≤ if m - d > n - triangle m then m - d - 1 else m - d := by
  rcases Nat.lt_trichotomy (d + c) m with hlt | heq | hgt
  · have hle : triangle (d + c + 1) ≤ triangle m := triangle_strictMono.monotone hlt
    have hdiag : diagonal d c ≤ n := ((diagonal_lt d c).le.trans hle).trans h.1
    have hroot := h.1
    split <;> simp only [hdiag, true_iff] <;> omega
  · rw [diagonal, heq]
    have hroot := h.1
    split <;> omega
  · have hle : triangle (m + 1) ≤ triangle (d + c) := triangle_strictMono.monotone hgt
    have hdiag : ¬ diagonal d c ≤ n := by
      rw [diagonal]
      have := h.2
      omega
    simp only [hdiag, false_iff]
    split <;> omega

/-! ### Newton's method -/

/-- A round ends not below the square root. -/
theorem newton_upper {x : ℕ} (hx : 0 < x) (a : ℕ) :
    a < ((x + a / x) / 2 + 1) * ((x + a / x) / 2 + 1) := by
  obtain ⟨q, hq⟩ : ∃ q, a / x = q := ⟨_, rfl⟩
  have ha : a < x * (q + 1) := by
    rw [← hq, Nat.mul_comm]
    exact Nat.lt_mul_of_div_lt (Nat.lt_succ_self _) hx
  rw [hq]
  obtain ⟨y, hy⟩ : ∃ y, (x + q) / 2 = y := ⟨_, rfl⟩
  have hsum : x + (q + 1) ≤ 2 * (y + 1) := by omega
  rw [hy]
  -- a product is not above the square of the mean of its factors
  by_contra hle
  nlinarith [Nat.mul_le_mul hsum hsum, sq_nonneg ((x : ℤ) - (q + 1))]

/-- A round that does not go down has started not above the square root. -/
theorem newton_lower {x a : ℕ} (h : x ≤ (x + a / x) / 2) : x * x ≤ a := by
  have hdiv : x ≤ a / x := by omega
  calc x * x ≤ x * (a / x) := Nat.mul_le_mul_left x hdiv
    _ ≤ a := Nat.mul_div_le a x

/-- From above the square root, the quotient is not much larger. -/
theorem div_le_of_lt_succ_sq {x a : ℕ} (hx : 0 < x) (h : a < (x + 1) * (x + 1)) :
    a / x ≤ x + 2 := by
  rw [← Nat.lt_succ_iff, Nat.div_lt_iff_lt_mul hx]
  nlinarith

end Cozal
