import Mathlib.Algebra.Order.Ring.Nat
import Mathlib.Data.Finset.Card
import Mathlib.Tactic.Common

namespace Cozal

/-!
# Thinning out a set of numbers

A set of numbers grows at its end, and for each new number another one is given up: one that is
divisible by as few powers of a base as possible.  What is left stays close to a grid.  Its width
is a power of the base, which grows as the set does.

* `EvenlySpaced` — the set holds a grid, and but for its end it lies in the next finer one.
* `LeastDivisible` — what is given up.
* `EvenlySpaced.evict` — to give it up keeps the set evenly spaced.
* `EvenlySpaced.gap_le`, `EvenlySpaced.le_gap` — how far apart the numbers are.
-/

variable {b k n : ℕ} {S : Finset ℕ}

/-- Up to `n`, the set holds the multiples of `b ^ k`.  But for `n` its elements are multiples of
    `b ^ (k - 1)`. -/
structure EvenlySpaced (b k n : ℕ) (S : Finset ℕ) : Prop where
  le : ∀ m ∈ S, m ≤ n
  grid : ∀ m ≤ n, b ^ k ∣ m → m ∈ S
  near : ∀ m ∈ S, m ≠ n → b ^ (k - 1) ∣ m

/-- No positive element of the set is divisible by fewer powers of `b`. -/
structure LeastDivisible (b d : ℕ) (S : Finset ℕ) : Prop where
  mem : d ∈ S
  pos : 0 < d
  least : ∀ m ∈ S, 0 < m → ∀ j, b ^ j ∣ d → b ^ j ∣ m

/-- All numbers up to `n` are evenly spaced, with nothing left out. -/
theorem evenlySpaced_range (b n : ℕ) : EvenlySpaced b 0 n (Finset.range (n + 1)) where
  le := by
    intro m hm
    exact Nat.lt_succ_iff.mp (Finset.mem_range.mp hm)
  grid := by
    intro m hm _
    exact Finset.mem_range.mpr (Nat.lt_succ_of_le hm)
  near := by
    intro m _ _
    rw [Nat.zero_sub, pow_zero]
    exact one_dvd m

/-- **Giving up one number for the next one** keeps the set evenly spaced.  When every number is
    on the grid, the grid becomes wider. -/
theorem EvenlySpaced.evict (h : EvenlySpaced b k n S) (hb : 2 ≤ b) {d : ℕ}
    (hd : LeastDivisible b d S) :
    ∃ k', EvenlySpaced b k' (n + 1) (insert (n + 1) (S.erase d)) := by
  have hle : ∀ m ∈ insert (n + 1) (S.erase d), m ≤ n + 1 := by
    intro m hm
    rcases Finset.mem_insert.mp hm with rfl | hm
    · exact le_rfl
    · exact (h.le m (Finset.mem_of_mem_erase hm)).trans (Nat.le_succ n)
  by_cases hall : ∀ m ∈ S, b ^ k ∣ m
  · refine ⟨k + 1, hle, ?_, ?_⟩
    · intro m hm hdvd
      rcases hm.lt_or_eq with hlt | rfl
      · refine Finset.mem_insert_of_mem (Finset.mem_erase.mpr ⟨?_, ?_⟩)
        · rintro rfl
          -- the width of the old grid is in the set, and not on the new grid
          have hwidth : b ^ k ∈ S := by
            refine h.grid _ ?_ dvd_rfl
            exact (Nat.le_of_dvd hd.pos (hall m hd.mem)).trans (h.le m hd.mem)
          have hpos : 0 < b ^ k := Nat.pow_pos (by omega)
          have hle := Nat.le_of_dvd hpos (hd.least _ hwidth hpos (k + 1) hdvd)
          exact absurd hle (not_le.mpr (Nat.pow_lt_pow_right (by omega) (Nat.lt_succ_self k)))
        · exact h.grid m (Nat.lt_succ_iff.mp hlt) ((pow_dvd_pow b (Nat.le_succ k)).trans hdvd)
      · exact Finset.mem_insert_self _ _
    · intro m hm hne
      exact hall m (Finset.mem_of_mem_erase (Finset.mem_of_mem_insert_of_ne hm hne))
  · simp only [not_forall] at hall
    obtain ⟨m₀, hm₀, hndvd⟩ := hall
    have hm₀pos : 0 < m₀ := Nat.pos_of_ne_zero (by
      rintro rfl
      exact hndvd (Dvd.intro _ (Nat.mul_zero _)))
    refine ⟨k, hle, ?_, ?_⟩
    · intro m hm hdvd
      rcases hm.lt_or_eq with hlt | rfl
      · refine Finset.mem_insert_of_mem (Finset.mem_erase.mpr ⟨?_, ?_⟩)
        · rintro rfl
          exact hndvd (hd.least m₀ hm₀ hm₀pos k hdvd)
        · exact h.grid m (Nat.lt_succ_iff.mp hlt) hdvd
      · exact Finset.mem_insert_self _ _
    · intro m hm hne
      obtain ⟨hmd, hmS⟩ := Finset.mem_erase.mp (Finset.mem_of_mem_insert_of_ne hm hne)
      by_contra hnear
      -- a number off the finer grid is the end of the set, and is the one to be given up
      have hmn : m = n := by
        by_contra hmn
        exact hnear (h.near m hmS hmn)
      have hmpos : 0 < m := Nat.pos_of_ne_zero (by
        rintro rfl
        exact hnear (Dvd.intro _ (Nat.mul_zero _)))
      have hdnear : b ^ (k - 1) ∣ d := h.near d hd.mem (by rintro rfl; exact hmd hmn)
      exact hnear (hd.least m hmS hmpos (k - 1) hdnear)

/-- Numbers that follow one another are at most the width of the grid apart. -/
theorem EvenlySpaced.gap_le (h : EvenlySpaced b k n S) (hb : 2 ≤ b) {a c : ℕ} (hc : c ∈ S)
    (hac : a < c) (hnext : ∀ m ∈ S, a < m → c ≤ m) : c - a ≤ b ^ k := by
  have hpos : 0 < b ^ k := Nat.pow_pos (by omega)
  have hgrid : ∀ m ≤ n, b ^ k ∣ m → m ∈ S := h.grid
  generalize b ^ k = w at hpos hgrid ⊢
  -- the first multiple after `a`
  have hmod := Nat.mod_lt a hpos
  have hdiv := Nat.div_add_mod a w
  have hmul : w * (a / w + 1) = w * (a / w) + w := Nat.mul_succ _ _
  rcases Nat.lt_or_ge n (w * (a / w + 1)) with hlt | hge
  · have hcn := h.le c hc
    omega
  · have hcm := hnext _ (hgrid _ hge (Nat.dvd_mul_right _ _)) (by omega)
    omega

/-- But for the end of the set, numbers are at least the width of the next finer grid apart. -/
theorem EvenlySpaced.le_gap (h : EvenlySpaced b k n S) {a c : ℕ} (ha : a ∈ S) (hc : c ∈ S)
    (hac : a < c) (hcn : c ≠ n) : b ^ (k - 1) ≤ c - a := by
  have han : a ≠ n := (hac.trans_le (h.le c hc)).ne
  exact Nat.le_of_dvd (Nat.sub_pos_of_lt hac) (Nat.dvd_sub (h.near c hc hcn) (h.near a ha han))

end Cozal
