import Scamp.Lib.Numerals
import Mathlib.Algebra.BigOperators.Intervals
import Mathlib.Algebra.Order.BigOperators.Ring.Finset
import Mathlib.Algebra.Order.Field.Basic
import Mathlib.Analysis.Real.Sqrt
import Mathlib.Tactic.FieldSimp
import Mathlib.Tactic.LinearCombination
import Mathlib.Tactic.Linarith

/-!
# `Lib.Window` — sums over sliding windows

A series is a function `x : ℕ → K`; its window `i` of length `m` holds `x i, …, x (i + m - 1)`. This
module has the window sum and mean, the sum of squared deviations and the centred dot product of two
windows, and what a streaming algorithm needs about them: how each moves when the window advances by one
(for the dot product along a diagonal, two different update formulas), and that the normalised dot product
of two windows is at most one.

## Contents
- **Windows.** `windowSum`, `windowMean`, `ssd`, `cdot`.
- **Streaming updates.** `windowSum_succ`, `ssd_succ`, `cdot_succ`, and `cdot_succ_inner` for the formula
  over the means of the `m - 1` entries two consecutive windows share.
- **The correlation bound.** `cdot_sq_le`, `abs_corr_le_one`.
-/

namespace Lib

open Finset

section
variable {K : Type} [Field K]

/-! ## Windows -/

/-- The sum of window `i`. -/
def windowSum (x : ℕ → K) (m i : ℕ) : K := ∑ j ∈ range m, x (i + j)

/-- The mean of window `i`. -/
def windowMean (x : ℕ → K) (m i : ℕ) : K := windowSum x m i / m

/-- The sum of squared deviations of window `i` from its mean. -/
def ssd (x : ℕ → K) (m i : ℕ) : K := ∑ j ∈ range m, (x (i + j) - windowMean x m i) ^ 2

/-- The centred dot product of window `c` of `x` with window `r` of `y`. -/
def cdot (x y : ℕ → K) (m c r : ℕ) : K :=
  ∑ j ∈ range m, (x (c + j) - windowMean x m c) * (y (r + j) - windowMean y m r)

/-- The plain dot product of window `c` of `x` with window `r` of `y`. -/
def wdot (x y : ℕ → K) (m c r : ℕ) : K := ∑ j ∈ range m, x (c + j) * y (r + j)

variable (x y : ℕ → K) (m c r i : ℕ)

theorem ssd_eq_cdot : ssd x m i = cdot x x m i i := by
  unfold ssd cdot
  exact sum_congr rfl fun j _ => by ring

theorem cdot_comm : cdot x y m c r = cdot y x m r c := by
  unfold cdot
  exact sum_congr rfl fun j _ => by ring

/-- A window function only reads its own `m` entries. -/
theorem windowMean_congr {x x' : ℕ → K} {i i' : ℕ} (h : ∀ j < m, x (i + j) = x' (i' + j)) :
    windowMean x m i = windowMean x' m i' := by
  unfold windowMean windowSum
  rw [sum_congr rfl fun j hj => h j (mem_range.mp hj)]

theorem cdot_congr {x x' y y' : ℕ → K} {c c' r r' : ℕ} (hx : ∀ j < m, x (c + j) = x' (c' + j))
    (hy : ∀ j < m, y (r + j) = y' (r' + j)) : cdot x y m c r = cdot x' y' m c' r' := by
  unfold cdot
  rw [windowMean_congr m hx, windowMean_congr m hy]
  exact sum_congr rfl fun j hj => by rw [hx j (mem_range.mp hj), hy j (mem_range.mp hj)]

/-! ## Streaming updates -/

/-- Sliding a sum of `m` terms by one drops its first term and takes in the next. -/
theorem sum_slide (f : ℕ → K) : ∑ j ∈ range m, f (j + 1) = ∑ j ∈ range m, f j - f 0 + f m := by
  have h1 := sum_range_succ f m
  have h2 := sum_range_succ' f m
  rw [h1] at h2
  linear_combination -h2

theorem windowSum_succ : windowSum x m (i + 1) = windowSum x m i - x i + x (i + m) := by
  have hslide := sum_slide m fun j => x (i + j)
  unfold windowSum
  simpa [Nat.add_right_comm, ← Nat.add_assoc] using hslide

theorem wdot_succ :
    wdot x y m (c + 1) (r + 1) = wdot x y m c r - x c * y r + x (c + m) * y (r + m) := by
  have hslide := sum_slide m fun j => x (c + j) * y (r + j)
  unfold wdot
  simpa [Nat.add_right_comm, ← Nat.add_assoc] using hslide

end

section
variable {K : Type} [Field K] [CharZero K] (x y : ℕ → K) {m : ℕ} (c r i : ℕ)

/-- The centred dot product from the plain one. -/
theorem cdot_eq (hm : 0 < m) :
    cdot x y m c r = wdot x y m c r - windowSum x m c * windowSum y m r / m := by
  have hm' : (m : K) ≠ 0 := by exact_mod_cast hm.ne'
  have hexpand : cdot x y m c r = wdot x y m c r - windowMean y m r * windowSum x m c
      - windowMean x m c * windowSum y m r + m * (windowMean x m c * windowMean y m r) := by
    have hconst : (m : K) * (windowMean x m c * windowMean y m r) =
        ∑ _j ∈ range m, windowMean x m c * windowMean y m r := by
      rw [sum_const, card_range, nsmul_eq_mul]
    rw [hconst]
    unfold cdot wdot windowSum
    rw [mul_sum, mul_sum, ← sum_sub_distrib, ← sum_sub_distrib, ← sum_add_distrib]
    exact sum_congr rfl fun j _ => by ring
  rw [hexpand]
  unfold windowMean
  field_simp
  ring

/-- **The diagonal update.** One step down a diagonal changes the centred dot product by
    `dfa * dgb + dga * dfb`, where `df` is half the difference of the entry that comes in and the one that
    goes out, and `dg` the sum of their deviations from the new and the old mean. -/
theorem cdot_succ (hm : 0 < m) :
    cdot x y m (c + 1) (r + 1) = cdot x y m c r
      + (x (c + m) - x c) / 2
          * ((y (r + m) - windowMean y m (r + 1)) + (y r - windowMean y m r))
      + ((x (c + m) - windowMean x m (c + 1)) + (x c - windowMean x m c))
          * ((y (r + m) - y r) / 2) := by
  have hm' : (m : K) ≠ 0 := by exact_mod_cast hm.ne'
  rw [cdot_eq x y _ _ hm, cdot_eq x y _ _ hm, wdot_succ]
  unfold windowMean
  rw [windowSum_succ, windowSum_succ]
  field_simp
  ring

/-- **The diagonal update over the shared entries.** The same step, with the deviations of `y` taken from
    the mean of the `m - 1` entries that the two consecutive windows have in common. -/
theorem cdot_succ_inner (hm : 1 < m) :
    cdot x y m (c + 1) (r + 1) = cdot x y m c r
      + -1 * (x c - windowMean x m c) * (y r - windowMean y (m - 1) (r + 1))
      + (x (c + m) - windowMean x m (c + 1)) * (y (r + m) - windowMean y (m - 1) (r + 1)) := by
  obtain ⟨n, rfl⟩ : ∃ n, m = n + 2 := ⟨m - 2, by omega⟩
  have hn1 : ((n : K) + 1) ≠ 0 := by exact_mod_cast Nat.succ_ne_zero n
  have hn2 : ((n : K) + 2) ≠ 0 := by exact_mod_cast Nat.succ_ne_zero (n + 1)
  have hshared : windowSum y (n + 1) (r + 1) = windowSum y (n + 2) r - y r := by
    unfold windowSum
    rw [sum_range_succ' _ (n + 1)]
    simp only [Nat.add_zero, add_sub_cancel_right]
    exact sum_congr rfl fun j _ => by rw [Nat.add_right_comm, Nat.add_assoc]
  rw [cdot_eq x y _ _ (by omega), cdot_eq x y _ _ (by omega), wdot_succ]
  unfold windowMean
  rw [show n + 2 - 1 = n + 1 by omega, hshared, windowSum_succ, windowSum_succ]
  push_cast
  field_simp
  ring

/-- **The streaming sum of squared deviations.** -/
theorem ssd_succ (hm : 0 < m) :
    ssd x m (i + 1) = ssd x m i
      + ((x i - windowMean x m i) + (x (i + m) - windowMean x m (i + 1))) * (x (i + m) - x i) := by
  rw [ssd_eq_cdot, ssd_eq_cdot, cdot_succ x x _ _ hm]
  ring

end

/-! ## The correlation bound -/

section
variable {K : Type} [Field K] [LinearOrder K] [IsStrictOrderedRing K] (x y : ℕ → K) (m c r : ℕ)

theorem ssd_nonneg : 0 ≤ ssd x m c := sum_nonneg fun _ _ => sq_nonneg _

/-- Cauchy–Schwarz for two windows. -/
theorem cdot_sq_le : cdot x y m c r ^ 2 ≤ ssd x m c * ssd y m r :=
  sum_mul_sq_le_sq_mul_sq _ _ _

end

/-- The correlation of two windows that are not constant is at most one in absolute value. -/
theorem abs_corr_le_one (x y : ℕ → ℝ) (m c r : ℕ) :
    |cdot x y m c r * (1 / √(ssd x m c)) * (1 / √(ssd y m r))| ≤ 1 := by
  have hx := ssd_nonneg x m c
  have hy := ssd_nonneg y m r
  have hnum : |cdot x y m c r| ≤ √(ssd x m c) * √(ssd y m r) := by
    rw [← Real.sqrt_mul hx]
    exact Real.abs_le_sqrt (cdot_sq_le x y m c r)
  have hden : 0 ≤ √(ssd x m c) * √(ssd y m r) := by positivity
  calc |cdot x y m c r * (1 / √(ssd x m c)) * (1 / √(ssd y m r))|
      = |cdot x y m c r| / (√(ssd x m c) * √(ssd y m r)) := by
        rw [mul_assoc, one_div_mul_one_div, abs_mul, abs_of_nonneg (one_div_nonneg.mpr hden),
          mul_one_div]
    _ ≤ 1 := div_le_one_of_le₀ hnum hden

end Lib
