import Scamp.Core.CpuStats
import Scamp.Lib.Loop
import Scamp.Lib.Window

/-!
# `Core.Correctness.Stats` — what the precomputed statistics are

Each accumulator loop computes the window quantity it stands for: `movingMean` the mean, either sum of
squares the sum of squared deviations, `stepsSinceLastNan` whether a subsequence is free of non-finite
values, `computeQTCPU` the centred dot product with the first window. Both settings of
`high_precision_norms` therefore give the same statistics.
-/

namespace Scamp

open Lib Finset

/-! ## Cleaning the input -/

section
variable {K : Type}

/-- The series a join computes with. -/
def cleanSeries [Zero K] (T : Vec (Sample K)) : ℕ → K := fun i => (T.get i).cleaned

/-- All samples of window `i` are finite. -/
def FiniteWindow (T : Vec (Sample K)) (m i : ℕ) : Prop := ∀ j < m, (T.get (i + j)).isFinite = true

instance (T : Vec (Sample K)) (m i : ℕ) : Decidable (FiniteWindow T m i) :=
  inferInstanceAs (Decidable (∀ j < m, _ = true))

/-- The counter falls short of `m` exactly as long as one of the last `m` samples is not finite. -/
theorem stepsSinceLastNan_lt_iff (T : Vec (Sample K)) (m : ℕ) :
    ∀ i k, k ≤ m →
      (stepsSinceLastNan T m i < k ↔ ∃ j < k, j ≤ i ∧ (T.get (i - j)).isFinite = false)
  | 0, k, _ => by
      unfold stepsSinceLastNan
      split
      · next hfin =>
          constructor
          · intro h
            omega
          · rintro ⟨j, _, hj, hbad⟩
            rw [Nat.zero_sub, hfin] at hbad
            exact absurd hbad Bool.noConfusion
      · next hbad =>
          constructor
          · intro h
            exact ⟨0, h, Nat.le_refl 0, by simpa using hbad⟩
          · rintro ⟨j, hj, _⟩
            omega
  | i + 1, k, hk => by
      unfold stepsSinceLastNan
      split
      · next hfin =>
          -- the new sample is finite: the last bad one is a step further back
          have ih := stepsSinceLastNan_lt_iff T m i (k - 1) (by omega)
          rw [show (stepsSinceLastNan T m i + 1 < k ↔ stepsSinceLastNan T m i < k - 1) by omega, ih]
          constructor
          · rintro ⟨j, hj, hji, hbad⟩
            exact ⟨j + 1, by omega, by omega, by rwa [Nat.add_sub_add_right]⟩
          · rintro ⟨j, hj, hji, hbad⟩
            cases j with
            | zero =>
                rw [Nat.sub_zero, hfin] at hbad
                exact absurd hbad Bool.noConfusion
            | succ j => exact ⟨j, by omega, by omega, by rwa [Nat.add_sub_add_right] at hbad⟩
      · next hbad =>
          constructor
          · intro h
            exact ⟨0, h, Nat.zero_le _, by simpa using hbad⟩
          · rintro ⟨j, hj, _⟩
            omega

/-- `nanvals` marks exactly the subsequences with a non-finite sample. -/
theorem nanvals_eq (T : Vec (Sample K)) (m i : ℕ) :
    decide (stepsSinceLastNan T m (i + m - 1) < m) = false ↔ FiniteWindow T m i := by
  rw [decide_eq_false_iff_not, stepsSinceLastNan_lt_iff T m _ m (Nat.le_refl m)]
  constructor
  · intro h j hj
    by_contra hbad
    refine h ⟨m - 1 - j, by omega, by omega, ?_⟩
    rw [show i + m - 1 - (m - 1 - j) = i + j by omega]
    simpa using hbad
  · rintro h ⟨j, hj, _, hbad⟩
    have := h (m - 1 - j) (by omega)
    rw [show i + (m - 1 - j) = i + m - 1 - j by omega, hbad] at this
    exact Bool.noConfusion this

end

/-! ## Sums, means and sums of squares -/

section
variable {K : Type} [Field K] [LinearOrder K]

omit [LinearOrder K] in
/-- An accumulating loop is the sum of its terms. -/
theorem foldl_add_range (f : ℕ → K) (n : ℕ) :
    (List.range n).foldl (fun sum j => sum + f j) 0 = ∑ j ∈ range n, f j := by
  refine foldl_range_inv (fun i sum => sum = ∑ j ∈ range i, f j) n 0 (by simp) ?_
  intro i sum _ h
  rw [h, sum_range_succ]

omit [LinearOrder K] in
theorem bruteForceMovingMean_get (a : Vec K) (w i : ℕ) :
    (bruteForceMovingMean a w).get i = windowMean a.get w i := by
  unfold bruteForceMovingMean windowMean windowSum
  dsimp only
  rw [foldl_add_range]

omit [LinearOrder K] in
/-- In exact arithmetic no rounding error is lost. -/
theorem MeanAccum.add_eq (acc : MeanAccum K) (v : K) : acc.add v = ⟨acc.p + v, acc.s⟩ := by
  unfold MeanAccum.add
  rw [MeanAccum.mk.injEq]
  exact ⟨rfl, by ring⟩

omit [LinearOrder K] in
theorem MeanAccum.sub_eq (acc : MeanAccum K) (v : K) : acc.sub v = ⟨acc.p - v, acc.s⟩ := by
  unfold MeanAccum.sub
  rw [MeanAccum.mk.injEq]
  exact ⟨rfl, by ring⟩

omit [LinearOrder K] in
theorem movingMeanAccum_eq (a : Vec K) {w : ℕ} (hw : 0 < w) :
    ∀ i, movingMeanAccum a w i = ⟨windowSum a.get w i, 0⟩
  | 0 => by
      unfold movingMeanAccum windowSum
      have hinv := foldl_range'_inv (f := fun acc i => MeanAccum.add acc (a.get i))
        (fun i acc => acc = ⟨∑ j ∈ range i, a.get j, 0⟩) (w - 1) 1 ⟨a.get 0, 0⟩ (by simp)
        (fun i acc _ _ h => by rw [h, MeanAccum.add_eq, sum_range_succ])
      rw [hinv, Nat.add_sub_cancel' hw]
      simp
  | i + 1 => by
      rw [movingMeanAccum, movingMeanAccum_eq a hw i, MeanAccum.sub_eq, MeanAccum.add_eq,
        windowSum_succ]

omit [LinearOrder K] in
theorem movingMean_get (a : Vec K) {w : ℕ} (hw : 0 < w) (i : ℕ) :
    (movingMean a w).get i = windowMean a.get w i := by
  unfold movingMean windowMean
  dsimp only
  rw [movingMeanAccum_eq a hw, add_zero]

omit [LinearOrder K] in
theorem sumOfSquares_eq (a : Vec K) (w i : ℕ) :
    sumOfSquares a w i (windowMean a.get w i) = ssd a.get w i := by
  unfold sumOfSquares ssd
  rw [foldl_add_range]
  exact sum_congr rfl fun j _ => (sq _).symm

theorem fastSumOfSquares_eq [IsStrictOrderedRing K] (a means : Vec K) {w : ℕ} (hw : 0 < w)
    (hmeans : ∀ i, means.get i = windowMean a.get w i) :
    ∀ i, fastSumOfSquares a means w i = ssd a.get w i
  | 0 => by rw [fastSumOfSquares, hmeans, sumOfSquares_eq]
  | i + 1 => by
      rw [fastSumOfSquares, fastSumOfSquares_eq a means hw hmeans i, hmeans, hmeans,
        ssd_succ _ _ hw]

end

/-! ## The statistics of one series -/

section
variable {K : Type} [Field K] [LinearOrder K] [IsStrictOrderedRing K] [HasSqrt K]

omit [IsStrictOrderedRing K] in
theorem inverseNorm_eq_nan {hasNan : Bool} {sumSquares : K} :
    inverseNorm hasNan sumSquares = .nan ↔ hasNan = true ∨ sumSquares ≤ flatnessEpsilon := by
  unfold inverseNorm
  split_ifs with h1 h2
  · simp [h1]
  · simp [h2]
  · simp [h1, h2]

/-- The statistics `do_join` computes for a series. -/
def seriesStats (T : Vec (Sample K)) (m : ℕ) (highPrecisionNorms : Bool) : PrecomputedInfo K :=
  computeStatisticsCpu (convertNonFiniteToZero T m).1 (convertNonFiniteToZero T m).2 m
    highPrecisionNorms

/-- A window takes part in the join: its samples are finite and it is not flat. -/
def ValidWindow (T : Vec (Sample K)) (m i : ℕ) : Prop :=
  FiniteWindow T m i ∧ flatnessEpsilon < ssd (cleanSeries T) m i

variable (T : Vec (Sample K)) {m : ℕ} (hm : 0 < m) (high : Bool)
include hm

omit [IsStrictOrderedRing K] in
theorem seriesStats_means (i : ℕ) :
    (seriesStats T m high).means.get i = windowMean (cleanSeries T) m i := by
  unfold seriesStats computeStatisticsCpu
  cases high with
  | false => exact movingMean_get _ hm i
  | true => exact bruteForceMovingMean_get _ m i

/-- Both ways to compute the sums of squares give the sum of squared deviations. -/
theorem seriesStats_norms (i : ℕ) :
    (seriesStats T m high).norms.get i =
      inverseNorm (decide (stepsSinceLastNan T m (i + m - 1) < m)) (ssd (cleanSeries T) m i) := by
  unfold seriesStats computeStatisticsCpu
  dsimp only
  congr 1
  cases high with
  | false => exact fastSumOfSquares_eq _ _ hm (fun j => movingMean_get _ hm j) i
  | true =>
      show sumOfSquares _ m i _ = _
      rw [if_pos rfl, bruteForceMovingMean_get]
      exact sumOfSquares_eq _ m i

theorem norms_of_valid {i : ℕ} (hv : ValidWindow T m i) :
    (seriesStats T m high).norms.get i = .num (1 / HasSqrt.sqrt (ssd (cleanSeries T) m i)) := by
  rw [seriesStats_norms T hm, (nanvals_eq T m i).mpr hv.1]
  unfold inverseNorm
  rw [if_neg Bool.false_ne_true, if_neg (not_le.mpr hv.2)]

theorem norms_of_not_valid {i : ℕ} (hv : ¬ValidWindow T m i) :
    (seriesStats T m high).norms.get i = .nan := by
  rw [seriesStats_norms T hm]
  unfold inverseNorm
  split
  · rfl
  · next hfin =>
      have hfinite := (nanvals_eq T m i).mp (by simpa using hfin)
      rw [if_pos (not_lt.mp fun hlt => hv ⟨hfinite, hlt⟩)]

/-- `nan_idxs` lists exactly the windows that take no part. -/
theorem mem_nanIdxs {i : ℕ} :
    i ∈ (seriesStats T m high).nanIdxs ↔ i < T.size - m + 1 ∧ ¬ValidWindow T m i := by
  have hmem : i ∈ (seriesStats T m high).nanIdxs ↔
      i < T.size - m + 1 ∧ (seriesStats T m high).norms.get i = .nan := by
    unfold seriesStats computeStatisticsCpu
    dsimp only
    rw [inverseNorm_eq_nan, List.mem_filter, List.mem_range, Bool.or_eq_true, decide_eq_true_eq]
    rfl
  rw [hmem]
  refine and_congr_right fun _ => ⟨fun hnan hv => ?_, norms_of_not_valid T hm high⟩
  rw [norms_of_valid T hm high hv] at hnan
  cases hnan

end

/-! ## The coefficients of the recurrence -/

section
variable {K : Type} [Field K] [LinearOrder K] [HasSqrt K] (T : Vec (Sample K)) {m : ℕ} (high : Bool)

theorem seriesStats_df {i : ℕ} (hi : i + 1 < T.size - m + 1) :
    (seriesStats T m high).df.get i = (cleanSeries T (i + m) - cleanSeries T i) / 2 := if_pos hi

theorem seriesStats_dg (hm : 0 < m) {i : ℕ} (hi : i + 1 < T.size - m + 1) :
    (seriesStats T m high).dg.get i =
      (cleanSeries T (i + m) - windowMean (cleanSeries T) m (i + 1))
        + (cleanSeries T i - windowMean (cleanSeries T) m i) := by
  rw [← seriesStats_means T hm high, ← seriesStats_means T hm high]
  exact if_pos hi

variable (T' : Vec (Sample K))

/-- The statistics `do_join` computes for the alternative formula. -/
def combinedStats (m : ℕ) : CombinedStats K :=
  computeCombinedStatsCpu (convertNonFiniteToZero T m).1 (seriesStats T m high).means
    (convertNonFiniteToZero T' m).1 m high

theorem combinedStats_column (hm : 0 < m) {i : ℕ} (hi : i + 1 < T.size - m + 1) :
    (combinedStats T high T' m).dcBkwd.get i =
        -1 * (cleanSeries T i - windowMean (cleanSeries T) m i) ∧
      (combinedStats T high T' m).dcFwd.get i =
        cleanSeries T (i + m) - windowMean (cleanSeries T) m (i + 1) := by
  rw [← seriesStats_means T hm high, ← seriesStats_means T hm high]
  exact ⟨if_pos (by omega : i < T.size - m + 1), if_pos (by omega : i < T.size - m + 1)⟩

/-- The row differences are taken from the means of windows that are one shorter. -/
theorem combinedStats_row (hm : 1 < m) (i : ℕ) :
    (combinedStats T high T' m).drBkwd.get i =
        cleanSeries T' i - windowMean (cleanSeries T') (m - 1) (i + 1) ∧
      (combinedStats T high T' m).drFwd.get i =
        cleanSeries T' (i + m) - windowMean (cleanSeries T') (m - 1) (i + 1) := by
  have hmeans : (if high then bruteForceMovingMean (convertNonFiniteToZero T' m).1 (m - 1)
      else movingMean (convertNonFiniteToZero T' m).1 (m - 1)).get (i + 1) =
      windowMean (cleanSeries T') (m - 1) (i + 1) := by
    cases high with
    | false => exact movingMean_get _ (by omega) (i + 1)
    | true => exact bruteForceMovingMean_get _ (m - 1) (i + 1)
  rw [← hmeans]
  exact ⟨rfl, rfl⟩

end

/-! ## Covariances -/

section
variable {K : Type} [Field K]

theorem rollingSum_eq (T : Buffer K) (w : ℕ) : ∀ i, rollingSum T w i = windowSum T w i
  | 0 => by
      unfold rollingSum windowSum
      rw [foldl_add_range]
      simp
  | i + 1 => by rw [rollingSum, rollingSum_eq T w i, windowSum_succ]

/-- The covariances a pass starts from are those of the first row. -/
theorem computeQTCPU_eq {size w : ℕ} (QT T Q : Buffer K) {i : ℕ} (hi : i < size - w + 1) :
    computeQTCPU size w QT T Q i = cdot T Q w i 0 := by
  unfold computeQTCPU cdot windowMean
  rw [if_pos hi, foldl_add_range, foldl_add_range, rollingSum_eq]
  unfold windowSum
  simp

end

end Scamp
