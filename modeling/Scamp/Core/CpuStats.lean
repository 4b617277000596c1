import Scamp.Common.Args

/-!
# `Core.CpuStats` — the statistics computed before a join, and the first row of covariances

`cpu_stats.cpp` and the CPU part of `qt_helper.cpp`. The loops that carry an accumulator along the series
are functions of the position (`stepsSinceLastNan`, `movingMeanAccum`, `fastSumOfSquaredDifference`,
`rollingSum`), each iteration an unfolding of one equation.

A read past the end of a vector, which the last iterations of `compute_combined_stats_cpu` and of the QT
computation make, yields whatever is there.

The cleaning, the means, the sums of squares and the statistics of one series ask nothing of the numbers but
their operations, so that they are also functions of the doubles they are computed in.
-/

namespace Scamp

section
variable {K : Type} [Zero K] [One K] [NatCast K] [Add K] [Sub K] [Mul K] [Div K] [LE K] [DecidableLE K]

/-! ## Cleaning the input -/

/-- `FLATNESS_EPSILON`, `1e-13`. -/
def flatnessEpsilon : K := 1 / ((10 ^ 13 : ℕ) : K)

/-- `steps_since_last_nan` when iteration `i` marks a subsequence. -/
def stepsSinceLastNan (T : Vec (Sample K)) (m : ℕ) : ℕ → ℕ
  | 0 => if (T.get 0).isFinite then m else 0
  | i + 1 => if (T.get (i + 1)).isFinite then stepsSinceLastNan T m i + 1 else 0

/-- `convert_non_finite_to_zero`: the series with its non-finite values replaced by `0`, and the
    subsequences that contain one. -/
def convertNonFiniteToZero (T : Vec (Sample K)) (m : ℕ) : Vec K × Vec Bool :=
  (⟨T.size, fun i => (T.get i).cleaned⟩,
   ⟨T.size - m + 1, fun i => decide (stepsSinceLastNan T m (i + m - 1) < m)⟩)

/-! ## Means -/

/-- `brute_force_moving_mean`. -/
def bruteForceMovingMean (a : Vec K) (w : ℕ) : Vec K :=
  ⟨a.size - w + 1, fun i => (List.range w).foldl (fun sum j => sum + a.get (i + j)) 0 / w⟩

/-- The running sum of `moving_mean`, and the rounding error it has lost so far. -/
structure MeanAccum (K : Type) where
  p : K
  s : K

/-- Adds a value to the running sum. -/
def MeanAccum.add (acc : MeanAccum K) (v : K) : MeanAccum K :=
  let x := acc.p + v
  let z := x - acc.p
  ⟨x, acc.s + ((acc.p - (x - z)) + (v - z))⟩

/-- Takes a value out of the running sum. -/
def MeanAccum.sub (acc : MeanAccum K) (v : K) : MeanAccum K :=
  let x := acc.p - v
  let z := x - acc.p
  ⟨x, acc.s + ((acc.p - (x - z)) - (v + z))⟩

/-- The running sum when `moving_mean` writes entry `i`. -/
def movingMeanAccum (a : Vec K) (w : ℕ) : ℕ → MeanAccum K
  | 0 => (List.range' 1 (w - 1)).foldl (fun acc i => acc.add (a.get i)) ⟨a.get 0, 0⟩
  | i + 1 => ((movingMeanAccum a w i).sub (a.get i)).add (a.get (i + w))

/-- `moving_mean`. -/
def movingMean (a : Vec K) (w : ℕ) : Vec K :=
  ⟨a.size - w + 1, fun i => ((movingMeanAccum a w i).p + (movingMeanAccum a w i).s) / w⟩

/-! ## Sums of squared differences -/

/-- The sum of squared differences of window `i` from the mean `mean`. -/
def sumOfSquares (a : Vec K) (w i : ℕ) (mean : K) : K :=
  (List.range w).foldl (fun sum j => sum + (a.get (i + j) - mean) * (a.get (i + j) - mean)) 0

/-- `brute_force_sum_of_squared_difference`. -/
def bruteForceSumOfSquaredDifference (a means : Vec K) (w : ℕ) : Vec K :=
  ⟨a.size - w + 1, fun i => sumOfSquares a w i (means.get i)⟩

/-- Entry `i` of `fast_sum_of_squared_difference`, from the entry before it. -/
def fastSumOfSquares (a means : Vec K) (w : ℕ) : ℕ → K
  | 0 => sumOfSquares a w 0 (means.get 0)
  | i + 1 => fastSumOfSquares a means w i +
      ((a.get i - means.get i) + (a.get (i + w) - means.get (i + 1))) * (a.get (i + w) - a.get i)

/-- `fast_sum_of_squared_difference`. -/
def fastSumOfSquaredDifference (a means : Vec K) (w : ℕ) : Vec K :=
  ⟨a.size - w + 1, fastSumOfSquares a means w⟩

/-! ## The statistics of one series -/

/-- The precomputed statistics for an input time series. -/
structure PrecomputedInfo (K : Type) where
  norms : Vec (Dbl K)
  df : Vec K
  dg : Vec K
  means : Vec K
  nanIdxs : List ℕ

/-- The norm of a subsequence: NaN if it includes a NaN or is flat, else the inverse root of its sum of
    squared differences. -/
def inverseNorm [HasSqrt K] (hasNan : Bool) (sumSquares : K) : Dbl K :=
  if hasNan then .nan
  else if sumSquares ≤ flatnessEpsilon then .nan
  else .num (1 / HasSqrt.sqrt sumSquares)

/-- `compute_statistics_cpu`. -/
def computeStatisticsCpu [HasSqrt K] (T : Vec K) (nanvalues : Vec Bool) (m : ℕ)
    (highPrecisionNorms : Bool) : PrecomputedInfo K :=
  let n := T.size - m + 1
  let means := if highPrecisionNorms then bruteForceMovingMean T m else movingMean T m
  let sums :=
    if highPrecisionNorms then bruteForceSumOfSquaredDifference T means m
    else fastSumOfSquaredDifference T means m
  { means := means
    norms := ⟨n, fun i => inverseNorm (nanvalues.get i) (sums.get i)⟩
    nanIdxs := (List.range n).filter fun i => nanvalues.get i || decide (sums.get i ≤ flatnessEpsilon)
    df := ⟨n, fun i => if i + 1 < n then (T.get (i + m) - T.get i) / 2 else 0⟩
    dg := ⟨n, fun i =>
      if i + 1 < n then (T.get (i + m) - means.get (i + 1)) + (T.get i - means.get i) else 0⟩ }

end

section
variable {K : Type} [Field K]

/-! ## The statistics of the alternative formula -/

/-- The differences used by the alternative update formula of `PRECISION_ULTRA`. -/
structure CombinedStats (K : Type) where
  drFwd : Vec K
  drBkwd : Vec K
  dcFwd : Vec K
  dcBkwd : Vec K

/-- `compute_combined_stats_cpu`. -/
def computeCombinedStatsCpu (A meansA B : Vec K) (m : ℕ) (highPrecision : Bool) : CombinedStats K :=
  let na := A.size - m + 1
  let na2 := A.size - (m - 1) + 1
  let nb2 := B.size - (m - 1) + 1
  let meansB := if highPrecision then bruteForceMovingMean B (m - 1) else movingMean B (m - 1)
  { dcBkwd := ⟨na2, fun i => if i < na then -1 * (A.get i - meansA.get i) else 0⟩
    dcFwd := ⟨na2, fun i => if i < na then A.get (i + m) - meansA.get (i + 1) else 0⟩
    drBkwd := ⟨nb2, fun i => B.get i - meansB.get (i + 1)⟩
    drFwd := ⟨nb2, fun i => B.get (i + m) - meansB.get (i + 1)⟩ }

/-! ## The first row of covariances -/

/-- `rolling_sum` of `compute_QT_CPU` at iteration `i`. -/
def rollingSum (T : Buffer K) (windowSize : ℕ) : ℕ → K
  | 0 => (List.range windowSize).foldl (fun sum j => sum + T j) 0
  | i + 1 => rollingSum T windowSize i - T i + T (i + windowSize)

/-- `qt_compute_helper::compute_QT_CPU`, for a helper of the given size: the covariance of the first
    subsequence of `Q` with each subsequence of `T`. -/
def computeQTCPU (size windowSize : ℕ) (QT T Q : Buffer K) : Buffer K :=
  let qmean := (List.range windowSize).foldl (fun sum j => sum + Q j) 0 / windowSize
  fun i =>
    if i < size - windowSize + 1 then
      let mu := rollingSum T windowSize i / windowSize
      (List.range windowSize).foldl (fun sum j => sum + (T (i + j) - mu) * (Q j - qmean)) 0
    else QT i

end

end Scamp
