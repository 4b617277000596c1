import Scamp.Core.TileMemory
import Scamp.Lib.Checked
import Scamp.Lib.Doubles

/-!
# `Core.CheckedStats` — the statistics of `cpu_stats.cpp`, with every access checked

The same functions as in `Core.CpuStats`, loop by loop as the source writes them: a vector is read and
written through `Vec.read` and `Vec.write`, which fail outside it. A run that ends in `some` has made no
access outside a vector. The loops count in `int`s, up to the sizes of their vectors; `precompute` starts from
series whose sizes are `int`s.

The functions of one series ask nothing of the numbers but their operations, so that they also run in the
doubles of the source (`Vec.samples`, `Dbl.toDouble`).
-/

namespace Scamp

namespace Vec
variable {α : Type}

/-- `v[i]`, for a position inside the vector. -/
def read (v : Vec α) (i : ℕ) : Option α := if i < v.size then some (v.get i) else none

/-- `v[i] = x`, for a position inside the vector. -/
def write (v : Vec α) (i : ℕ) (x : α) : Option (Vec α) := if i < v.size then some (v.set i x) else none

@[simp] theorem read_lt {v : Vec α} {i : ℕ} (h : i < v.size) : v.read i = some (v.get i) := if_pos h

theorem read_ge {v : Vec α} {i : ℕ} (h : v.size ≤ i) : v.read i = none := if_neg (Nat.not_lt.mpr h)

@[simp] theorem write_lt {v : Vec α} {i : ℕ} (h : i < v.size) (x : α) : v.write i x = some (v.set i x) :=
  if_pos h

end Vec

namespace Checked

section
variable {K : Type} [Zero K] [One K] [NatCast K] [Add K] [Sub K] [Mul K] [Div K] [LE K] [DecidableLE K]

/-! ## Cleaning the input -/

/-- The variables of the loop of `convert_non_finite_to_zero`. -/
structure CleanLoop (K : Type) where
  timeseriesClean : Vec K
  nanvals : Vec Bool
  stepsSinceLastNan : ℕ

/-- One iteration of the loop of `convert_non_finite_to_zero`. -/
def cleanStep (T : Vec (Sample K)) (m : ℕ) (s : CleanLoop K) (i : ℕ) : Option (CleanLoop K) := do
  let x ← T.read i
  let stepsSinceLastNan := if x.isFinite then s.stepsSinceLastNan else 0
  let timeseriesClean ← s.timeseriesClean.write i x.cleaned
  let nanvals ←
    (if m - 1 ≤ i then s.nanvals.write (i - (m - 1)) (decide (stepsSinceLastNan < m))
    else some s.nanvals)
  return ⟨timeseriesClean, nanvals, stepsSinceLastNan + 1⟩

/-- `convert_non_finite_to_zero`. -/
def convertNonFiniteToZero (T : Vec (Sample K)) (m : ℕ) : Option (Vec K × Vec Bool) := do
  let s ← (List.range T.size).foldlM (cleanStep T m)
    ⟨.replicate T.size 0, .replicate (T.size - m + 1) false, m⟩
  return (s.timeseriesClean, s.nanvals)

/-! ## Means -/

/-- The inner loops over a window: the sum of what `term` reads. -/
def windowLoop (w : ℕ) (term : ℕ → Option K) : Option K :=
  (List.range w).foldlM (fun sum j => do return sum + (← term j)) 0

/-- `brute_force_moving_mean`. -/
def bruteForceMovingMean (a : Vec K) (w : ℕ) : Option (Vec K) :=
  (List.range (a.size - w + 1)).foldlM
    (fun result i => do
      let sum ← windowLoop w fun j => a.read (i + j)
      result.write i (sum / w))
    (.replicate (a.size - w + 1) 0)

/-- One iteration of the second loop of `moving_mean`, over the running sum and the result. -/
def movingMeanStep (a : Vec K) (w : ℕ) (s : MeanAccum K × Vec K) (i : ℕ) :
    Option (MeanAccum K × Vec K) := do
  let out ← a.read (i - w)
  let new ← a.read i
  let acc := (s.1.sub out).add new
  let result ← s.2.write (i - w + 1) ((acc.p + acc.s) / w)
  return (acc, result)

/-- `moving_mean`. -/
def movingMean (a : Vec K) (w : ℕ) : Option (Vec K) := do
  let p ← a.read 0
  let acc ← (List.range' 1 (w - 1)).foldlM (fun acc i => do return acc.add (← a.read i)) ⟨p, 0⟩
  let result ← (Vec.replicate (a.size - w + 1) (0 : K)).write 0 ((acc.p + acc.s) / w)
  let s ← (List.range' w (a.size - w)).foldlM (movingMeanStep a w) (acc, result)
  return s.2

/-! ## Sums of squared differences -/

/-- The square added by iteration `j` of a window at `i`, whose mean is read at every iteration. -/
def squaredDifference (a means : Vec K) (i j : ℕ) : Option K := do
  let val := (← a.read (i + j)) - (← means.read i)
  return val * val

/-- `brute_force_sum_of_squared_difference`. -/
def bruteForceSumOfSquaredDifference (a means : Vec K) (w : ℕ) : Option (Vec K) :=
  (List.range (a.size - w + 1)).foldlM
    (fun result i => do
      let sum ← windowLoop w (squaredDifference a means i)
      result.write i sum)
    (.replicate (a.size - w + 1) 0)

/-- One iteration of the second loop of `fast_sum_of_squared_difference`. -/
def fastStep (a means : Vec K) (w : ℕ) (result : Vec K) (i : ℕ) : Option (Vec K) := do
  let last ← result.read (i - 1)
  let out ← a.read (i - 1)
  let meanOut ← means.read (i - 1)
  let new ← a.read (i + w - 1)
  let mean ← means.read i
  result.write i (last + ((out - meanOut) + (new - mean)) * (new - out))

/-- `fast_sum_of_squared_difference`. -/
def fastSumOfSquaredDifference (a means : Vec K) (w : ℕ) : Option (Vec K) := do
  let sum ← windowLoop w (squaredDifference a means 0)
  let result ← (Vec.replicate (a.size - w + 1) (0 : K)).write 0 sum
  (List.range' 1 (a.size - w)).foldlM (fastStep a means w) result

/-! ## The statistics of one series -/

/-- The inverse norm `compute_statistics_cpu` leaves where the sum of squares `norm` was, and whether the
    subsequence is to be ignored. -/
def normOf [HasSqrt K] (nanvalue : Bool) : Dbl K → Dbl K × Bool
  | .num norm => (inverseNorm nanvalue norm, nanvalue || decide (norm ≤ flatnessEpsilon))
  | .nan => (.nan, nanvalue)

/-- The sums of squares from which `compute_statistics_cpu` computes the norms. -/
def sumsOfSquares (T : Vec K) (m : ℕ) (highPrecisionNorms : Bool) : Option (Vec K) := do
  let means ← (if highPrecisionNorms then bruteForceMovingMean T m else movingMean T m)
  if highPrecisionNorms then bruteForceSumOfSquaredDifference T means m
  else fastSumOfSquaredDifference T means m

/-- One iteration of the loop over the norms, with the indexes of the subsequences to ignore. -/
def normStep [HasSqrt K] (nanvalues : Vec Bool) (s : Vec (Dbl K) × List ℕ) (i : ℕ) :
    Option (Vec (Dbl K) × List ℕ) := do
  let r := normOf (← nanvalues.read i) (← s.1.read i)
  let norms ← s.1.write i r.1
  return (norms, if r.2 then s.2 ++ [i] else s.2)

/-- One iteration of the loop over the differences `df` and `dg`. -/
def diffStep (T means : Vec K) (m : ℕ) (s : Vec K × Vec K) (i : ℕ) : Option (Vec K × Vec K) := do
  let new ← T.read (i + m)
  let out ← T.read i
  let df ← s.1.write i ((new - out) / 2)
  let dg ← s.2.write i ((new - (← means.read (i + 1))) + (out - (← means.read i)))
  return (df, dg)

/-- `compute_statistics_cpu`. -/
def computeStatisticsCpu [HasSqrt K] (T : Vec K) (nanvalues : Vec Bool) (m : ℕ)
    (highPrecisionNorms : Bool) : Option (PrecomputedInfo K) := do
  let n := T.size - m + 1
  let means ← (if highPrecisionNorms then bruteForceMovingMean T m else movingMean T m)
  let sums ←
    (if highPrecisionNorms then bruteForceSumOfSquaredDifference T means m
    else fastSumOfSquaredDifference T means m)
  let norms ← (List.range n).foldlM (normStep nanvalues) (⟨sums.size, fun i => .num (sums.get i)⟩, [])
  let diffs ← (List.range (n - 1)).foldlM (diffStep T means m) (.replicate n 0, .replicate n 0)
  return ⟨norms.1, diffs.1, diffs.2, means, norms.2⟩

end

section
variable {K : Type} [Field K] [LinearOrder K]

/-! ## The statistics of the alternative formula -/

/-- One iteration of the first loop of `compute_combined_stats_cpu`, over `dc_bkwd` and `dc_fwd`. -/
def columnDiffStep (A meansA : Vec K) (m : ℕ) (s : Vec K × Vec K) (i : ℕ) : Option (Vec K × Vec K) := do
  let dcBkwd ← s.1.write i (-1 * ((← A.read i) - (← meansA.read i)))
  let dcFwd ← s.2.write i ((← A.read (i + m)) - (← meansA.read (i + 1)))
  return (dcBkwd, dcFwd)

/-- One iteration of the second loop of `compute_combined_stats_cpu`, over `dr_bkwd` and `dr_fwd`. -/
def rowDiffStep (B meansB : Vec K) (m : ℕ) (s : Vec K × Vec K) (i : ℕ) : Option (Vec K × Vec K) := do
  let drBkwd ← s.1.write i ((← B.read i) - (← meansB.read (i + 1)))
  let drFwd ← s.2.write i ((← B.read (i + m)) - (← meansB.read (i + 1)))
  return (drBkwd, drFwd)

/-- `compute_combined_stats_cpu`. -/
def computeCombinedStatsCpu (A meansA B : Vec K) (m : ℕ) (highPrecision : Bool) :
    Option (CombinedStats K) := do
  let na := A.size - m + 1
  let na2 := A.size - (m - 1) + 1
  let nb2 := B.size - (m - 1) + 1
  let meansB ← (if highPrecision then bruteForceMovingMean B (m - 1) else movingMean B (m - 1))
  let dc ← (List.range na).foldlM (columnDiffStep A meansA m) (.replicate na2 0, .replicate na2 0)
  let dr ← (List.range nb2).foldlM (rowDiffStep B meansB m) (.replicate nb2 0, .replicate nb2 0)
  return { dcBkwd := dc.1, dcFwd := dc.2, drBkwd := dr.1, drFwd := dr.2 }

/-! ## The precomputation of an operation -/

/-- What `do_join` computes before it makes the tiles. -/
structure Precomputed (K : Type) where
  timeseriesA : Vec K
  timeseriesB : Vec K
  precompA : PrecomputedInfo K
  precompB : PrecomputedInfo K
  precomp : Option (CombinedStats K)

/-- The statistics of `SCAMP_Operation::do_join`. -/
def precompute [HasSqrt K] (info : OpInfo K) (timeseriesA timeseriesB : Vec (Sample K)) :
    Option (Precomputed K) := do
  -- no counter goes past the longer of the two series
  let _ ← toInt timeseriesA.size
  let _ ← toInt timeseriesB.size
  let a ← convertNonFiniteToZero timeseriesA info.mpWindow
  let b ← convertNonFiniteToZero timeseriesB info.mpWindow
  let ultraPrecision := decide (info.fpType = .ultra)
  let precompA ← computeStatisticsCpu a.1 a.2 info.mpWindow ultraPrecision
  let precompB ← computeStatisticsCpu b.1 b.2 info.mpWindow ultraPrecision
  if ultraPrecision then
    let precomp ← computeCombinedStatsCpu a.1 precompA.means b.1 info.mpWindow ultraPrecision
    return ⟨a.1, b.1, precompA, precompB, some precomp⟩
  else return ⟨a.1, b.1, precompA, precompB, none⟩

end

end Checked

/-! ## In doubles -/

instance : HasSqrt Float := ⟨Float.sqrt⟩

/-- A double as a value of an input series. -/
def Sample.ofDouble (x : Float) : Sample Float :=
  if x.isFinite then .finite x else if x.isNaN then .nan else if 0 < x then .posInf else .negInf

/-- A series of doubles. -/
def Vec.samples (T : Vec Float) : Vec (Sample Float) := ⟨T.size, fun i => .ofDouble (T.get i)⟩

/-- The double of a value of the computation. -/
def Dbl.toDouble : Dbl Float → Float
  | .num x => x
  | .nan => .ofBits 0x7ff8000000000000

end Scamp
