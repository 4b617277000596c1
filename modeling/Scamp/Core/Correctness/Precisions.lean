import Scamp.Core.Correctness.Stats
import Scamp.Core.Correctness.CheckedStats

/-!
# `Core.Correctness.Precisions` — both precisions of the statistics

The functions of `cpu_stats.cpp` as the source runs them, loop by loop (`Core.CheckedStats`), against what
they are for: the means and the sums of squared deviations of all windows. Either setting of
`high_precision_norms` fills the same vectors, entry by entry the window quantities (`precisions_agree`).
-/

namespace Scamp

open Lib Checked

/-! ## Vectors that agree -/

namespace Checked
variable {α : Type} {u v w : Vec α}

theorem Agrees.refl (v : Vec α) : Agrees v v := ⟨rfl, fun _ _ => rfl⟩

theorem Agrees.symm (h : Agrees v u) : Agrees u v :=
  ⟨h.size.symm, fun j hj => (h.get j (h.size ▸ hj)).symm⟩

theorem Agrees.trans (h : Agrees v u) (h' : Agrees u w) : Agrees v w :=
  ⟨h.size.trans h'.size, fun j hj => (h.get j (h'.size.symm ▸ hj)).trans (h'.get j hj)⟩

/-- Two runs over the same series that agree with the same statistics agree with each other. -/
theorem SameStats.of_common {K : Type} {p q r : PrecomputedInfo K} (hp : SameStats p r) (hq : SameStats q r) :
    SameStats p q where
  norms := hp.norms.trans hq.norms.symm
  df := hp.df.trans hq.df.symm
  dg := hp.dg.trans hq.dg.symm
  means := hp.means.trans hq.means.symm
  nanIdxs := hp.nanIdxs.trans hq.nanIdxs.symm

end Checked

section
variable {K : Type} [Field K] [LinearOrder K] [IsStrictOrderedRing K]

/-! ## The window quantities -/

/-- The means of all windows of a series. -/
def windowMeans (a : Vec K) (w : ℕ) : Vec K := ⟨a.size - w + 1, windowMean a.get w⟩

/-- The sums of squared deviations of all windows of a series. -/
def windowSsds (a : Vec K) (w : ℕ) : Vec K := ⟨a.size - w + 1, ssd a.get w⟩

/-- The statistics of a series in terms of its windows. -/
def windowStats [HasSqrt K] (a : Vec K) (nanvalues : Vec Bool) (w : ℕ) : PrecomputedInfo K :=
  let n := a.size - w + 1
  { means := windowMeans a w
    norms := ⟨n, fun i => inverseNorm (nanvalues.get i) (ssd a.get w i)⟩
    nanIdxs := (List.range n).filter fun i => nanvalues.get i || decide (ssd a.get w i ≤ flatnessEpsilon)
    df := ⟨n, fun i => if i + 1 < n then (a.get (i + w) - a.get i) / 2 else 0⟩
    dg := ⟨n, fun i =>
      if i + 1 < n then
        (a.get (i + w) - windowMean a.get w (i + 1)) + (a.get i - windowMean a.get w i)
      else 0⟩ }

variable {a : Vec K} {w : ℕ}

omit [LinearOrder K] [IsStrictOrderedRing K] in
/-- **The moving means** are the means of the windows. -/
theorem movingMean_windows (hw : 1 ≤ w) (ha : w ≤ a.size) :
    ∃ v, Checked.movingMean a w = some v ∧ Agrees v (windowMeans a w) := by
  obtain ⟨v, hv, hagree⟩ := movingMean_some (.refl a) hw ha
  refine ⟨v, hv, hagree.trans ⟨rfl, fun i _ => ?_⟩⟩
  exact movingMean_get a hw i

omit [LinearOrder K] [IsStrictOrderedRing K] in
/-- **The means by brute force** are the means of the windows. -/
theorem bruteForceMovingMean_windows (ha : w ≤ a.size) :
    ∃ v, Checked.bruteForceMovingMean a w = some v ∧ Agrees v (windowMeans a w) := by
  obtain ⟨v, hv, hagree⟩ := bruteForceMovingMean_some (.refl a) ha
  refine ⟨v, hv, hagree.trans ⟨rfl, fun i _ => ?_⟩⟩
  exact bruteForceMovingMean_get a w i

/-- **The recurrence** over the means of the windows gives the sums of squared deviations. -/
theorem fastSumOfSquaredDifference_windows {means : Vec K} (hmeans : Agrees means (windowMeans a w))
    (hw : 1 ≤ w) (ha : w ≤ a.size) :
    ∃ v, Checked.fastSumOfSquaredDifference a means w = some v ∧ Agrees v (windowSsds a w) := by
  obtain ⟨v, hv, hagree⟩ := fastSumOfSquaredDifference_some (.refl a) hmeans hw ha rfl
  refine ⟨v, hv, hagree.trans ⟨rfl, fun i _ => ?_⟩⟩
  exact fastSumOfSquares_eq a (windowMeans a w) hw (fun _ => rfl) i

omit [LinearOrder K] [IsStrictOrderedRing K] in
/-- **The sums by brute force** over the means of the windows are the sums of squared deviations. -/
theorem bruteForceSumOfSquaredDifference_windows {means : Vec K} (hmeans : Agrees means (windowMeans a w))
    (ha : w ≤ a.size) :
    ∃ v, Checked.bruteForceSumOfSquaredDifference a means w = some v ∧ Agrees v (windowSsds a w) := by
  obtain ⟨v, hv, hagree⟩ := bruteForceSumOfSquaredDifference_some (.refl a) hmeans ha rfl
  refine ⟨v, hv, hagree.trans ⟨rfl, fun i _ => ?_⟩⟩
  exact sumOfSquares_eq a w i

variable [HasSqrt K] {nanvalues : Vec Bool}

/-- The statistics of `Core.CpuStats` are those of the windows, with either setting. -/
theorem computeStatisticsCpu_windowStats (hw : 1 ≤ w) (high : Bool) :
    SameStats (Scamp.computeStatisticsCpu a nanvalues w high) (windowStats a nanvalues w) := by
  have hmeans : ∀ i, (Scamp.computeStatisticsCpu a nanvalues w high).means.get i = windowMean a.get w i := by
    intro i
    cases high with
    | false => exact movingMean_get a hw i
    | true => exact bruteForceMovingMean_get a w i
  have hsums : ∀ i, (if high then Scamp.bruteForceSumOfSquaredDifference a
        (if high then Scamp.bruteForceMovingMean a w else Scamp.movingMean a w) w
      else Scamp.fastSumOfSquaredDifference a
        (if high then Scamp.bruteForceMovingMean a w else Scamp.movingMean a w) w).get i = ssd a.get w i := by
    intro i
    cases high with
    | false => exact fastSumOfSquares_eq a (Scamp.movingMean a w) hw (fun j => movingMean_get a hw j) i
    | true =>
        show sumOfSquares a w i ((Scamp.bruteForceMovingMean a w).get i) = ssd a.get w i
        rw [bruteForceMovingMean_get]
        exact sumOfSquares_eq a w i
  refine ⟨⟨rfl, fun i _ => ?_⟩, ⟨rfl, fun _ _ => rfl⟩, ⟨rfl, fun i _ => ?_⟩, ⟨?_, fun i _ => hmeans i⟩, ?_⟩
  · exact congrArg (inverseNorm (nanvalues.get i)) (hsums i)
  · show (if i + 1 < a.size - w + 1 then _ else _) = if i + 1 < a.size - w + 1 then _ else _
    rw [← hmeans i, ← hmeans (i + 1)]
    rfl
  · cases high <;> rfl
  · refine List.filter_congr fun i _ => ?_
    exact congrArg (fun s => nanvalues.get i || decide (s ≤ flatnessEpsilon)) (hsums i)

/-- **`compute_statistics_cpu`** computes the statistics of the windows, with either setting. -/
theorem computeStatisticsCpu_windows (hw : 1 ≤ w) (ha : w ≤ a.size)
    (hnan : nanvalues.size = a.size - w + 1) (high : Bool) :
    ∃ p, Checked.computeStatisticsCpu a nanvalues w high = some p ∧ SameStats p (windowStats a nanvalues w) := by
  obtain ⟨p, hp, hsame⟩ :=
    computeStatisticsCpu_some (.refl a) (.refl nanvalues) hw ha hnan high
  have hwindows : SameStats (Scamp.computeStatisticsCpu a nanvalues w high) (windowStats a nanvalues w) :=
    computeStatisticsCpu_windowStats hw high
  exact ⟨p, hp, hsame.norms.trans hwindows.norms, hsame.df.trans hwindows.df, hsame.dg.trans hwindows.dg,
    hsame.means.trans hwindows.means, hsame.nanIdxs.trans hwindows.nanIdxs⟩

/-! ## The two settings -/

/-- **The two precisions agree.** For a series of at least one window, the fast and the brute force loops
    finish with the same means and, from these, the same sums of squares, each the quantity of its window at
    every position; `compute_statistics_cpu` therefore leaves the same statistics with either setting of
    `high_precision_norms`. -/
theorem precisions_agree (a : Vec K) {w : ℕ} (hw : 1 ≤ w) (ha : w ≤ a.size) :
    (∃ fast brute, Checked.movingMean a w = some fast ∧ Checked.bruteForceMovingMean a w = some brute ∧
      Agrees fast brute ∧ Agrees fast (windowMeans a w)) ∧
    (∀ means, Agrees means (windowMeans a w) →
      ∃ fast brute, Checked.fastSumOfSquaredDifference a means w = some fast ∧
        Checked.bruteForceSumOfSquaredDifference a means w = some brute ∧
        Agrees fast brute ∧ Agrees fast (windowSsds a w)) ∧
    ∀ nanvalues : Vec Bool, nanvalues.size = a.size - w + 1 →
      ∃ low high, Checked.computeStatisticsCpu a nanvalues w false = some low ∧
        Checked.computeStatisticsCpu a nanvalues w true = some high ∧
        SameStats low high ∧ SameStats low (windowStats a nanvalues w) := by
  refine ⟨?_, fun means hmeans => ?_, fun nanvalues hnan => ?_⟩
  · obtain ⟨fast, hfast, hagree⟩ := movingMean_windows hw ha
    obtain ⟨brute, hbrute, hagree'⟩ := bruteForceMovingMean_windows ha
    exact ⟨fast, brute, hfast, hbrute, hagree.trans hagree'.symm, hagree⟩
  · obtain ⟨fast, hfast, hagree⟩ := fastSumOfSquaredDifference_windows hmeans hw ha
    obtain ⟨brute, hbrute, hagree'⟩ := bruteForceSumOfSquaredDifference_windows hmeans ha
    exact ⟨fast, brute, hfast, hbrute, hagree.trans hagree'.symm, hagree⟩
  · obtain ⟨low, hlow, hsame⟩ := computeStatisticsCpu_windows hw ha hnan false
    obtain ⟨high, hhigh, hsame'⟩ := computeStatisticsCpu_windows hw ha hnan true
    exact ⟨low, high, hlow, hhigh, hsame.of_common hsame', hsame⟩

/-- The series `0, 1, 2`: the second mean of its windows of length `2`, by the moving sum. -/
theorem precisions_agree_three :
    ∃ means, Checked.movingMean (⟨3, fun i => (i : ℝ)⟩ : Vec ℝ) 2 = some means ∧ means.get 1 = 3 / 2 := by
  obtain ⟨⟨fast, brute, hfast, -, -, hagree⟩, -⟩ :=
    precisions_agree (⟨3, fun i => (i : ℝ)⟩ : Vec ℝ) (w := 2) (by decide) (by decide)
  refine ⟨fast, hfast, (hagree.get 1 (by decide)).trans ?_⟩
  simp only [windowMeans, windowMean, windowSum, Finset.sum_range_succ, Finset.sum_range_zero]
  norm_num

end

end Scamp
