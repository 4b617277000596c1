import Scamp.Core.CheckedStats

/-!
# `Core.Correctness.CheckedStats` — the accesses of the precomputation

Each function of `Core.CheckedStats` but the last finishes and leaves, inside its vectors, the values of
its counterpart in `Core.CpuStats`: none of its loops leaves a vector. `compute_combined_stats_cpu` reads
one element past the end of the first series in the last iteration of its first loop, so that the
precomputation makes no such access exactly when the precision is not `PRECISION_ULTRA`.
-/

namespace Scamp.Checked

open Lib

/-! ## Vectors filled from the front -/

/-- A vector of `n` entries whose first `i` have been written. -/
structure Written {α : Type} (n : ℕ) (init value : ℕ → α) (i : ℕ) (v : Vec α) : Prop where
  size : v.size = n
  get : ∀ j, v.get j = if j < i then value j else init j

/-- Two vectors of the same size with the same entries. -/
structure Agrees {α : Type} (v u : Vec α) : Prop where
  size : v.size = u.size
  get : ∀ j < u.size, v.get j = u.get j

section
variable {α : Type} {n i : ℕ} {init value : ℕ → α} {v : Vec α}

/-- A read inside the vectors gives the value they agree on. -/
theorem Agrees.read {u : Vec α} (h : Agrees v u) (hi : i < u.size) : v.read i = some (u.get i) := by
  rw [Vec.read_lt (h.size.symm ▸ hi), h.get i hi]

/-- A vector agrees with one whose entries are changed to equal ones. -/
theorem Agrees.congr {f g : ℕ → α} (h : Agrees v ⟨n, f⟩) (hfg : ∀ j < n, f j = g j) : Agrees v ⟨n, g⟩ :=
  ⟨h.size, fun j hj => (h.get j hj).trans (hfg j hj)⟩

theorem Written.start : Written n init value 0 ⟨n, init⟩ :=
  ⟨rfl, fun _ => by simp⟩

/-- An entry that has been written. -/
theorem Written.get_lt (h : Written n init value i v) {j : ℕ} (hj : j < i) : v.get j = value j := by
  rw [h.get, if_pos hj]

/-- The entry to write next still has its first value. -/
theorem Written.get_self (h : Written n init value i v) : v.get i = init i := by
  rw [h.get, if_neg (Nat.lt_irrefl i)]

/-- The next entry is written inside the vector. -/
theorem Written.write (h : Written n init value i v) (hi : i < n) :
    ∃ v', v.write i (value i) = some v' ∧ Written n init value (i + 1) v' := by
  refine ⟨v.set i (value i), Vec.write_lt (h.size ▸ hi) _, h.size, ?_⟩
  intro j
  rw [Vec.get_set, h.get]
  rcases Nat.lt_trichotomy j i with hlt | rfl | hgt
  · simp [hlt, hlt.ne, Nat.lt_succ_of_lt hlt]
  · simp
  · simp [hgt.ne', Nat.not_lt.mpr hgt.le, Nat.not_lt.mpr (Nat.succ_le_of_lt hgt)]

/-- A vector written to its end. -/
theorem Written.agrees (h : Written n init value n v) : Agrees v ⟨n, value⟩ :=
  ⟨h.size, fun _ hj => h.get_lt hj⟩

end

section
variable {K : Type} [Zero K]

/-! ## Cleaning the input -/

/-- **Cleaning** stays inside the series and the two vectors it fills. -/
theorem convertNonFiniteToZero_some {T : Vec (Sample K)} {m : ℕ} (hm : 1 ≤ m) (hT : m ≤ T.size) :
    ∃ r, convertNonFiniteToZero T m = some r ∧ Agrees r.1 (Scamp.convertNonFiniteToZero T m).1 ∧
      Agrees r.2 (Scamp.convertNonFiniteToZero T m).2 := by
  let cleaned := fun i => (T.get i).cleaned
  let marks := fun i => decide (stepsSinceLastNan T m (i + m - 1) < m)
  -- the counter at the head of iteration `i` gives the one its mark is made with
  let I : ℕ → CleanLoop K → Prop := fun i s =>
    Written T.size (fun _ => 0) cleaned i s.timeseriesClean ∧
      Written (T.size - m + 1) (fun _ => false) marks (i - (m - 1)) s.nanvals ∧
      (if (T.get i).isFinite then s.stepsSinceLastNan else 0) = stepsSinceLastNan T m i
  have hstart : I 0 ⟨.replicate T.size 0, .replicate (T.size - m + 1) false, m⟩ := by
    refine ⟨.start, ?_, rfl⟩
    rw [Nat.zero_sub]
    exact .start
  obtain ⟨s, hs, hclean, hnan, -⟩ := foldlM_range_some (f := cleanStep T m) I T.size hstart (by
    rintro i s hi ⟨hclean, hnan, hsteps⟩
    obtain ⟨clean', hw, hclean'⟩ := hclean.write hi
    have hnext : ∀ k, k = stepsSinceLastNan T m i →
        (if (T.get (i + 1)).isFinite then k + 1 else 0) = stepsSinceLastNan T m (i + 1) := by
      rintro k rfl
      rfl
    by_cases hmark : m - 1 ≤ i
    · obtain ⟨nan', hn, hnan'⟩ := hnan.write (by omega)
      have hvalue : marks (i - (m - 1)) = decide (stepsSinceLastNan T m i < m) := by
        simp only [marks, show i - (m - 1) + m - 1 = i by omega]
      refine ⟨⟨clean', nan', stepsSinceLastNan T m i + 1⟩, ?_, hclean', ?_, hnext _ rfl⟩
      · refine bind_some (Vec.read_lt hi) (bind_some hw (bind_some (a := nan') ?_ ?_))
        · rw [if_pos hmark, hsteps, ← hvalue]
          exact hn
        · exact hsteps ▸ rfl
      · rwa [show i + 1 - (m - 1) = i - (m - 1) + 1 by omega]
    · refine ⟨⟨clean', s.nanvals, stepsSinceLastNan T m i + 1⟩, ?_, hclean', ?_, hnext _ rfl⟩
      · refine bind_some (Vec.read_lt hi) (bind_some hw (bind_some (if_neg hmark) ?_))
        exact hsteps ▸ rfl
      · rwa [show i + 1 - (m - 1) = i - (m - 1) by omega])
  refine ⟨(s.timeseriesClean, s.nanvals), ?_, hclean.agrees, ?_⟩
  · exact bind_some hs rfl
  · rw [show T.size - (m - 1) = T.size - m + 1 by omega] at hnan
    exact hnan.agrees

/-! ## Means -/

variable [Add K]

/-- A window read inside its vectors. -/
theorem windowLoop_some {w : ℕ} {term : ℕ → Option K} {f : ℕ → K} (h : ∀ j < w, term j = some (f j)) :
    windowLoop w term = some ((List.range w).foldl (fun sum j => sum + f j) 0) := by
  refine foldlM_eq_some (fun s j hj => ?_) 0
  rw [h j (List.mem_range.mp hj)]
  rfl

variable [Sub K] [NatCast K] [Div K]

omit [Sub K] in
/-- **The means by brute force** stay inside the series. -/
theorem bruteForceMovingMean_some {a a' : Vec K} {w : ℕ} (h : Agrees a a') (ha : w ≤ a'.size) :
    ∃ v, bruteForceMovingMean a w = some v ∧ Agrees v (Scamp.bruteForceMovingMean a' w) := by
  let value := (Scamp.bruteForceMovingMean a' w).get
  obtain ⟨v, hv, hw⟩ := foldlM_range_some
    (f := fun result i => do
      let sum ← windowLoop w fun j => a.read (i + j)
      result.write i (sum / w))
    (Written (a.size - w + 1) (fun _ => 0) value) (a.size - w + 1) .start (by
      intro i s hi hs
      rw [h.size] at hi
      obtain ⟨s', hs', hnext⟩ := hs.write (h.size ▸ hi)
      exact ⟨s', bind_some (windowLoop_some fun j hj => h.read (by omega)) hs', hnext⟩)
  rw [h.size] at hw
  exact ⟨v, hv, hw.agrees⟩

/-- **The moving means** stay inside the series. -/
theorem movingMean_some {a a' : Vec K} {w : ℕ} (h : Agrees a a') (hw : 1 ≤ w) (ha : w ≤ a'.size) :
    ∃ v, movingMean a w = some v ∧ Agrees v (Scamp.movingMean a' w) := by
  let value := (Scamp.movingMean a' w).get
  have hsize := h.size
  have hfirst : (List.range' 1 (w - 1)).foldlM (fun acc i => do return acc.add (← a.read i)) ⟨a'.get 0, 0⟩ =
      some (movingMeanAccum a' w 0) := by
    refine foldlM_eq_some (fun s i hi => ?_) _
    have := List.mem_range'_1.mp hi
    rw [h.read (by omega)]
    rfl
  obtain ⟨result, hr, hresult⟩ :=
    (Written.start : Written (a.size - w + 1) (fun _ => 0) value 0 ⟨a.size - w + 1, fun _ => 0⟩).write (by omega)
  -- iteration `i` slides the running sum to the window that ends at `i`
  obtain ⟨s, hs, -, hv⟩ := foldlM_range'_some (f := movingMeanStep a w)
    (fun i s => s.1 = movingMeanAccum a' w (i - w) ∧
      Written (a.size - w + 1) (fun _ => 0) value (i - w + 1) s.2)
    (a.size - w) (a := w) (s := (movingMeanAccum a' w 0, result))
    ⟨by rw [Nat.sub_self], by rwa [Nat.sub_self]⟩ (by
      rintro i s hi hlt ⟨hacc, hres⟩
      obtain ⟨res', hwrite, hres'⟩ := hres.write (by omega)
      have hslide : (s.1.sub (a'.get (i - w))).add (a'.get i) = movingMeanAccum a' w (i - w + 1) := by
        rw [hacc, movingMeanAccum, show i - w + w = i by omega]
      refine ⟨(movingMeanAccum a' w (i - w + 1), res'), ?_, ?_, ?_⟩
      · refine bind_some (h.read (by omega)) (bind_some (h.read (by omega)) ?_)
        rw [hslide]
        exact bind_some hwrite rfl
      · rw [show i + 1 - w = i - w + 1 by omega]
      · rwa [show i + 1 - w = i - w + 1 by omega])
  refine ⟨s.2, bind_some (h.read (by omega)) (bind_some hfirst (bind_some hr (bind_some hs rfl))), ?_⟩
  rw [show w + (a.size - w) - w + 1 = a'.size - w + 1 by omega, hsize] at hv
  exact hv.agrees

/-! ## Sums of squared differences -/

variable [Mul K]

omit [Zero K] [Add K] [NatCast K] [Div K] in
theorem squaredDifference_some {a a' means means' : Vec K} {i j : ℕ} (h : Agrees a a')
    (hm : Agrees means means') (ha : i + j < a'.size) (hi : i < means'.size) :
    squaredDifference a means i j =
      some ((a'.get (i + j) - means'.get i) * (a'.get (i + j) - means'.get i)) :=
  bind_some (h.read ha) (bind_some (hm.read hi) rfl)

omit [NatCast K] [Div K] in
/-- **The sums of squares by brute force** stay inside the series and the means. -/
theorem bruteForceSumOfSquaredDifference_some {a a' means means' : Vec K} {w : ℕ} (h : Agrees a a')
    (hm : Agrees means means') (ha : w ≤ a'.size) (hsize : means'.size = a'.size - w + 1) :
    ∃ v, bruteForceSumOfSquaredDifference a means w = some v ∧
      Agrees v (Scamp.bruteForceSumOfSquaredDifference a' means' w) := by
  let value := (Scamp.bruteForceSumOfSquaredDifference a' means' w).get
  obtain ⟨v, hv, hw⟩ := foldlM_range_some
    (f := fun result i => do
      let sum ← windowLoop w (squaredDifference a means i)
      result.write i sum)
    (Written (a.size - w + 1) (fun _ => 0) value) (a.size - w + 1) .start (by
      intro i s hi hs
      rw [h.size] at hi
      obtain ⟨s', hs', hnext⟩ := hs.write (h.size ▸ hi)
      have hsum := windowLoop_some fun j (hj : j < w) =>
        squaredDifference_some (i := i) (j := j) h hm (by omega) (by omega)
      exact ⟨s', bind_some hsum hs', hnext⟩)
  rw [h.size] at hw
  exact ⟨v, hv, hw.agrees⟩

omit [NatCast K] [Div K] in
/-- **The sums of squares by the recurrence** stay inside the series, the means and the result. -/
theorem fastSumOfSquaredDifference_some {a a' means means' : Vec K} {w : ℕ} (h : Agrees a a')
    (hm : Agrees means means') (hw : 1 ≤ w) (ha : w ≤ a'.size) (hmsize : means'.size = a'.size - w + 1) :
    ∃ v, fastSumOfSquaredDifference a means w = some v ∧
      Agrees v (Scamp.fastSumOfSquaredDifference a' means' w) := by
  let value := fastSumOfSquares a' means' w
  have hsize := h.size
  have hsum := windowLoop_some fun j (hj : j < w) =>
    squaredDifference_some (i := 0) (j := j) h hm (by omega) (by omega)
  obtain ⟨first, hfirst, hwritten⟩ :=
    (Written.start : Written (a.size - w + 1) (fun _ => 0) value 0 ⟨a.size - w + 1, fun _ => 0⟩).write (by omega)
  obtain ⟨v, hv, hdone⟩ := foldlM_range'_some (f := fastStep a means w)
    (Written (a.size - w + 1) (fun _ => 0) value) (a.size - w) (a := 1) hwritten (by
      intro i s hi hlt hs
      obtain ⟨k, rfl⟩ : ∃ k, i = k + 1 := ⟨i - 1, by omega⟩
      obtain ⟨s', hs', hnext⟩ := hs.write (by omega)
      -- the entry before this one is the last value of the recurrence
      have hlast : s.read (k + 1 - 1) = some (value k) := by
        rw [Vec.read_lt (by rw [hs.size]; omega), Nat.add_sub_cancel, hs.get_lt (Nat.lt_succ_self k)]
      have hnew : a.read (k + 1 + w - 1) = some (a'.get (k + w)) := by
        rw [show k + 1 + w - 1 = k + w by omega, h.read (by omega)]
      exact ⟨s', bind_some hlast (bind_some (h.read (by omega)) (bind_some (hm.read (by omega))
        (bind_some hnew (bind_some (hm.read (by omega)) hs')))), hnext⟩)
  refine ⟨v, bind_some hsum (bind_some hfirst hv), ?_⟩
  rw [show 1 + (a.size - w) = a'.size - w + 1 by omega, hsize] at hdone
  exact hdone.agrees

/-! ## The statistics of one series -/

variable [One K] [LE K] [DecidableLE K]

/-- Two statistics of one series that agree inside their vectors. -/
structure SameStats (p q : PrecomputedInfo K) : Prop where
  norms : Agrees p.norms q.norms
  df : Agrees p.df q.df
  dg : Agrees p.dg q.dg
  means : Agrees p.means q.means
  nanIdxs : p.nanIdxs = q.nanIdxs

omit [Zero K] [Add K] [Sub K] [Mul K] in
/-- The loop over the norms. -/
theorem normLoop_some [HasSqrt K] {nanvalues nanvalues' : Vec Bool} {sums sums' : Vec K} {n : ℕ}
    (hn : Agrees nanvalues nanvalues') (hs : Agrees sums sums') (hnan : nanvalues'.size = n)
    (hsums : sums'.size = n) :
    ∃ r, (List.range n).foldlM (normStep nanvalues) (⟨sums.size, fun i => .num (sums.get i)⟩, []) = some r ∧
      Agrees r.1 ⟨n, fun i => inverseNorm (nanvalues'.get i) (sums'.get i)⟩ ∧
      r.2 = (List.range n).filter fun i => nanvalues'.get i || decide (sums'.get i ≤ flatnessEpsilon) := by
  rw [hs.size, hsums]
  obtain ⟨r, hr, hnorms, hidxs⟩ := foldlM_range_some (f := normStep nanvalues)
    (fun i s => Written n (fun i => .num (sums.get i))
        (fun i => inverseNorm (nanvalues'.get i) (sums'.get i)) i s.1 ∧
      s.2 = (List.range i).filter fun i => nanvalues'.get i || decide (sums'.get i ≤ flatnessEpsilon))
    n (s := (⟨n, fun i => .num (sums.get i)⟩, [])) ⟨.start, rfl⟩ (by
      rintro i ⟨norms, idxs⟩ hi ⟨hw, rfl⟩
      obtain ⟨norms', hwrite, hw'⟩ := hw.write hi
      have hread : norms.read i = some (.num (sums'.get i)) := by
        rw [Vec.read_lt (hw.size.symm ▸ hi), hw.get_self, hs.get i (hsums ▸ hi)]
      refine ⟨_, bind_some (hn.read (by omega)) (bind_some hread (bind_some hwrite rfl)), hw', ?_⟩
      rw [List.range_succ, List.filter_append]
      by_cases hskip : (nanvalues'.get i || decide (sums'.get i ≤ flatnessEpsilon)) = true
      · simp [normOf, hskip]
      · simp [normOf, hskip])
  exact ⟨r, hr, hnorms.agrees, hidxs⟩

omit [Mul K] [One K] [LE K] [DecidableLE K] in
/-- The loop over the differences, which leaves their last entries `0`. -/
theorem diffLoop_some {T T' means means' : Vec K} {m : ℕ} (h : Agrees T T') (hmeans : Agrees means means')
    (hT : m ≤ T'.size) (hsize : means'.size = T'.size - m + 1) :
    ∃ r, (List.range (T'.size - m)).foldlM (diffStep T means m)
        (.replicate (T'.size - m + 1) 0, .replicate (T'.size - m + 1) 0) = some r ∧
      Written (T'.size - m + 1) (fun _ => 0) (fun i => (T'.get (i + m) - T'.get i) / 2) (T'.size - m) r.1 ∧
      Written (T'.size - m + 1) (fun _ => 0)
        (fun i => (T'.get (i + m) - means'.get (i + 1)) + (T'.get i - means'.get i)) (T'.size - m) r.2 := by
  refine foldlM_range_some (f := diffStep T means m)
    (fun i s => Written (T'.size - m + 1) (fun _ => 0) (fun i => (T'.get (i + m) - T'.get i) / 2) i s.1 ∧
      Written (T'.size - m + 1) (fun _ => 0)
        (fun i => (T'.get (i + m) - means'.get (i + 1)) + (T'.get i - means'.get i)) i s.2)
    (T'.size - m) ⟨.start, .start⟩ ?_
  rintro i ⟨df, dg⟩ hi ⟨hdf, hdg⟩
  obtain ⟨df', hw, hdf'⟩ := hdf.write (by omega)
  obtain ⟨dg', hw', hdg'⟩ := hdg.write (by omega)
  exact ⟨(df', dg'), bind_some (h.read (by omega)) (bind_some (h.read (by omega)) (bind_some hw
    (bind_some (hmeans.read (by omega)) (bind_some (hmeans.read (by omega)) (bind_some hw' rfl))))),
    hdf', hdg'⟩

omit [One K] [LE K] [DecidableLE K] in
/-- The means and the sums of squares, by either method. -/
theorem sums_some {T T' : Vec K} {m : ℕ} (h : Agrees T T') (hm : 1 ≤ m) (hT : m ≤ T'.size) (hp : Bool) :
    let means' := if hp then Scamp.bruteForceMovingMean T' m else Scamp.movingMean T' m
    ∃ means sums, (if hp then bruteForceMovingMean T m else movingMean T m) = some means ∧
      (if hp then bruteForceSumOfSquaredDifference T means m else fastSumOfSquaredDifference T means m) =
        some sums ∧
      Agrees means means' ∧
      Agrees sums (if hp then Scamp.bruteForceSumOfSquaredDifference T' means' m
        else Scamp.fastSumOfSquaredDifference T' means' m) := by
  cases hp with
  | true =>
      obtain ⟨means, hmeans, hagree⟩ := bruteForceMovingMean_some h hT
      obtain ⟨sums, hsums, hagree'⟩ := bruteForceSumOfSquaredDifference_some h hagree hT rfl
      exact ⟨means, sums, hmeans, hsums, hagree, hagree'⟩
  | false =>
      obtain ⟨means, hmeans, hagree⟩ := movingMean_some h hm hT
      obtain ⟨sums, hsums, hagree'⟩ := fastSumOfSquaredDifference_some h hagree hm hT rfl
      exact ⟨means, sums, hmeans, hsums, hagree, hagree'⟩

/-- **The statistics of one series** are computed without leaving a vector, by either method. -/
theorem computeStatisticsCpu_some [HasSqrt K] {T T' : Vec K} {nanvalues nanvalues' : Vec Bool} {m : ℕ}
    (h : Agrees T T') (hn : Agrees nanvalues nanvalues') (hm : 1 ≤ m) (hT : m ≤ T'.size)
    (hnan : nanvalues'.size = T'.size - m + 1) (hp : Bool) :
    ∃ p, computeStatisticsCpu T nanvalues m hp = some p ∧
      SameStats p (Scamp.computeStatisticsCpu T' nanvalues' m hp) := by
  obtain ⟨means, sums, hmeans, hsums, hagree, hagree'⟩ := sums_some h hm hT hp
  obtain ⟨norms, hnorms, hnagree, hidxs⟩ := normLoop_some hn hagree' hnan (by cases hp <;> rfl)
  obtain ⟨diffs, hdiffs, hdf, hdg⟩ := diffLoop_some h hagree hT (by cases hp <;> rfl)
  rw [← h.size] at hnorms hdiffs
  refine ⟨⟨norms.1, diffs.1, diffs.2, means, norms.2⟩,
    bind_some hmeans (bind_some hsums (bind_some hnorms (bind_some hdiffs rfl))), hnagree, ?_, ?_, hagree,
    hidxs⟩
  · refine ⟨hdf.size, fun j _ => ?_⟩
    rw [hdf.get]
    exact if_congr (by omega) rfl rfl
  · refine ⟨hdg.size, fun j _ => ?_⟩
    rw [hdg.get]
    exact if_congr (by omega) rfl rfl

/-- The statistics of a series as `do_join` computes them, those of the alternative formula apart. -/
theorem statistics_some [HasSqrt K] {T : Vec (Sample K)} {m : ℕ} (hm : 1 ≤ m) (hT : m ≤ T.size) (hp : Bool) :
    let clean' := Scamp.convertNonFiniteToZero T m
    ∃ clean p, convertNonFiniteToZero T m = some clean ∧
      computeStatisticsCpu clean.1 clean.2 m hp = some p ∧ Agrees clean.1 clean'.1 ∧
      SameStats p (Scamp.computeStatisticsCpu clean'.1 clean'.2 m hp) := by
  obtain ⟨clean, hclean, hagree, hmarks⟩ := convertNonFiniteToZero_some hm hT
  obtain ⟨p, hp, hsame⟩ := computeStatisticsCpu_some hagree hmarks hm hT rfl hp
  exact ⟨clean, p, hclean, hp, hagree, hsame⟩

end

section
variable {K : Type} [Field K] [LinearOrder K]

/-! ## The precomputation of an operation -/

omit [LinearOrder K] in
/-- **Past the end.** `compute_combined_stats_cpu` reads `A[A.size()]` in the last iteration of its first
    loop, whatever the series. -/
theorem computeCombinedStatsCpu_none {A meansA B : Vec K} {m : ℕ} (hA : m ≤ A.size) (hp : Bool) :
    computeCombinedStatsCpu A meansA B m hp = none := by
  have hloop : ∀ s, (List.range (A.size - m + 1)).foldlM (columnDiffStep A meansA m) s = none := by
    refine foldlM_eq_none (x := A.size - m) (List.mem_range.mpr (Nat.lt_succ_self _)) fun s => ?_
    have hpast : A.read (A.size - m + m) = none := Vec.read_ge (by omega)
    simp [columnDiffStep, hpast]
  simp [computeCombinedStatsCpu, hloop]

/-- Outside `PRECISION_ULTRA` the precomputation of two series whose sizes are `int`s finishes, with the
    statistics of `Core.CpuStats`. -/
theorem precompute_some [HasSqrt K] {info : OpInfo K} {timeseriesA timeseriesB : Vec (Sample K)}
    (hm : 3 ≤ info.mpWindow) (hA : info.mpWindow ≤ timeseriesA.size)
    (hB : info.mpWindow ≤ timeseriesB.size) (hsizeA : timeseriesA.size ≤ maxInt)
    (hsizeB : timeseriesB.size ≤ maxInt) (hp : info.fpType ≠ .ultra) :
    let a := Scamp.convertNonFiniteToZero timeseriesA info.mpWindow
    let b := Scamp.convertNonFiniteToZero timeseriesB info.mpWindow
    let ultraPrecision := decide (info.fpType = .ultra)
    ∃ r, precompute info timeseriesA timeseriesB = some r ∧
      Agrees r.timeseriesA a.1 ∧ Agrees r.timeseriesB b.1 ∧
      SameStats r.precompA (Scamp.computeStatisticsCpu a.1 a.2 info.mpWindow ultraPrecision) ∧
      SameStats r.precompB (Scamp.computeStatisticsCpu b.1 b.2 info.mpWindow ultraPrecision) := by
  have hwindow : 1 ≤ info.mpWindow := by omega
  obtain ⟨a, precompA, ha, hpa, hagreeA, hsameA⟩ :=
    statistics_some hwindow hA (decide (info.fpType = .ultra))
  obtain ⟨b, precompB, hb, hpb, hagreeB, hsameB⟩ :=
    statistics_some hwindow hB (decide (info.fpType = .ultra))
  refine ⟨⟨a.1, b.1, precompA, precompB, none⟩, ?_, hagreeA, hagreeB, hsameA, hsameB⟩
  refine bind_some (if_pos hsizeA) (bind_some (if_pos hsizeB) ?_)
  refine bind_some ha (bind_some hb (bind_some hpa (bind_some hpb ?_)))
  rw [if_neg (by simpa using hp)]
  rfl

/-- An operation starts from the statistics that were computed inside their vectors. -/
theorem precompute_operation [HasSqrt K] (J : Join K) (build : Build K) (hsizeA : J.seriesA.size ≤ maxInt)
    (hsizeB : J.seriesB.size ≤ maxInt) (hp : J.info.fpType ≠ .ultra) :
    ∃ r, precompute J.info J.seriesA J.seriesB = some r ∧
      Agrees r.timeseriesA (J.operation build).timeseriesA ∧
      Agrees r.timeseriesB (J.operation build).timeseriesB ∧
      SameStats r.precompA (J.operation build).precompA ∧
      SameStats r.precompB (J.operation build).precompB := by
  have hlenB : J.info.mpWindow ≤ J.seriesB.size := by
    unfold Join.seriesB
    split_ifs with hb
    · exact (SCAMPArgs.sizes_of_validate J.valid).2.2.2 hb
    · exact J.window_le_lenA
  exact precompute_some J.three_le_window J.window_le_lenA hlenB hsizeA hsizeB hp

/-- A series whose size is not an `int` is not counted to its end. -/
theorem precompute_sizes [HasSqrt K] {info : OpInfo K} {timeseriesA timeseriesB : Vec (Sample K)}
    (h : (precompute info timeseriesA timeseriesB).isSome = true) :
    timeseriesA.size ≤ maxInt ∧ timeseriesB.size ≤ maxInt := by
  constructor
  · by_contra hlarge
    have hnone : toInt timeseriesA.size = none := if_neg hlarge
    rw [precompute, hnone] at h
    exact absurd h (by simp)
  · by_contra hlarge
    have hnone : toInt timeseriesB.size = none := if_neg hlarge
    rw [precompute, hnone] at h
    exact absurd h (by cases toInt timeseriesA.size <;> simp)

/-- The precomputation of `PRECISION_ULTRA` leaves the first series. -/
theorem precompute_none [HasSqrt K] {info : OpInfo K} {timeseriesA timeseriesB : Vec (Sample K)}
    (hm : 3 ≤ info.mpWindow) (hA : info.mpWindow ≤ timeseriesA.size)
    (hB : info.mpWindow ≤ timeseriesB.size) (hp : info.fpType = .ultra) :
    precompute info timeseriesA timeseriesB = none := by
  have hwindow : 1 ≤ info.mpWindow := by omega
  obtain ⟨a, precompA, ha, hpa, hagree, -⟩ := statistics_some hwindow hA (decide (info.fpType = .ultra))
  obtain ⟨b, precompB, hb, hpb, -⟩ := statistics_some hwindow hB (decide (info.fpType = .ultra))
  have hsize : a.1.size = timeseriesA.size := hagree.size
  by_cases hint : timeseriesA.size ≤ maxInt ∧ timeseriesB.size ≤ maxInt
  · have hintA : toInt timeseriesA.size = some timeseriesA.size := if_pos hint.1
    have hintB : toInt timeseriesB.size = some timeseriesB.size := if_pos hint.2
    unfold precompute
    simp only [hintA, hintB, ha, hb, hpa, hpb, Option.bind_eq_bind, Option.bind_some]
    rw [computeCombinedStatsCpu_none (hsize ▸ hA), if_pos (by simpa using hp)]
    rfl
  · by_contra hsome
    exact hint (precompute_sizes (Option.isSome_iff_ne_none.mpr hsome))

/-- **The accesses of the precomputation.** For series of at least one window, the statistics of `do_join`
    are computed without an access outside a vector exactly when the precision is not `PRECISION_ULTRA` and
    the sizes of the two series are `int`s. -/
theorem statsInBounds_iff [HasSqrt K] (info : OpInfo K) (timeseriesA timeseriesB : Vec (Sample K))
    (hm : 3 ≤ info.mpWindow) (hA : info.mpWindow ≤ timeseriesA.size)
    (hB : info.mpWindow ≤ timeseriesB.size) :
    (precompute info timeseriesA timeseriesB).isSome = true ↔
      info.fpType ≠ .ultra ∧ timeseriesA.size ≤ maxInt ∧ timeseriesB.size ≤ maxInt := by
  constructor
  · intro hsome
    refine ⟨fun hultra => ?_, precompute_sizes hsome⟩
    rw [precompute_none hm hA hB hultra] at hsome
    exact absurd hsome (by simp)
  · rintro ⟨hultra, hsizeA, hsizeB⟩
    obtain ⟨r, hr, -⟩ := precompute_some hm hA hB hsizeA hsizeB hultra
    rw [hr]
    rfl

/-- The join of a series of three samples with itself, in `PRECISION_DOUBLE`. -/
noncomputable def threeSamples : SCAMPArgs ℝ :=
  abJoinArgs .oneNNIndex ⟨3, fun i => .finite i⟩ ⟨3, fun i => .finite i⟩ 3

theorem statsInBounds_iff_three :
    3 ≤ 3 ∧ 3 ≤ threeSamples.timeseriesA.size ∧
      ((precompute (.ofArgs threeSamples 1) threeSamples.timeseriesA threeSamples.timeseriesB).isSome = true ↔
        SCAMPPrecisionType.double ≠ .ultra ∧ 3 ≤ maxInt ∧ 3 ≤ maxInt) :=
  ⟨Nat.le_refl 3, Nat.le_refl 3,
    statsInBounds_iff (.ofArgs threeSamples 1) threeSamples.timeseriesA threeSamples.timeseriesB
      (Nat.le_refl 3) (Nat.le_refl 3) (Nat.le_refl 3)⟩

/-- The same join in `PRECISION_ULTRA` leaves the first series. -/
theorem ultra_reads_past_end :
    ¬ ∀ (info : OpInfo ℝ) (timeseriesA timeseriesB : Vec (Sample ℝ)), 3 ≤ info.mpWindow →
      info.mpWindow ≤ timeseriesA.size → info.mpWindow ≤ timeseriesB.size →
      (precompute info timeseriesA timeseriesB).isSome = true := by
  intro h
  have hsome := h (.ofArgs { threeSamples with precisionType := .ultra } 1) threeSamples.timeseriesA
    threeSamples.timeseriesB (Nat.le_refl 3) (Nat.le_refl 3) (Nat.le_refl 3)
  rw [precompute_none (Nat.le_refl 3) (Nat.le_refl 3) (Nat.le_refl 3) rfl] at hsome
  exact absurd hsome (by simp)

end

end Scamp.Checked
