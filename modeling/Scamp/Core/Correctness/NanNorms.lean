import Scamp.Core.Correctness.Precisions
import Scamp.Core.Correctness.TileRun

/-!
# `Core.Correctness.NanNorms` — the windows that have no norm

`convert_non_finite_to_zero` marks the windows with a sample that is not finite, `compute_statistics_cpu`
gives these and the flat ones the norm NaN and lists them, and `InitStats` looks for listed windows over the
samples of a tile.

What is listed is what has been computed: in doubles a flat window may have a sum of squares that rounding has
left above `FLATNESS_EPSILON`, and a sum that has overflowed may be a NaN that is not listed
(`flatWindow_unlisted`). Where the sums are those of the windows, the norms that are NaN are those of the marked
and the flat windows, and a tile over which no listed window lies holds no NaN, so that its rows are the same
with and without the clean-up of `handle_row`. `listed_norms` says both.
-/

namespace Scamp

open Lib Checked

/-! ## Cleaning the input -/

section
variable {K : Type}

/-- What `convert_non_finite_to_zero` leaves: the series with zeros for its non-finite samples, and a mark on
    each window that contains one. -/
structure CleanedSeries [Zero K] (T : Vec (Sample K)) (m : ℕ) (clean : Vec K × Vec Bool) : Prop where
  series : Agrees clean.1 ⟨T.size, cleanSeries T⟩
  marks_size : clean.2.size = T.size - m + 1
  marked_iff : ∀ i < T.size - m + 1,
    (clean.2.get i = true ↔ ∃ j < m, (T.get (i + j)).isFinite = false)

/-- **Cleaning** marks the windows with a non-finite sample. -/
theorem convertNonFiniteToZero_cleaned [Zero K] {T : Vec (Sample K)} {m : ℕ} (hm : 1 ≤ m) (hT : m ≤ T.size) :
    ∃ clean, Checked.convertNonFiniteToZero T m = some clean ∧ CleanedSeries T m clean := by
  obtain ⟨clean, hclean, hseries, hmarks⟩ := convertNonFiniteToZero_some hm hT
  refine ⟨clean, hclean, hseries, hmarks.size, fun i hi => ?_⟩
  rw [hmarks.get i hi, ← Bool.not_eq_false]
  refine (not_congr (nanvals_eq T m i)).trans ?_
  simp only [FiniteWindow, not_forall, Bool.not_eq_true, exists_prop]

end

/-! ## The windows without a norm -/

section
variable {K : Type} [Field K] [LinearOrder K] [IsStrictOrderedRing K] [HasSqrt K]

/-- What `compute_statistics_cpu` leaves of the norms: NaN for the windows that are marked or flat, which
    `nan_idxs` lists. -/
structure NanNorms (T : Vec (Sample K)) (m : ℕ) (marks : Vec Bool) (p : PrecomputedInfo K) : Prop where
  size : p.norms.size = T.size - m + 1
  nan_iff : ∀ i < T.size - m + 1,
    (p.norms.get i = .nan ↔ marks.get i = true ∨ ssd (cleanSeries T) m i ≤ flatnessEpsilon)
  nanIdxs : p.nanIdxs = (List.range (T.size - m + 1)).filter fun i => decide (p.norms.get i = .nan)

/-- **The norms** of a cleaned series. -/
theorem computeStatisticsCpu_nan {T : Vec (Sample K)} {m : ℕ} {clean : Vec K × Vec Bool}
    (h : CleanedSeries T m clean) (hm : 1 ≤ m) (hT : m ≤ T.size) (high : Bool) :
    ∃ p, Checked.computeStatisticsCpu clean.1 clean.2 m high = some p ∧ NanNorms T m clean.2 p := by
  have hsize := h.series.size
  have hmarks : clean.2.size = clean.1.size - m + 1 := by rw [hsize]; exact h.marks_size
  obtain ⟨p, hp, hsame⟩ := computeStatisticsCpu_windows hm (hsize.symm ▸ hT) hmarks high
  have hpsize : p.norms.size = T.size - m + 1 := by
    rw [hsame.norms.size, ← hsize]
    rfl
  have hlt : ∀ i, i < T.size - m + 1 → i < (windowStats clean.1 clean.2 m).norms.size := by
    intro i hi
    rwa [← hsame.norms.size, hpsize]
  have hssd : ∀ i < T.size - m + 1, ssd clean.1.get m i = ssd (cleanSeries T) m i := by
    intro i hi
    rw [ssd_eq_cdot, ssd_eq_cdot]
    have hget : ∀ j < m, clean.1.get (i + j) = cleanSeries T (i + j) := fun j hj =>
      h.series.get (i + j) (show i + j < T.size by omega)
    exact cdot_congr m hget hget
  have hnan : ∀ i < T.size - m + 1,
      (p.norms.get i = .nan ↔ clean.2.get i = true ∨ ssd (cleanSeries T) m i ≤ flatnessEpsilon) := by
    intro i hi
    rw [hsame.norms.get i (hlt i hi), ← hssd i hi]
    exact inverseNorm_eq_nan
  refine ⟨p, hp, hpsize, hnan, ?_⟩
  rw [hsame.nanIdxs]
  show (List.range (clean.1.size - m + 1)).filter _ = _
  rw [hsize]
  refine List.filter_congr fun i hi => ?_
  rw [Bool.eq_iff_iff, Bool.or_eq_true, decide_eq_true_eq, decide_eq_true_eq, hnan i (List.mem_range.mp hi),
    hssd i (List.mem_range.mp hi)]

/-! ## Tiles without a NaN -/

/-- A tile rectangle: at least a window in each direction, inside the two series. -/
structure TileRectangle (m sizeA sizeB : ℕ) (t : TileDims) : Prop where
  width : m ≤ t.width
  height : m ≤ t.height
  right : t.col + t.width ≤ sizeA
  bottom : t.row + t.height ≤ sizeB

omit [Field K] [LinearOrder K] [IsStrictOrderedRing K] [HasSqrt K] in
/-- No window copied to a tile is listed when no listed one lies over the samples of the tile. -/
theorem not_listed {p : PrecomputedInfo K} {m : ℕ} (hm : 1 ≤ m) {start len : ℕ} (hlen : m ≤ len)
    (hany : p.nanIdxs.any (fun idx => decide (start ≤ idx ∧ idx < start + len)) = false) {i : ℕ}
    (hi : i < len - m + 1) : start + i ∉ p.nanIdxs := by
  intro hlisted
  have := not_mem_of_any_false hany _ hlisted (Nat.le_add_right start i)
  omega

omit [HasSqrt K] [IsStrictOrderedRing K] in
/-- The norms copied to a tile are numbers when no listed window lies over its samples. -/
theorem copied_norms {T : Vec (Sample K)} {m : ℕ} {marks : Vec Bool} {p : PrecomputedInfo K}
    (h : NanNorms T m marks p) (hm : 1 ≤ m) {start len : ℕ} (hlen : m ≤ len) (hin : start + len ≤ T.size)
    (hany : p.nanIdxs.any (fun idx => decide (start ≤ idx ∧ idx < start + len)) = false) {i : ℕ}
    (hi : i < len - m + 1) : (p.norms.get (start + i)).isFinite = true := by
  have hlt : start + i < T.size - m + 1 := by omega
  cases hnorm : p.norms.get (start + i) with
  | num x => rfl
  | nan =>
      refine absurd ?_ (not_listed hm hlen hany hi)
      rw [h.nanIdxs, List.mem_filter]
      exact ⟨List.mem_range.mpr hlt, decide_eq_true hnorm⟩

section
variable {A B : Vec (Sample K)} {m : ℕ} {marksA marksB : Vec Bool} {a b : PrecomputedInfo K}
  {info : OpInfo K} {t : Tile K} {ab : CombinedStats K}

omit [HasSqrt K] [IsStrictOrderedRing K] in
/-- `InitStats` leaves `has_nan_input_` false only over norms that are numbers. -/
theorem initStats_finite (hA : NanNorms A m marksA a) (hB : NanNorms B m marksB b) (hm : 1 ≤ m)
    (hinfo : info.mpWindow = m) (ht : TileRectangle m A.size B.size t.dims)
    (hnan : (t.initStats info a b ab).hasNanInput = false) :
    (∀ i < t.dims.width - m + 1, ((t.initStats info a b ab).normsA i).isFinite = true) ∧
      ∀ j < t.dims.height - m + 1, ((t.initStats info a b ab).normsB j).isFinite = true := by
  subst hinfo
  obtain ⟨hanyA, hanyB⟩ := Bool.or_eq_false_iff.mp hnan
  constructor
  · intro i hi
    show (memcopy t.normsA a.norms.get t.dims.col (t.dims.width - info.mpWindow + 1) i).isFinite = true
    rw [memcopy_lt hi]
    exact copied_norms hA hm ht.width ht.right hanyA hi
  · intro j hj
    show (memcopy t.normsB b.norms.get t.dims.row (t.dims.height - info.mpWindow + 1) j).isFinite = true
    rw [memcopy_lt hj]
    exact copied_norms hB hm ht.height ht.bottom hanyB hj

end

omit [LinearOrder K] [IsStrictOrderedRing K] [HasSqrt K] in
/-- The correlation of two windows with norms is a number. -/
theorem isFinite_corr {x : K} {u v : Dbl K} (hu : u.isFinite = true) (hv : v.isFinite = true) :
    (((Dbl.num x).mul u).mul v).isFinite = true := by
  cases u with
  | nan => exact absurd hu Bool.false_ne_true
  | num y =>
      cases v with
      | nan => exact absurd hv Bool.false_ne_true
      | num z => rfl

omit [LinearOrder K] [IsStrictOrderedRing K] [HasSqrt K] in
/-- A row over norms that are numbers has a number in every cell, with and without the clean-up. -/
theorem rowCorr_finite {type : SCAMPProfileType} {args : KernelArgs K} {cov : Buffer K}
    {tileDiag row len d : ℕ} (hcol : (args.normsa (tileDiag + row + d)).isFinite = true)
    (hrow : (args.normsb row).isFinite = true) :
    ((rowCorr type args cov tileDiag row len).get d).isFinite = true ∧
      (rowCorr type { args with hasNanInput := true } cov tileDiag row len).get d =
        (rowCorr type args cov tileDiag row len).get d := by
  have hfinite := isFinite_corr (x := cov (tileDiag + d)) hcol hrow
  have hdrop : ∀ clean : Bool, (rowCorr type { args with hasNanInput := clean } cov tileDiag row len).get d =
      ((Dbl.num (cov (tileDiag + d))).mul (args.normsa (tileDiag + row + d))).mul (args.normsb row) := by
    intro clean
    show dropNan type { args with hasNanInput := clean } _ = _
    unfold dropNan
    rw [if_pos hfinite, ite_self]
  refine ⟨?_, (hdrop true).trans (hdrop args.hasNanInput).symm⟩
  rw [show (rowCorr type args cov tileDiag row len).get d = _ from hdrop args.hasNanInput]
  exact hfinite

/-- What the statistics of a series are when nothing is rounded: cleaning marks exactly the windows with a
    non-finite sample and replaces these samples by `0`, and the norm of exactly the marked and the flat windows
    is NaN. -/
def ExactStats (T : Vec (Sample K)) (m : ℕ) (high : Bool) (p : PrecomputedInfo K) : Prop :=
  ∃ clean, Checked.convertNonFiniteToZero T m = some clean ∧ CleanedSeries T m clean ∧
    Checked.computeStatisticsCpu clean.1 clean.2 m high = some p ∧ NanNorms T m clean.2 p

/-- A tile without a NaN: the norms copied to it are numbers, and every row of either pass is the same as with
    the clean-up of `handle_row`. -/
structure NanFreeTile (info : OpInfo K) (t : Tile K) : Prop where
  normsA : ∀ i < t.dims.width - info.mpWindow + 1, (t.normsA i).isFinite = true
  normsB : ∀ j < t.dims.height - info.mpWindow + 1, (t.normsB j).isFinite = true
  rows : ∀ (transpose abJoin : Bool) (type : SCAMPProfileType) (cov : Buffer K) (tileDiag row len : ℕ),
    let args := t.kernelArgs info transpose abJoin
    row < args.nY → tileDiag + row + len ≤ args.nX → ∀ d < len,
      ((rowCorr type args cov tileDiag row len).get d).isFinite = true ∧
      (rowCorr type { args with hasNanInput := true } cov tileDiag row len).get d =
        (rowCorr type args cov tileDiag row len).get d

/-- The statistics of a series of at least one window, without rounding. -/
theorem exists_exactStats {T : Vec (Sample K)} {m : ℕ} (hm : 1 ≤ m) (hT : m ≤ T.size) (high : Bool) :
    ∃ p, ExactStats T m high p := by
  obtain ⟨clean, hclean, hcleaned⟩ := convertNonFiniteToZero_cleaned hm hT
  obtain ⟨p, hp, hnorms⟩ := computeStatisticsCpu_nan hcleaned hm hT high
  exact ⟨p, clean, hclean, hcleaned, hp, hnorms⟩

omit [IsStrictOrderedRing K] in
/-- A tile over which no listed window lies. -/
theorem nanFreeTile_of_exact {A B : Vec (Sample K)} {m : ℕ} {high : Bool} {a b : PrecomputedInfo K}
    (hA : ExactStats A m high a) (hB : ExactStats B m high b) (hm : 1 ≤ m) {info : OpInfo K}
    (hinfo : info.mpWindow = m) {t : Tile K} (ht : TileRectangle m A.size B.size t.dims) {ab : CombinedStats K}
    (hnan : (t.initStats info a b ab).hasNanInput = false) : NanFreeTile info (t.initStats info a b ab) := by
  obtain ⟨cleanA, -, -, -, hnormsA⟩ := hA
  obtain ⟨cleanB, -, -, -, hnormsB⟩ := hB
  obtain ⟨hfinA, hfinB⟩ := initStats_finite hnormsA hnormsB hm hinfo ht hnan
  subst hinfo
  refine ⟨hfinA, hfinB, ?_⟩
  intro transpose abJoin type cov tileDiag row len args hrow hcols d hd
  -- a transposed pass reads the norms of the other series
  cases transpose with
  | false => exact rowCorr_finite (hfinA _ (show _ < args.nX by omega)) (hfinB _ hrow)
  | true => exact rowCorr_finite (hfinB _ (show _ < args.nX by omega)) (hfinA _ hrow)

end

/-! ## What has been computed -/

section
variable {K : Type} [Zero K] [One K] [NatCast K] [Add K] [Sub K] [Mul K] [Div K] [LE K] [DecidableLE K]
  [HasSqrt K]

/-- What `compute_statistics_cpu` makes of the sums of squares it has computed. -/
structure ComputedNorms (marks : Vec Bool) (sums : Vec K) (n : ℕ) (p : PrecomputedInfo K) : Prop where
  size : p.norms.size = n
  norm : ∀ i < n, p.norms.get i = inverseNorm (marks.get i) (sums.get i)
  nanIdxs : p.nanIdxs = (List.range n).filter fun i => marks.get i || decide (sums.get i ≤ flatnessEpsilon)

/-- **The norms of the computed sums**, however these have been rounded. -/
theorem computeStatisticsCpu_computed {a : Vec K} {marks : Vec Bool} {m : ℕ} (hm : 1 ≤ m) (ha : m ≤ a.size)
    (hmarks : marks.size = a.size - m + 1) (high : Bool) :
    ∃ sums p, sumsOfSquares a m high = some sums ∧ Checked.computeStatisticsCpu a marks m high = some p ∧
      ComputedNorms marks sums (a.size - m + 1) p := by
  obtain ⟨means, sums, hmeans, hsums, -, hagree⟩ := sums_some (.refl a) hm ha high
  obtain ⟨p, hp, hsame⟩ := computeStatisticsCpu_some (.refl a) (.refl marks) hm ha hmarks high
  have hget : ∀ i < a.size - m + 1, sums.get i = _ := fun i hi => hagree.get i (by cases high <;> exact hi)
  refine ⟨sums, p, bind_some hmeans hsums, hp, hsame.norms.size, fun i hi => ?_, ?_⟩
  · rw [hget i hi]
    exact hsame.norms.get i hi
  · rw [hsame.nanIdxs]
    refine List.filter_congr fun i hi => ?_
    rw [hget i (List.mem_range.mp hi)]

omit [Zero K] [Add K] [Sub K] [Mul K] in
theorem ComputedNorms.mem_nanIdxs {marks : Vec Bool} {sums : Vec K} {n : ℕ} {p : PrecomputedInfo K}
    (h : ComputedNorms marks sums n p) {i : ℕ} (hi : i < n) :
    i ∈ p.nanIdxs ↔ marks.get i = true ∨ sums.get i ≤ flatnessEpsilon := by
  rw [h.nanIdxs, List.mem_filter, List.mem_range, Bool.or_eq_true, decide_eq_true_eq]
  exact and_iff_right hi

end

/-! ## In doubles -/

section
variable {sums : Vec Float} {n : ℕ} {p : PrecomputedInfo Float}

theorem flatnessEpsilon_pos : (0 : Float) < flatnessEpsilon := by decide +kernel

/-- **A norm is NaN** when its window is listed, or when its sum of squares is a NaN itself. -/
theorem isNaN_norm {marks : Vec Bool} (h : ComputedNorms marks sums n p) {i : ℕ} (hi : i < n) :
    (p.norms.get i).toDouble.isNaN = true ↔ i ∈ p.nanIdxs ∨ (sums.get i).isNaN = true := by
  rw [h.mem_nanIdxs hi, h.norm i hi]
  unfold inverseNorm
  split_ifs with hmark hflat
  · exact ⟨fun _ => Or.inl (Or.inl hmark), fun _ => by decide +kernel⟩
  · exact ⟨fun _ => Or.inl (Or.inr hflat), fun _ => by decide +kernel⟩
  · have hinverse : (1 / (sums.get i).sqrt).isNaN = (sums.get i).isNaN :=
      Doubles.isNaN_inverse_sqrt flatnessEpsilon_pos hflat
    show (1 / (sums.get i).sqrt).isNaN = true ↔ _
    rw [hinverse]
    exact ⟨Or.inr, fun h => h.resolve_left fun h => h.elim hmark hflat⟩

end

/-- What the statistics of a series of doubles are, in terms of the sums of squares `sums` that have been
    computed for it: the norms of exactly the marked windows and those with a sum of at most
    `FLATNESS_EPSILON` are made NaN and listed; the norm of another window is NaN only when its sum is. -/
structure RoundedStats (T : Vec Float) (m : ℕ) (high : Bool) (sums : Vec Float) (p : PrecomputedInfo Float) :
    Prop where
  computed : ∃ clean, Checked.convertNonFiniteToZero T.samples m = some clean ∧
    CleanedSeries T.samples m clean ∧ sumsOfSquares clean.1 m high = some sums ∧
    Checked.computeStatisticsCpu clean.1 clean.2 m high = some p ∧
    ComputedNorms clean.2 sums (T.size - m + 1) p
  isNaN_iff : ∀ i < T.size - m + 1,
    ((p.norms.get i).toDouble.isNaN = true ↔ i ∈ p.nanIdxs ∨ (sums.get i).isNaN = true)

/-- The statistics of a series of at least one window, in doubles. -/
theorem exists_roundedStats {T : Vec Float} {m : ℕ} (hm : 1 ≤ m) (hT : m ≤ T.size) (high : Bool) :
    ∃ sums p, RoundedStats T m high sums p := by
  obtain ⟨clean, hclean, hcleaned⟩ := convertNonFiniteToZero_cleaned (T := T.samples) hm hT
  have hsize : clean.1.size = T.size := hcleaned.series.size
  have hmarks : clean.2.size = clean.1.size - m + 1 := hsize ▸ hcleaned.marks_size
  obtain ⟨sums, p, hsums, hp, hnorms⟩ := computeStatisticsCpu_computed hm (hsize ▸ hT) hmarks high
  rw [hsize] at hnorms
  exact ⟨sums, p, ⟨clean, hclean, hcleaned, hsums, hp, hnorms⟩, fun i hi => isNaN_norm hnorms hi⟩

/-- A norm copied to a tile when no listed window lies over its samples. -/
theorem copied_norm_isNaN_iff {T sums : Vec Float} {m : ℕ} {high : Bool} {p : PrecomputedInfo Float}
    (h : RoundedStats T m high sums p) (hm : 1 ≤ m) {start len : ℕ} (hlen : m ≤ len) (hin : start + len ≤ T.size)
    (hany : p.nanIdxs.any (fun idx => decide (start ≤ idx ∧ idx < start + len)) = false) {i : ℕ}
    (hi : i < len - m + 1) (norms : Buffer (Dbl Float)) :
    start + i ∉ p.nanIdxs ∧ ((memcopy norms p.norms.get start (len - m + 1) i).toDouble.isNaN = true ↔
      (sums.get (start + i)).isNaN = true) := by
  have hlisted := not_listed hm hlen hany hi
  rw [memcopy_lt hi, h.isNaN_iff _ (by omega)]
  exact ⟨hlisted, or_iff_right hlisted⟩

/-- The norms copied to a tile for which `InitStats` leaves `has_nan_input_` false: none is that of a listed
    window, and one is NaN only when the sum of its window is. -/
theorem initStats_rounded {A B sumsA sumsB : Vec Float} {m : ℕ} {high : Bool} {a b : PrecomputedInfo Float}
    (hA : RoundedStats A m high sumsA a) (hB : RoundedStats B m high sumsB b) (hm : 1 ≤ m)
    {info : OpInfo Float} (hinfo : info.mpWindow = m) {t : Tile Float}
    (ht : TileRectangle m A.size B.size t.dims) {ab : CombinedStats Float}
    (hnan : (t.initStats info a b ab).hasNanInput = false) :
    (∀ i < t.dims.width - m + 1, t.dims.col + i ∉ a.nanIdxs ∧
      (((t.initStats info a b ab).normsA i).toDouble.isNaN = true ↔
        (sumsA.get (t.dims.col + i)).isNaN = true)) ∧
    ∀ j < t.dims.height - m + 1, t.dims.row + j ∉ b.nanIdxs ∧
      (((t.initStats info a b ab).normsB j).toDouble.isNaN = true ↔
        (sumsB.get (t.dims.row + j)).isNaN = true) := by
  subst hinfo
  obtain ⟨hwidth, hheight, hright, hbottom⟩ := ht
  obtain ⟨hanyA, hanyB⟩ := Bool.or_eq_false_iff.mp hnan
  exact ⟨fun i hi => copied_norm_isNaN_iff hA hm hwidth hright hanyA hi t.normsA,
    fun j hj => copied_norm_isNaN_iff hB hm hheight hbottom hanyB hj t.normsB⟩

/-- **The windows without a norm.** In doubles, for two series of at least one window and either precision,
    cleaning marks exactly the windows with a non-finite sample and otherwise replaces these samples by `0`,
    and the statistics list exactly the marked windows and those whose computed sum of squares is at most
    `FLATNESS_EPSILON`. Of every tile rectangle for which `InitStats` leaves `has_nan_input_` false, no copied
    norm is that of a listed window, and none is NaN unless the computed sum of its window is.

    Without rounding the listed windows are the marked and the flat ones, no copied norm of such a tile is NaN,
    and every row of either pass is the same as with the clean-up of `handle_row`. -/
theorem listed_norms {m : ℕ} (hm : 1 ≤ m) (high : Bool) :
    (∀ A B : Vec Float, m ≤ A.size → m ≤ B.size →
      ∃ sumsA sumsB a b, RoundedStats A m high sumsA a ∧ RoundedStats B m high sumsB b ∧
        ∀ (info : OpInfo Float) (ab : CombinedStats Float) (t : Tile Float), info.mpWindow = m →
          TileRectangle m A.size B.size t.dims → (t.initStats info a b ab).hasNanInput = false →
          (∀ i < t.dims.width - m + 1, t.dims.col + i ∉ a.nanIdxs ∧
            (((t.initStats info a b ab).normsA i).toDouble.isNaN = true ↔
              (sumsA.get (t.dims.col + i)).isNaN = true)) ∧
          ∀ j < t.dims.height - m + 1, t.dims.row + j ∉ b.nanIdxs ∧
            (((t.initStats info a b ab).normsB j).toDouble.isNaN = true ↔
              (sumsB.get (t.dims.row + j)).isNaN = true)) ∧
    ∀ (K : Type) [Field K] [LinearOrder K] [IsStrictOrderedRing K] [HasSqrt K] (A B : Vec (Sample K)),
      m ≤ A.size → m ≤ B.size →
      ∃ a b, ExactStats A m high a ∧ ExactStats B m high b ∧
        ∀ (info : OpInfo K) (ab : CombinedStats K) (t : Tile K), info.mpWindow = m →
          TileRectangle m A.size B.size t.dims → (t.initStats info a b ab).hasNanInput = false →
          NanFreeTile info (t.initStats info a b ab) := by
  constructor
  · intro A B hA hB
    obtain ⟨sumsA, a, ha⟩ := exists_roundedStats hm hA high
    obtain ⟨sumsB, b, hb⟩ := exists_roundedStats hm hB high
    exact ⟨sumsA, sumsB, a, b, ha, hb, fun info ab t hinfo ht hnan => initStats_rounded ha hb hm hinfo ht hnan⟩
  · intro K _ _ _ _ A B hA hB
    obtain ⟨a, ha⟩ := exists_exactStats hm hA high
    obtain ⟨b, hb⟩ := exists_exactStats hm hB high
    exact ⟨a, b, ha, hb, fun info ab t hinfo ht hnan => nanFreeTile_of_exact ha hb hm hinfo ht hnan⟩

/-! ## Two series -/

/-- The statistics of a series of doubles, from its samples. -/
def statisticsOf (T : Vec Float) (m : ℕ) (high : Bool) : Option (PrecomputedInfo Float) := do
  let clean ← Checked.convertNonFiniteToZero T.samples m
  Checked.computeStatisticsCpu clean.1 clean.2 m high

theorem statisticsOf_eq {T sums : Vec Float} {m : ℕ} {high : Bool} {p : PrecomputedInfo Float}
    (h : RoundedStats T m high sums p) : statisticsOf T m high = some p := by
  obtain ⟨clean, hclean, -, -, hp, -⟩ := h.computed
  exact bind_some hclean hp

/-- The samples `0, NaN, 2, 2, 5`: of the windows of length `2`, two are marked, the third is flat and the last
    has a norm. -/
def fiveSamples : Vec Float :=
  ⟨5, fun i => if i = 1 then .ofBits 0x7ff8000000000000 else (([0, 0, 2, 2, 5].getD i 0 : ℕ) : Float)⟩

/-- The tile over the last two samples holds no NaN. -/
theorem listed_norms_five :
    ∃ a b, statisticsOf fiveSamples 2 true = some a ∧ a.nanIdxs = [0, 1, 2] ∧
      ∀ (info : OpInfo Float) (ab : CombinedStats Float) (t : Tile Float), info.mpWindow = 2 →
        t.dims = ⟨2, 2, 3, 3⟩ → (t.initStats info a b ab).hasNanInput = false ∧
          ((t.initStats info a b ab).normsA 0).toDouble.isNaN = false := by
  obtain ⟨sumsA, sumsB, a, b, ha, hb, htile⟩ :=
    (listed_norms (m := 2) (by decide) true).1 fiveSamples fiveSamples (by decide) (by decide)
  have hrun : (statisticsOf fiveSamples 2 true).map (fun p => (p.nanIdxs, (p.norms.get 3).toDouble.isNaN)) =
      some ([0, 1, 2], false) := by decide +kernel
  have hb' := statisticsOf_eq hb
  rw [hb'] at hrun
  obtain ⟨hlistB, -⟩ := Prod.mk.inj (Option.some.inj hrun)
  rw [← hb', statisticsOf_eq ha] at hrun
  obtain ⟨hlistA, hnormA⟩ := Prod.mk.inj (Option.some.inj hrun)
  refine ⟨a, b, statisticsOf_eq ha, hlistA, fun info ab t hinfo hdims => ?_⟩
  have hnan : (t.initStats info a b ab).hasNanInput = false := by
    show (a.nanIdxs.any _ || b.nanIdxs.any _) = false
    rw [hlistA, hlistB, hdims]
    rfl
  have hrect : TileRectangle 2 5 5 t.dims := by
    rw [hdims]
    exact ⟨by decide, by decide, by decide, by decide⟩
  have hcopied := ((htile info ab t hinfo hrect hnan).1 0 (Nat.succ_pos _)).2
  rw [hdims] at hcopied
  refine ⟨hnan, Bool.eq_false_iff.mpr fun hbad => ?_⟩
  have := (ha.isNaN_iff 3 (by decide)).mpr (Or.inr (hcopied.mp hbad))
  rw [hnormA] at this
  exact Bool.false_ne_true this

/-- A series of doubles, each the nearest to a natural number. -/
def ofNats (xs : List ℕ) : Vec Float := ⟨xs.length, fun i => ((xs.getD i 0 : ℕ) : Float)⟩

/-- **Not every flat window is listed.** The window `1, 1, 1` of `0, 10 ^ 6, 0, 1, 1, 1, 2, 5` is flat, but the
    sum that the moving loops leave for it is not, so that it keeps a norm. With `10 ^ 155` in place of
    `10 ^ 6` the sums overflow: norms are NaN that are not listed, and `InitStats` finds none of them. -/
theorem flatWindow_unlisted :
    (ssd (fun i => (([0, 10 ^ 6, 0, 1, 1, 1, 2, 5].getD i 0 : ℕ) : ℚ)) 3 3 ≤ flatnessEpsilon ∧
      ∃ p, statisticsOf (ofNats [0, 10 ^ 6, 0, 1, 1, 1, 2, 5]) 3 false = some p ∧ 3 ∉ p.nanIdxs ∧
        (p.norms.get 3).toDouble.isNaN = false) ∧
    ∃ p, statisticsOf (ofNats [0, 10 ^ 155, 0, 1, 2, 4, 3, 5]) 3 false = some p ∧
      (p.norms.get 3).toDouble.isNaN = true ∧
      ∀ (info : OpInfo Float) (ab : CombinedStats Float) (t : Tile Float),
        (t.initStats info p p ab).hasNanInput = false := by
  have hspike : (statisticsOf (ofNats [0, 10 ^ 6, 0, 1, 1, 1, 2, 5]) 3 false).map
      (fun p => (p.nanIdxs, (p.norms.get 3).toDouble.isNaN)) = some ([], false) := by decide +kernel
  have hlarge : (statisticsOf (ofNats [0, 10 ^ 155, 0, 1, 2, 4, 3, 5]) 3 false).map
      (fun p => (p.nanIdxs, (p.norms.get 3).toDouble.isNaN)) = some ([], true) := by decide +kernel
  obtain ⟨p, hp, hvalues⟩ := Option.map_eq_some_iff.mp hspike
  obtain ⟨q, hq, hvalues'⟩ := Option.map_eq_some_iff.mp hlarge
  obtain ⟨hlist, hnorm⟩ := Prod.mk.inj hvalues
  obtain ⟨hlist', hnorm'⟩ := Prod.mk.inj hvalues'
  refine ⟨⟨?_, p, hp, hlist ▸ List.not_mem_nil, hnorm⟩, q, hq, hnorm', fun info ab t => ?_⟩
  · unfold ssd windowMean windowSum flatnessEpsilon
    norm_num [Finset.sum_range_succ]
  · show (q.nanIdxs.any _ || q.nanIdxs.any _) = false
    rw [hlist']
    rfl

end Scamp
