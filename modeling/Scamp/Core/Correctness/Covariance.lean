import Scamp.Core.Correctness.KernelRun
import Scamp.Core.Correctness.Stats
import Scamp.Core.Operation

/-!
# `Core.Correctness.Covariance` — the covariances of a pass are centred dot products

`compute_QT_CPU` computes the first row of covariances of a pass, and the kernel moves each down its
diagonal with `cov += dfa * dgb + dga * dfb`. `InitStats` gives these four arrays one of two meanings: the
differences of `compute_statistics_cpu`, or, for `PRECISION_ULTRA`, those of `compute_combined_stats_cpu`.
Both keep the covariance of a cell equal to the centred dot product of its two windows, in the upper pass
over a tile and in the transposed one, whose rows are the columns of the tile (`covAt_upper_of_fits`,
`covAt_lower_of_fits`), wherever in the series the tile lies.
-/

namespace Scamp

open Lib

section
variable {K : Type} [Field K] [LinearOrder K]

/-! ## The statistics of two series -/

/-- What `do_join` computes for two series. -/
def Operation.ofSeries [HasSqrt K] (build : Build K) (info : OpInfo K) (A B : Vec (Sample K)) : Operation K :=
  let m := info.mpWindow
  let ultra := decide (info.fpType = .ultra)
  { build := build
    info := info
    timeseriesA := (convertNonFiniteToZero A m).1
    timeseriesB := (convertNonFiniteToZero B m).1
    precompA := seriesStats A m ultra
    precompB := seriesStats B m ultra
    precomp := combinedStats A ultra B m }

theorem Join.operation_eq [HasSqrt K] (J : Join K) (build : Build K) :
    J.operation build = .ofSeries build J.info J.seriesA J.seriesB := rfl

namespace Operation
variable (op : Operation K)

/-- What `InitStats` copies to `dfA`, from the start of the series. -/
def dfA : ℕ → K := if op.info.fpType = .ultra then op.precomp.dcBkwd.get else op.precompA.df.get

def dgA : ℕ → K := if op.info.fpType = .ultra then op.precomp.dcFwd.get else op.precompA.dg.get

def dfB : ℕ → K := if op.info.fpType = .ultra then op.precomp.drFwd.get else op.precompB.df.get

def dgB : ℕ → K := if op.info.fpType = .ultra then op.precomp.drBkwd.get else op.precompB.dg.get

end Operation

/-! ## A tile with its statistics -/

/-- `InitTimeseries`, then `InitStats`. -/
def loadTile (op : Operation K) (tile : Tile K) : Tile K :=
  (tile.initTimeseries op.timeseriesA op.timeseriesB).initStats op.info op.precompA op.precompB op.precomp

/-- The tile holds the pieces of the series and of the statistics at its place. -/
structure Loaded (op : Operation K) (tile : Tile K) : Prop where
  tA : ∀ i < tile.dims.width, tile.tA i = op.timeseriesA.get (tile.dims.col + i)
  tB : ∀ i < tile.dims.height, tile.tB i = op.timeseriesB.get (tile.dims.row + i)
  normsA : ∀ i < tile.dims.width - op.info.mpWindow + 1,
    tile.normsA i = op.precompA.norms.get (tile.dims.col + i)
  normsB : ∀ i < tile.dims.height - op.info.mpWindow + 1,
    tile.normsB i = op.precompB.norms.get (tile.dims.row + i)
  dfA : ∀ i < tile.dims.width - op.info.mpWindow + 1, tile.dfA i = op.dfA (tile.dims.col + i)
  dgA : ∀ i < tile.dims.width - op.info.mpWindow + 1, tile.dgA i = op.dgA (tile.dims.col + i)
  dfB : ∀ i < tile.dims.height - op.info.mpWindow + 1, tile.dfB i = op.dfB (tile.dims.row + i)
  dgB : ∀ i < tile.dims.height - op.info.mpWindow + 1, tile.dgB i = op.dgB (tile.dims.row + i)

/-- Loading a tile fills its buffers, whatever was in them. -/
theorem loadTile_loaded (op : Operation K) (tile : Tile K) : Loaded op (loadTile op tile) where
  tA _ hi := memcopy_lt hi
  tB _ hi := memcopy_lt hi
  normsA _ hi := memcopy_lt hi
  normsB _ hi := memcopy_lt hi
  dfA _ hi := memcopy_lt hi
  dgA _ hi := memcopy_lt hi
  dfB _ hi := memcopy_lt hi
  dgB _ hi := memcopy_lt hi

/-- The two pieces of series under a tile lie in the series, are no longer than a tile may be, and hold a
    window. -/
structure Fits (info : OpInfo K) (A B : Vec (Sample K)) (t : TileDims) : Prop where
  window_le_width : info.mpWindow ≤ t.width
  window_le_height : info.mpWindow ≤ t.height
  width_le : t.width ≤ info.maxTileTsSize
  height_le : t.height ≤ info.maxTileTsSize
  col_add_width_le : t.col + t.width ≤ A.size
  row_add_height_le : t.row + t.height ≤ B.size

/-- The first row of covariances of a pass over the tile. -/
def firstCovariances (info : OpInfo K) (tile : Tile K) (transpose : Bool) : Buffer K :=
  if transpose then computeQTCPU info.maxTileTsSize info.mpWindow tile.qt tile.tB tile.tA
  else computeQTCPU info.maxTileTsSize info.mpWindow tile.qt tile.tA tile.tB

/-- The correlation a pass computes on diagonal `d` of its row `row`. -/
def passCorr (info : OpInfo K) (tile : Tile K) (transpose abJoin : Bool) (row d : ℕ) : Dbl K :=
  let a := tile.kernelArgs info transpose abJoin
  ((Dbl.num (covAt a (firstCovariances info tile transpose) row d)).mul (a.normsa (row + d))).mul
    (a.normsb row)

/-! ## One step down a diagonal -/

omit [LinearOrder K] in
/-- The recurrence follows any function of the cells that starts like it and takes its steps. -/
theorem covAt_eq_of_steps {a : KernelArgs K} {cov : Buffer K} {f : ℕ → ℕ → K} {nX nY : ℕ}
    (hfirst : ∀ d < nX, cov d = f 0 d)
    (hstep : ∀ row d, row + 1 < nY → row + 1 + d < nX → f (row + 1) (row + 1 + d) =
      f row (row + d) + a.dfa (d + row) * a.dgb row + a.dga (d + row) * a.dfb row) :
    ∀ row d, row < nY → row + d < nX → covAt a cov row d = f row (row + d) := by
  intro row d hrow hcol
  induction row with
  | zero =>
      rw [Nat.zero_add] at hcol ⊢
      exact hfirst d hcol
  | succ row ih =>
      rw [covAt, ih (by omega) (by omega), hstep row d hrow hcol]

variable [HasSqrt K] [IsStrictOrderedRing K] (bld : Build K) (info : OpInfo K) (A B : Vec (Sample K))
  (hm : 3 ≤ info.mpWindow)
include hm

/-- **Both update formulas move the centred dot product one step down its diagonal.** -/
theorem cdot_step {r c : ℕ} (hc : c + 1 < A.size - info.mpWindow + 1)
    (hr : r + 1 < B.size - info.mpWindow + 1) :
    cdot (cleanSeries A) (cleanSeries B) info.mpWindow (c + 1) (r + 1) =
      cdot (cleanSeries A) (cleanSeries B) info.mpWindow c r
        + (Operation.ofSeries bld info A B).dfA c * (Operation.ofSeries bld info A B).dgB r
        + (Operation.ofSeries bld info A B).dgA c * (Operation.ofSeries bld info A B).dfB r := by
  have hm0 : 0 < info.mpWindow := by omega
  have hm1 : 1 < info.mpWindow := by omega
  unfold Operation.dfA Operation.dgA Operation.dfB Operation.dgB
  by_cases hultra : (Operation.ofSeries bld info A B).info.fpType = .ultra
  · obtain ⟨hdf, hdg⟩ := combinedStats_column A (decide (info.fpType = .ultra)) B hm0 hc
    obtain ⟨hdg', hdf'⟩ := combinedStats_row A (decide (info.fpType = .ultra)) B hm1 r
    simp only [if_pos hultra]
    rw [cdot_succ_inner _ _ _ _ hm1, ← hdf, ← hdg, ← hdf', ← hdg']
    rfl
  · simp only [if_neg hultra]
    rw [cdot_succ _ _ _ _ hm0, ← seriesStats_df A (decide (info.fpType = .ultra)) hc,
      ← seriesStats_dg A (decide (info.fpType = .ultra)) hm0 hc,
      ← seriesStats_df B (decide (info.fpType = .ultra)) hr,
      ← seriesStats_dg B (decide (info.fpType = .ultra)) hm0 hr]
    rfl

/-! ## Down the diagonals of a tile -/

section
variable {bld info A B} {tile : Tile K} (hload : Loaded (.ofSeries bld info A B) tile)
  (hfit : Fits info A B tile.dims)
include hload hfit

omit [IsStrictOrderedRing K] hm in
/-- The first row of covariances of the upper pass. -/
theorem firstCovariances_upper {i : ℕ} (hi : i < tile.dims.width - info.mpWindow + 1) :
    firstCovariances info tile false i =
      cdot (cleanSeries A) (cleanSeries B) info.mpWindow (tile.dims.col + i) tile.dims.row := by
  have hwidth := hfit.width_le
  have hwindow := hfit.window_le_width
  unfold firstCovariances
  rw [if_neg Bool.false_ne_true, computeQTCPU_eq _ _ _ (by omega)]
  refine cdot_congr _ (fun j hj => ?_) (fun j hj => ?_)
  · rw [hload.tA _ (by omega), ← Nat.add_assoc]
    rfl
  · have hheight := hfit.window_le_height
    rw [hload.tB _ (by omega), Nat.zero_add]
    rfl

omit [IsStrictOrderedRing K] hm in
/-- The first row of covariances of the lower pass. -/
theorem firstCovariances_lower {i : ℕ} (hi : i < tile.dims.height - info.mpWindow + 1) :
    firstCovariances info tile true i =
      cdot (cleanSeries A) (cleanSeries B) info.mpWindow tile.dims.col (tile.dims.row + i) := by
  have hheight := hfit.height_le
  have hwindow := hfit.window_le_height
  unfold firstCovariances
  rw [if_pos rfl, computeQTCPU_eq _ _ _ (by omega), cdot_comm]
  refine cdot_congr _ (fun j hj => ?_) (fun j hj => ?_)
  · have hwidth := hfit.window_le_width
    rw [hload.tA _ (by omega), Nat.zero_add]
    rfl
  · rw [hload.tB _ (by omega), ← Nat.add_assoc]
    rfl

omit hm hfit [IsStrictOrderedRing K] in
/-- The coefficients under a tile are those of the series from the start of the tile on. -/
theorem loaded_coefficients {i j : ℕ} (hi : i < tile.dims.width - info.mpWindow + 1)
    (hj : j < tile.dims.height - info.mpWindow + 1) :
    tile.dfA i = (Operation.ofSeries bld info A B).dfA (tile.dims.col + i) ∧
      tile.dgA i = (Operation.ofSeries bld info A B).dgA (tile.dims.col + i) ∧
      tile.dfB j = (Operation.ofSeries bld info A B).dfB (tile.dims.row + j) ∧
      tile.dgB j = (Operation.ofSeries bld info A B).dgB (tile.dims.row + j) :=
  ⟨hload.dfA i hi, hload.dgA i hi, hload.dfB j hj, hload.dgB j hj⟩

/-- **The covariances of the upper pass.** -/
theorem covAt_upper_of_fits (abJoin : Bool) (row d : ℕ) (hrow : row < tile.dims.height - info.mpWindow + 1)
    (hcol : row + d < tile.dims.width - info.mpWindow + 1) :
    covAt (tile.kernelArgs info false abJoin) (firstCovariances info tile false) row d =
      cdot (cleanSeries A) (cleanSeries B) info.mpWindow (tile.dims.col + (row + d))
        (tile.dims.row + row) := by
  have hA := hfit.col_add_width_le
  have hB := hfit.row_add_height_le
  refine covAt_eq_of_steps (f := fun r c => cdot (cleanSeries A) (cleanSeries B) info.mpWindow
    (tile.dims.col + c) (tile.dims.row + r)) (fun d hd => firstCovariances_upper hload hfit hd)
    (fun row d hrow hcol => ?_) row d hrow hcol
  have hstep := cdot_step bld info A B hm (r := tile.dims.row + row) (c := tile.dims.col + (row + d))
    (by omega) (by omega)
  obtain ⟨hdfA, hdgA, hdfB, hdgB⟩ := loaded_coefficients hload (i := d + row) (j := row) (by omega) (by omega)
  show _ = _ + tile.dfA (d + row) * tile.dgB row + tile.dgA (d + row) * tile.dfB row
  rw [hdfA, hdgA, hdfB, hdgB, Nat.add_comm d row, ← hstep, Nat.add_right_comm row 1 d]
  rfl

/-- **The covariances of the lower pass**, whose rows are the columns of the tile. -/
theorem covAt_lower_of_fits (abJoin : Bool) (row d : ℕ) (hrow : row < tile.dims.width - info.mpWindow + 1)
    (hcol : row + d < tile.dims.height - info.mpWindow + 1) :
    covAt (tile.kernelArgs info true abJoin) (firstCovariances info tile true) row d =
      cdot (cleanSeries A) (cleanSeries B) info.mpWindow (tile.dims.col + row)
        (tile.dims.row + (row + d)) := by
  have hA := hfit.col_add_width_le
  have hB := hfit.row_add_height_le
  refine covAt_eq_of_steps (f := fun r c => cdot (cleanSeries A) (cleanSeries B) info.mpWindow
    (tile.dims.col + r) (tile.dims.row + c)) (fun d hd => firstCovariances_lower hload hfit hd)
    (fun row d hrow hcol => ?_) row d hrow hcol
  have hstep := cdot_step bld info A B hm (r := tile.dims.row + (row + d)) (c := tile.dims.col + row)
    (by omega) (by omega)
  obtain ⟨hdfA, hdgA, hdfB, hdgB⟩ := loaded_coefficients hload (i := row) (j := d + row) (by omega) (by omega)
  -- the kernel is handed the statistics of `B` as `dfa`, `dga` and those of `A` as `dfb`, `dgb`
  show _ = _ + tile.dfB (d + row) * tile.dgA row + tile.dgB (d + row) * tile.dfA row
  rw [hdfA, hdgA, hdfB, hdgB, Nat.add_comm d row, Nat.add_right_comm row 1 d]
  exact hstep.trans (by ring)

end

end

/-! ## The two precisions -/

section
variable {K : Type} [Field K] [LinearOrder K]

/-- A series of finite values. -/
def finiteSeries (x : Vec K) : Vec (Sample K) := ⟨x.size, fun i => .finite (x.get i)⟩

/-- The same operation with another precision. -/
def OpInfo.withPrecision (info : OpInfo K) (fpType : SCAMPPrecisionType) : OpInfo K :=
  { info with fpType := fpType }

/-- A tile over two finite series, loaded with the statistics of a precision. -/
def finiteTile [HasSqrt K] (bld : Build K) (info : OpInfo K) (fpType : SCAMPPrecisionType) (A B : Vec K)
    (tile : Tile K) : Tile K :=
  loadTile (.ofSeries bld (info.withPrecision fpType) (finiteSeries A) (finiteSeries B)) tile

/-- The kernel's covariance of a cell of a pass, counted from the start of the tile, is the centred dot
    product of the windows there. -/
def CentredCovariances [HasSqrt K] (bld : Build K) (info : OpInfo K) (fpType : SCAMPPrecisionType)
    (A B : Vec K) (tile : Tile K) (abJoin : Bool) : Prop :=
  let info' := info.withPrecision fpType
  let loaded := finiteTile bld info fpType A B tile
  (∀ row d, row < tile.dims.height - info.mpWindow + 1 → row + d < tile.dims.width - info.mpWindow + 1 →
    covAt (loaded.kernelArgs info' false abJoin) (firstCovariances info' loaded false) row d =
      cdot A.get B.get info.mpWindow (tile.dims.col + (row + d)) (tile.dims.row + row)) ∧
  ∀ row d, row < tile.dims.width - info.mpWindow + 1 → row + d < tile.dims.height - info.mpWindow + 1 →
    covAt (loaded.kernelArgs info' true abJoin) (firstCovariances info' loaded true) row d =
      cdot A.get B.get info.mpWindow (tile.dims.col + row) (tile.dims.row + (row + d))

variable [HasSqrt K] [IsStrictOrderedRing K]

/-- The norms under a tile are those of the series, whichever precision they are computed in. -/
theorem finiteTile_norms (bld : Build K) (info : OpInfo K) (hm : 3 ≤ info.mpWindow)
    (fpType : SCAMPPrecisionType) (A B : Vec K) (tile : Tile K) :
    (∀ i < tile.dims.width - info.mpWindow + 1, (finiteTile bld info fpType A B tile).normsA i =
      inverseNorm (decide (stepsSinceLastNan (finiteSeries A) info.mpWindow
          (tile.dims.col + i + info.mpWindow - 1) < info.mpWindow)) (ssd A.get info.mpWindow (tile.dims.col + i))) ∧
    ∀ i < tile.dims.height - info.mpWindow + 1, (finiteTile bld info fpType A B tile).normsB i =
      inverseNorm (decide (stepsSinceLastNan (finiteSeries B) info.mpWindow
          (tile.dims.row + i + info.mpWindow - 1) < info.mpWindow)) (ssd B.get info.mpWindow (tile.dims.row + i)) := by
  have hm0 : 0 < info.mpWindow := by omega
  have hload := loadTile_loaded
    (.ofSeries bld (info.withPrecision fpType) (finiteSeries A) (finiteSeries B)) tile
  refine ⟨fun i hi => (hload.normsA i hi).trans ?_, fun i hi => (hload.normsB i hi).trans ?_⟩
  · exact seriesStats_norms (finiteSeries A) hm0 (decide (fpType = .ultra)) (tile.dims.col + i)
  · exact seriesStats_norms (finiteSeries B) hm0 (decide (fpType = .ultra)) (tile.dims.row + i)

/-- **The covariances of either precision.** Over finite series the statistics of every precision keep the
    covariance of each cell of a pass, upper or lower, equal to the centred dot product of its windows; so
    `PRECISION_DOUBLE` and `PRECISION_ULTRA` compute the same correlations. -/
theorem covariances_centred (bld : Build K) (info : OpInfo K) (hm : 3 ≤ info.mpWindow) (A B : Vec K)
    (tile : Tile K) (hfit : Fits info (finiteSeries A) (finiteSeries B) tile.dims) (abJoin : Bool) :
    (∀ fpType, CentredCovariances bld info fpType A B tile abJoin) ∧
      ∀ transpose row d,
        row < (kernelDims info tile.dims transpose abJoin).nY →
        row + d < (kernelDims info tile.dims transpose abJoin).nX →
        passCorr (info.withPrecision .double) (finiteTile bld info .double A B tile) transpose abJoin row d =
          passCorr (info.withPrecision .ultra) (finiteTile bld info .ultra A B tile) transpose abJoin row d := by
  have hcov : ∀ fpType, CentredCovariances bld info fpType A B tile abJoin := by
    intro fpType
    have hload := loadTile_loaded
      (.ofSeries bld (info.withPrecision fpType) (finiteSeries A) (finiteSeries B)) tile
    have hfit' : Fits (info.withPrecision fpType) (finiteSeries A) (finiteSeries B)
        (finiteTile bld info fpType A B tile).dims := ⟨hfit.1, hfit.2, hfit.3, hfit.4, hfit.5, hfit.6⟩
    have hm' : 3 ≤ (info.withPrecision fpType).mpWindow := hm
    exact ⟨covAt_upper_of_fits hm' hload hfit' abJoin, covAt_lower_of_fits hm' hload hfit' abJoin⟩
  refine ⟨hcov, fun transpose row d hrow hcol => ?_⟩
  obtain ⟨hdoubleA, hdoubleB⟩ := finiteTile_norms bld info hm .double A B tile
  obtain ⟨hultraA, hultraB⟩ := finiteTile_norms bld info hm .ultra A B tile
  unfold passCorr
  cases transpose with
  | false =>
      show ((Dbl.num _).mul ((finiteTile bld info .double A B tile).normsA _)).mul
          ((finiteTile bld info .double A B tile).normsB _) =
        ((Dbl.num _).mul ((finiteTile bld info .ultra A B tile).normsA _)).mul
          ((finiteTile bld info .ultra A B tile).normsB _)
      rw [(hcov .double).1 row d hrow hcol, (hcov .ultra).1 row d hrow hcol, hdoubleA _ hcol, hultraA _ hcol,
        hdoubleB _ hrow, hultraB _ hrow]
  | true =>
      show ((Dbl.num _).mul ((finiteTile bld info .double A B tile).normsB _)).mul
          ((finiteTile bld info .double A B tile).normsA _) =
        ((Dbl.num _).mul ((finiteTile bld info .ultra A B tile).normsB _)).mul
          ((finiteTile bld info .ultra A B tile).normsA _)
      rw [(hcov .double).2 row d hrow hcol, (hcov .ultra).2 row d hrow hcol, hdoubleB _ hcol, hultraB _ hcol,
        hdoubleA _ hrow, hultraA _ hrow]

end

/-- A tile whose memory holds zeros. -/
def zeroTile {K : Type} [Field K] : Tile K where
  dims := ⟨0, 0, 0, 0⟩
  tA _ := 0
  tB _ := 0
  qt _ := 0
  meansA _ := 0
  meansB _ := 0
  normsA _ := .num 0
  normsB _ := .num 0
  dfA _ := 0
  dfB _ := 0
  dgA _ := 0
  dgB _ := 0
  hasNanInput := false
  profileATileDev _ := zeroEntry
  profileBTileDev _ := zeroEntry

/-- A self-join of four samples with window `3`. -/
noncomputable def rampInfo : OpInfo ℝ := .ofArgs (selfJoinArgs .oneNNIndex (.replicate 4 .nan) 3) 1

/-- The samples `0, 1, 2, 3`. -/
noncomputable def ramp : Vec ℝ := ⟨4, fun i => i⟩

/-- The tile over the whole of the series. -/
noncomputable def rampTile : Tile ℝ := { zeroTile with dims := ⟨4, 4, 0, 0⟩ }

theorem covariances_centred_ramp :
    (∀ fpType, CentredCovariances scanBuild rampInfo fpType ramp ramp rampTile false) ∧
      ∀ transpose row d, row < 2 → row + d < 2 →
        passCorr (rampInfo.withPrecision .double) (finiteTile scanBuild rampInfo .double ramp ramp rampTile)
            transpose false row d =
          passCorr (rampInfo.withPrecision .ultra) (finiteTile scanBuild rampInfo .ultra ramp ramp rampTile)
            transpose false row d := by
  obtain ⟨hcov, hcorr⟩ := covariances_centred scanBuild rampInfo (le_refl 3) ramp ramp rampTile
    ⟨by decide, by decide, by decide, by decide, by decide, by decide⟩ false
  refine ⟨hcov, fun transpose row d hrow hcol => ?_⟩
  cases transpose with
  | false => exact hcorr false row d hrow hcol
  | true => exact hcorr true row d hrow hcol

end Scamp
