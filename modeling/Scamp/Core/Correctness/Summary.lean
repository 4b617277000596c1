import Scamp.Core.Correctness.NearestNeighbor
import Scamp.Core.Correctness.Visits

/-!
# `Core.Correctness.Summary` — matrix summaries

`PROFILE_TYPE_MATRIX_SUMMARY` on CPU workers. The profile is a matrix of `height * width` cells, and each
compared cell of the distance matrix raises the summary cell it lies in (`summaryIndex`) to its correlation,
unless that is below the threshold. A worker copies the whole summary once, before it pops its first tile,
and merges it once, after the loop; so its copy is older than what the other workers merge meanwhile.

Neither the order nor the number of times a correlation is taken in matters: a summary cell that only ever
holds the initial value or a correlation of its own (`Reached`) and is no smaller than any correlation it
has been shown (`Shown`) ends as the maximum. The invariant of a run (`SummaryInv`) says that for every
copy, and that every tile is queued, in the hands of a worker, or shown to a copy that will be merged.
-/

namespace Scamp

open Lib

section
variable {K : Type} [Field K] [LinearOrder K]

/-! ## The summary cell of a cell -/

/-- The height of the summary. -/
def Join.summaryHeight (J : Join K) : ℕ := J.args.matrixHeight.toNat

/-- The width of the summary. -/
def Join.summaryWidth (J : Join K) : ℕ := J.args.matrixWidth.toNat

/-- The row and the column of the summary cell that a cell `(r, c)` of the distance matrix lies in. -/
def summaryCell (J : Join K) (z : ℕ × ℕ) : ℕ × ℕ :=
  (z.1 * J.summaryHeight / J.info.numRows, z.2 * J.summaryWidth / J.info.numCols)

/-- Its place in the profile. -/
def summaryIndex (J : Join K) (z : ℕ × ℕ) : ℕ :=
  (summaryCell J z).1 * J.summaryWidth + (summaryCell J z).2

/-- The values of a summary cell after some cells were offered to it. -/
def summaryFold [HasSqrt K] (J : Join K) (cells : List (ℕ × ℕ)) (k : ℕ) (v : Dbl K) : Dbl K :=
  (cells.filter fun z => summaryIndex J z = k).foldl
    (fun v z => takeIn .matrixSummary J.info.threshold v (.num (J.cellCorr z.1 z.2))) v

theorem summaryFold_append [HasSqrt K] (J : Join K) (cells cells' : List (ℕ × ℕ)) (k : ℕ) (v : Dbl K) :
    summaryFold J (cells ++ cells') k v = summaryFold J cells' k (summaryFold J cells k v) := by
  unfold summaryFold
  rw [List.filter_append, List.foldl_append]

/-- A join of this type whose summary has a cell. -/
structure SummaryJoin (J : Join K) : Prop where
  type_eq : J.args.profileType = .matrixSummary
  height_pos : 1 ≤ J.args.matrixHeight
  width_pos : 1 ≤ J.args.matrixWidth

namespace SummaryJoin
variable {J : Join K} (h : SummaryJoin J)
include h

theorem info_type : J.info.profileType = .matrixSummary := h.type_eq

/-- Summaries only reduce along the columns. -/
theorem no_rows : J.info.computingRows = false := if_pos h.type_eq

theorem height_eq : ((J.summaryHeight : ℕ) : ℤ) = J.args.matrixHeight :=
  Int.toNat_of_nonneg (by have := h.height_pos; omega)

theorem width_eq : ((J.summaryWidth : ℕ) : ℤ) = J.args.matrixWidth :=
  Int.toNat_of_nonneg (by have := h.width_pos; omega)

theorem mergeTargetB_eq : Tile.mergeTargetB J.info = none := by
  unfold Tile.mergeTargetB
  rw [h.no_rows, Bool.and_false]
  rfl

end SummaryJoin

/-! ## One tile -/

variable [HasSqrt K] [IsStrictOrderedRing K] {J : Join K} {bld : Build K} (hJ : SummaryJoin J)
  {t : TilePos} (ht : t ∈ getTiles J.info) {tile tile' : Tile K}
include hJ ht

omit [IsStrictOrderedRing K] in
/-- A pass over a tile lies in the summarised matrix. -/
theorem inSummary_pass (hprep : Prepared (J.operation bld) t tile) (transpose : Bool) :
    InSummary (tile.kernelArgs J.info transpose (!J.info.selfJoin)) transpose J.info.numCols J.info.numRows
      J.summaryHeight J.summaryWidth := by
  obtain ⟨hrow, hcol, hwidth, hheight⟩ := prepared_dims ht hprep
  obtain ⟨hin, hin', _⟩ := (mem_getTiles J).mp ht
  have hsizeA : tileNumCols J.info t ≤ J.info.numCols - t.2 * J.info.maxTileWidth := Nat.min_le_right _ _
  have hsizeB : tileNumRows J.info t ≤ J.info.numRows - t.1 * J.info.maxTileWidth := Nat.min_le_right _ _
  have hh := hJ.height_pos
  have hw := hJ.width_pos
  have hheight' := hJ.height_eq
  have hwidth' := hJ.width_eq
  refine ⟨?_, ?_, ?_, by omega, by omega, ?_, ?_⟩
  · exact hwidth'.symm
  · show (if J.args.profileType = .matrixSummary then
      ((J.args.timeseriesA.size - J.args.window + 1 : ℕ) : ℚ) / J.args.matrixWidth else 0) = _
    rw [if_pos hJ.type_eq, ← hwidth', Int.cast_natCast]
    rfl
  · show (if J.args.profileType = .matrixSummary then
      ((J.info.fullTsLenB - J.args.window + 1 : ℕ) : ℚ) / J.args.matrixHeight else 0) = _
    rw [if_pos hJ.type_eq, ← hheight', Int.cast_natCast]
    rfl
  · show tile.dims.col + (if transpose then
      (if transpose then tile.dims.width else tile.dims.height) - J.info.mpWindow + 1
      else (if transpose then tile.dims.height else tile.dims.width) - J.info.mpWindow + 1) ≤ J.info.numCols
    cases transpose <;> (simp only [if_true, Bool.false_eq_true, if_false]; omega)
  · show tile.dims.row + (if transpose then
      (if transpose then tile.dims.height else tile.dims.width) - J.info.mpWindow + 1
      else (if transpose then tile.dims.width else tile.dims.height) - J.info.mpWindow + 1) ≤ J.info.numRows
    cases transpose <;> (simp only [if_true, Bool.false_eq_true, if_false]; omega)

omit [IsStrictOrderedRing K] in
/-- **The entry a cell updates** is its summary cell, in the column-wise upper pass and in the row-wise lower
    one. -/
theorem updateIndex_pass (hprep : Prepared (J.operation bld) t tile) (transpose : Bool) {z : ℕ × ℕ}
    (hz : z ∈ doTileCells bld.unrollWid (tile.kernelArgs J.info transpose (!J.info.selfJoin)).toKernelDims) :
    (updateIndex .matrixSummary transpose (tile.kernelArgs J.info transpose (!J.info.selfJoin)) z).toNat =
      summaryIndex J (globalCell (tileDims J.info t) transpose z) := by
  obtain ⟨hr, hc, _⟩ := (mem_doTileCells (unrollWid_pos bld)).mp hz
  have hin := inSummary_pass hJ ht hprep transpose
  have h1 := hin.cols_le
  have h2 := hin.rows_le
  rw [← show tile.dims = tileDims J.info t from hprep.dims]
  unfold updateIndex summaryIndex summaryCell globalCell
  rw [if_pos rfl]
  cases transpose with
  | false =>
      simp only [Bool.false_eq_true, if_false] at h1 h2 ⊢
      rw [(matrixIndex_eq hin z.2 z.1 (by omega) (by omega)).1, Int.toNat_natCast]
      rw [Nat.add_comm tile.dims.row, Nat.add_comm tile.dims.col]
      rfl
  | true =>
      simp only [if_true] at h1 h2 ⊢
      rw [(matrixIndex_eq hin z.1 z.2 (by omega) (by omega)).1, Int.toNat_natCast]
      rw [Nat.add_comm tile.dims.row, Nat.add_comm tile.dims.col]
      rfl

/-- The correlations of a pass, as the kernel has them. -/
theorem kernelCorr_pass (hprep : Prepared (J.operation bld) t tile) (transpose : Bool) {z : ℕ × ℕ}
    (hz : z ∈ doTileCells bld.unrollWid (tile.kernelArgs J.info transpose (!J.info.selfJoin)).toKernelDims) :
    kernelCorr .matrixSummary (tile.kernelArgs J.info transpose (!J.info.selfJoin))
      (firstCovariances J.info tile transpose) z =
      .num (J.cellCorr (globalCell (tileDims J.info t) transpose z).1
        (globalCell (tileDims J.info t) transpose z).2) := by
  obtain ⟨hr, hc, hle, hlt⟩ := (mem_doTileCells (unrollWid_pos bld)).mp hz
  have hval : PassValues J.info.profileType (tile.kernelArgs J.info transpose (!J.info.selfJoin))
      (firstCovariances J.info tile transpose) (passVal J t transpose) := by
    cases transpose with
    | false => exact passValues_upper ht hprep
    | true => exact passValues_lower ht hprep
  have hcell := hval z.1 hr (z.2 - z.1) (by omega) (by omega)
  rw [hJ.info_type, Nat.add_sub_cancel' (show z.1 ≤ z.2 by omega)] at hcell
  exact hcell

/-- What a pass leaves in an entry: the visited cells, as cells of the matrix. -/
theorem summaryFold_pass (hprep : Prepared (J.operation bld) t tile) (transpose : Bool) (k : ℕ) (v : Dbl K)
    (hlaunch : (tile.kernelArgs J.info transpose (!J.info.selfJoin)).launches = true) :
    ((doTileCells bld.unrollWid
        (tile.kernelArgs J.info transpose (!J.info.selfJoin)).toKernelDims).filter fun z =>
      (updateIndex .matrixSummary transpose (tile.kernelArgs J.info transpose (!J.info.selfJoin)) z).toNat =
        k).foldl
      (fun v z => takeIn .matrixSummary J.info.threshold v
        (kernelCorr .matrixSummary (tile.kernelArgs J.info transpose (!J.info.selfJoin))
          (firstCovariances J.info tile transpose) z)) v =
      summaryFold J (passCells bld.unrollWid J.info t transpose) k v := by
  unfold summaryFold passCells launchCells
  rw [← show _ = kernelDims J.info (tileDims J.info t) transpose _ from kernelArgs_dims hprep transpose,
    if_pos hlaunch, List.filter_map, List.foldl_map]
  have hfilter : (doTileCells bld.unrollWid
        (tile.kernelArgs J.info transpose (!J.info.selfJoin)).toKernelDims).filter (fun z =>
      (updateIndex .matrixSummary transpose (tile.kernelArgs J.info transpose (!J.info.selfJoin)) z).toNat =
        k) = (doTileCells bld.unrollWid
        (tile.kernelArgs J.info transpose (!J.info.selfJoin)).toKernelDims).filter
          ((fun z => decide (summaryIndex J z = k)) ∘ globalCell (tileDims J.info t) transpose) := by
    apply List.filter_congr
    intro z hz
    rw [updateIndex_pass hJ ht hprep transpose hz]
    rfl
  rw [hfilter]
  apply List.foldl_ext
  intro w z hz
  rw [kernelCorr_pass hJ ht hprep transpose (List.mem_filter.mp hz).1]

/-- **One pass over a tile**, on the summary. -/
theorem summary_runPass (hprep : Prepared (J.operation bld) t tile) {transpose : Bool}
    (h : tile.runPass bld J.info transpose (!J.info.selfJoin) = .ok tile') :
    Prepared (J.operation bld) t tile' ∧
      ∀ k, (tile'.profileATileDev k).value =
        summaryFold J (passCells bld.unrollWid J.info t transpose) k (tile.profileATileDev k).value := by
  have hcols : J.info.computingCols = true := J.columns
  -- a pass that is not launched has no cells
  have hnocells : (tile.kernelArgs J.info transpose (!J.info.selfJoin)).launches = false →
      ∀ k v, summaryFold J (passCells bld.unrollWid J.info t transpose) k v = v := by
    intro hoff k v
    unfold summaryFold passCells launchCells
    rw [← show _ = kernelDims J.info (tileDims J.info t) transpose _ from kernelArgs_dims hprep transpose,
      if_neg (by rw [hoff]; exact Bool.false_ne_true)]
    rfl
  unfold Tile.runPass at h
  cases transpose with
  | false =>
      dsimp only at h
      rw [if_neg Bool.false_ne_true] at h
      split at h
      · next s hs =>
          obtain rfl := Except.ok.inj h
          have hs := launch_ok bld hs
          rw [hJ.no_rows, hcols, hJ.info_type, Bool.false_or, if_pos rfl, if_neg Bool.false_ne_true] at hs
          refine ⟨hprep.withMemory _ _ _, fun k => ?_⟩
          rw [hs]
          split
          · next hlaunch =>
              rw [← summaryFold_pass hJ ht hprep false k _ hlaunch]
              exact value_doTile_columns _ k
          · next hlaunch => exact (hnocells (by simpa using hlaunch) k _).symm
      · cases h
  | true =>
      dsimp only at h
      rw [if_pos rfl] at h
      split at h
      · next s hs =>
          obtain rfl := Except.ok.inj h
          have hs := launch_ok bld hs
          rw [hJ.no_rows, hcols, hJ.info_type, Bool.true_or, if_pos rfl, if_pos rfl] at hs
          refine ⟨hprep.withMemory _ _ _, fun k => ?_⟩
          rw [hs]
          split
          · next hlaunch =>
              rw [← summaryFold_pass hJ ht hprep true k _ hlaunch]
              refine value_doTile_rows rowwiseCells_summary _ (fun z hz => ?_) k
              exact ⟨_, kernelCorr_pass hJ ht hprep true hz⟩
          · next hlaunch => exact (hnocells (by simpa using hlaunch) k _).symm
      · cases h

/-- **Executing a tile** offers the summary the cells of the tile. -/
theorem summary_execute (hprep : Prepared (J.operation bld) t tile)
    (h : tile.execute bld J.info (tileType J.info t) = .ok tile') :
    Prepared (J.operation bld) t tile' ∧
      ∀ k, (tile'.profileATileDev k).value =
        summaryFold J (tileCells bld.unrollWid J.info t) k (tile.profileATileDev k).value := by
  rw [execute_eq ht hprep] at h
  unfold tileCells
  generalize tilePasses J.info t = passes at h ⊢
  induction passes generalizing tile with
  | nil =>
      obtain rfl : tile = tile' := Except.ok.inj h
      exact ⟨hprep, fun k => rfl⟩
  | cons transpose passes ih =>
      rw [List.foldlM_cons] at h
      cases hpass : tile.runPass bld J.info transpose (!J.info.selfJoin) with
      | error e =>
          rw [hpass] at h
          cases h
      | ok next =>
          rw [hpass] at h
          obtain ⟨hnext, hvalues⟩ := summary_runPass hJ ht hprep hpass
          obtain ⟨hlast, hrest⟩ := ih hnext h
          refine ⟨hlast, fun k => ?_⟩
          rw [hrest k, hvalues k, List.flatMap_cons, summaryFold_append]

end

end Scamp
