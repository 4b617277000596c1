import Scamp.Core.Correctness.Cells

/-!
# `Core.Correctness.AlignedCells` — the cells of an aligned AB-join

An AB-join whose inputs are aligned leaves out the trivial matches, the cells of the band
`|r - c| < ceil(m / 4)`. A tile only sees where it starts and how large it is. Next to the diagonal it
compares its far corner with the start of the next tile *on the grid*: when the last column (or row) of
tiles is narrower than the others, the tile below (or right of) its diagonal tile ends before that start,
takes no exclusion zone, and compares all its cells (`mem_aligned_tileCells`). So the band is left out
exactly when no such tile reaches into it (`aligned_compares_outsideBand_iff`).
-/

namespace Scamp

theorem getExclusion_eq (m : ℕ) (x y : ℤ) :
    getExclusion m x y = if x ≤ y ∧ y < x + exclusionZone m then exclusionZone m else 0 := by
  unfold getExclusion exclusionZone
  rfl

section
variable {K : Type} [Field K] [LinearOrder K] {J : Join K} {t : TilePos}

/-! ## Exclusion zones of an aligned tile -/

/-- The first row of a tile in the join the operation is a part of. -/
def globalStartRow (info : OpInfo K) (t : TilePos) : ℤ :=
  if 0 ≤ info.globalStartColPosition ∧ 0 ≤ info.globalStartRowPosition then
    (t.1 * info.maxTileHeight : ℕ) + info.globalStartRowPosition
  else (t.1 * info.maxTileHeight : ℕ)

/-- The first column of a tile in the join the operation is a part of. -/
def globalStartCol (info : OpInfo K) (t : TilePos) : ℤ :=
  if 0 ≤ info.globalStartColPosition ∧ 0 ≤ info.globalStartRowPosition then
    (t.2 * info.maxTileWidth : ℕ) + info.globalStartColPosition
  else (t.2 * info.maxTileWidth : ℕ)

section
variable (hab : J.args.hasB = true) (haligned : J.args.isAligned = true) (ht : t ∈ getTiles J.info)
include hab haligned ht

theorem aligned_upper_dims :
    (kernelDims J.info (tileDims J.info t) false (!J.info.selfJoin)).exclusionLower =
        max (getExclusion J.info.mpWindow (globalStartRow J.info t) (globalStartCol J.info t))
          (extraExclusion J.info.profileType) ∧
      (kernelDims J.info (tileDims J.info t) false (!J.info.selfJoin)).exclusionUpper =
        if globalStartRow J.info t > globalStartCol J.info t then
          getExclusion J.info.mpWindow (globalStartRow J.info t)
            (globalStartCol J.info t + tileNumCols J.info t)
        else 0 := by
  have haligned' : J.info.isAligned = true := haligned
  simp only [kernelDims, J.selfJoin_of_ab hab, Bool.not_false, if_true, getExclusionForABJoin,
    haligned', Bool.not_true, Bool.false_eq_true, if_false, tileDims_numCols ht, Bool.true_and]
  exact ⟨rfl, rfl⟩

theorem aligned_lower_dims :
    (kernelDims J.info (tileDims J.info t) true (!J.info.selfJoin)).exclusionLower =
        getExclusion J.info.mpWindow (globalStartCol J.info t) (globalStartRow J.info t) ∧
      (kernelDims J.info (tileDims J.info t) true (!J.info.selfJoin)).exclusionUpper =
        if globalStartRow J.info t ≤ globalStartCol J.info t then
          getExclusion J.info.mpWindow (globalStartCol J.info t)
            (globalStartRow J.info t + tileNumRows J.info t)
        else 0 := by
  have haligned' : J.info.isAligned = true := haligned
  simp only [kernelDims, J.selfJoin_of_ab hab, Bool.not_false, Bool.not_true, Bool.false_eq_true,
    if_false, if_true, getExclusionForABJoin, haligned', tileDims_numRows ht, Bool.false_and,
    Nat.max_zero]
  exact ⟨rfl, rfl⟩

end

/-! ## Aligned joins without distributed offsets -/

/-- An AB-join with aligned inputs that is not part of a distributed one. -/
structure AlignedLocally (J : Join K) : Prop where
  ab : J.args.hasB = true
  aligned : J.args.isAligned = true
  no_start_row : J.args.distributedStartRow < 0
  no_start_col : J.args.distributedStartCol < 0

/-- The tile is next to a diagonal tile of the last column or row, and no wider, or no higher, than that
    narrow tile. -/
def BesideNarrowTile (info : OpInfo K) (t : TilePos) : Prop :=
  (t.1 = t.2 + 1 ∧ tileNumCols info t < info.maxTileWidth) ∨
    (t.2 = t.1 + 1 ∧ tileNumRows info t < info.maxTileWidth)

section
variable (h : AlignedLocally J) (ht : t ∈ getTiles J.info)
include h

theorem AlignedLocally.startRow : globalStartRow J.info t = (t.1 * J.info.maxTileWidth : ℕ) := by
  have := h.no_start_row
  unfold globalStartRow
  exact if_neg fun hpos => absurd hpos.2 (Int.not_le.mpr h.no_start_row)

theorem AlignedLocally.startCol : globalStartCol J.info t = (t.2 * J.info.maxTileWidth : ℕ) := by
  unfold globalStartCol
  exact if_neg fun hpos => absurd hpos.1 (Int.not_le.mpr h.no_start_col)

include ht

/-- **The cells of an aligned tile**: those outside the band, and beside a narrow tile all of them. -/
theorem mem_aligned_tileCells {U r c : ℕ} (hU : 0 < U) :
    (r, c) ∈ tileCells U J.info t ↔ InTile J.info t r c ∧
      (OutsideBand (exclusionZone J.info.mpWindow) r c ∨ BesideNarrowTile J.info t) := by
  have hzone := exclusionZone_lt_window J
  have hwide := J.window_lt_tileWidth
  have hextra : extraExclusion J.info.profileType ≤ 1 := by
    unfold extraExclusion
    split <;> omega
  have hthree := J.three_le_window
  have hpos : 0 < exclusionZone J.info.mpWindow := by
    unfold exclusionZone
    omega
  obtain ⟨hrow, hcol, _⟩ := (mem_getTiles J).mp ht
  unfold tileCells
  rw [tilePasses_abJoin h.ab, List.flatMap_cons, List.flatMap_singleton, List.mem_append,
    mem_upperCells ht hU, mem_lowerCells ht hU, (aligned_upper_dims h.ab h.aligned ht).1,
    (aligned_upper_dims h.ab h.aligned ht).2, (aligned_lower_dims h.ab h.aligned ht).1,
    (aligned_lower_dims h.ab h.aligned ht).2, h.startRow, h.startCol]
  simp only [InTile, OnPass, OutsideBand, BesideNarrowTile]
  have hw : tileNumCols J.info t = min J.info.maxTileWidth (J.info.numCols - t.2 * J.info.maxTileWidth) :=
    rfl
  have hh : tileNumRows J.info t = min J.info.maxTileWidth (J.info.numRows - t.1 * J.info.maxTileWidth) :=
    rfl
  generalize tileNumCols J.info t = w at *
  generalize tileNumRows J.info t = h at *
  generalize extraExclusion J.info.profileType = extra at *
  generalize J.info.mpWindow = m at *
  generalize J.info.maxTileWidth = W at *
  rcases Nat.lt_trichotomy t.1 t.2 with hlt | heq | hgt
  · -- right of the diagonal: the lower pass ends at the band
    have hgap := tile_gap (W := W) hlt
    have hfar : getExclusion m (t.1 * W : ℕ) (t.2 * W : ℕ) = 0 := getExclusion_of_far (by omega)
    have hback : getExclusion m (t.2 * W : ℕ) (t.1 * W : ℕ) = 0 := getExclusion_of_lt (by omega)
    rw [hfar, hback, if_neg (by omega), if_pos (by omega)]
    by_cases hnext : t.2 = t.1 + 1
    · have hstart : t.2 * W = t.1 * W + W := by rw [hnext, Nat.add_mul, Nat.one_mul]
      rcases Nat.lt_or_ge h W with hnarrow | hfull
      · rw [getExclusion_of_lt (by omega)]
        omega
      · rw [show ((t.1 * W : ℕ) : ℤ) + h = (t.2 * W : ℕ) by omega, getExclusion_self m _ (by omega)]
        omega
    · have hgap2 := tile_gap (W := W) (show t.1 + 1 < t.2 by omega)
      rw [Nat.add_mul, Nat.one_mul] at hgap2
      rw [getExclusion_of_lt (by omega)]
      omega
  · -- on the diagonal: both passes start at the band
    have hstart : t.1 * W = t.2 * W := by rw [heq]
    rw [hstart, getExclusion_self m _ (by omega), if_neg (by omega), if_pos (by omega), getExclusion_eq]
    split <;> omega
  · -- below the diagonal: the upper pass ends at the band
    have hgap := tile_gap (W := W) hgt
    have hfar : getExclusion m (t.2 * W : ℕ) (t.1 * W : ℕ) = 0 := getExclusion_of_far (by omega)
    have hback : getExclusion m (t.1 * W : ℕ) (t.2 * W : ℕ) = 0 := getExclusion_of_lt (by omega)
    rw [hfar, hback, if_pos (by omega), if_neg (by omega)]
    by_cases hnext : t.1 = t.2 + 1
    · have hstart : t.1 * W = t.2 * W + W := by rw [hnext, Nat.add_mul, Nat.one_mul]
      rcases Nat.lt_or_ge w W with hnarrow | hfull
      · rw [getExclusion_of_lt (by omega)]
        omega
      · rw [show ((t.2 * W : ℕ) : ℤ) + w = (t.1 * W : ℕ) by omega, getExclusion_self m _ (by omega)]
        omega
    · have hgap2 := tile_gap (W := W) (show t.2 + 1 < t.1 by omega)
      rw [Nat.add_mul, Nat.one_mul] at hgap2
      rw [getExclusion_of_lt (by omega)]
      omega

end

/-! ## The whole operation -/

/-- The last column of tiles is narrower than the others by less than the band, and there is a tile below
    its diagonal tile; or the same for the last row of tiles. -/
def NarrowEdgeInBand (info : OpInfo K) : Prop :=
  (info.numTileCols * info.maxTileWidth < info.numRows ∧
    info.numCols < info.numTileCols * info.maxTileWidth ∧
    info.numTileCols * info.maxTileWidth + 2 ≤ info.numCols + exclusionZone info.mpWindow) ∨
  (info.numTileRows * info.maxTileWidth < info.numCols ∧
    info.numRows < info.numTileRows * info.maxTileWidth ∧
    info.numTileRows * info.maxTileWidth + 2 ≤ info.numRows + exclusionZone info.mpWindow)

theorem lt_numTileCols (J : Join K) {i : ℕ} :
    i < J.info.numTileCols ↔ i * J.info.maxTileWidth < J.info.numCols :=
  lt_ceilDiv_iff (tileWidth_pos J)

theorem lt_numTileRows (J : Join K) {i : ℕ} :
    i < J.info.numTileRows ↔ i * J.info.maxTileWidth < J.info.numRows :=
  lt_ceilDiv_iff (tileWidth_pos J)

/-- **The cells of an aligned join**: those outside the band and those beside a narrow tile. -/
theorem mem_comparedCells_aligned (h : AlignedLocally J) {U r c : ℕ} (hU : 0 < U) :
    (r, c) ∈ comparedCells U J.info ↔ r < J.info.numRows ∧ c < J.info.numCols ∧
      (OutsideBand (exclusionZone J.info.mpWindow) r c ∨
        BesideNarrowTile J.info (r / J.info.maxTileWidth, c / J.info.maxTileWidth)) := by
  refine mem_comparedCells
    (P := fun r c => OutsideBand (exclusionZone J.info.mpWindow) r c ∨
      BesideNarrowTile J.info (r / J.info.maxTileWidth, c / J.info.maxTileWidth)) ?_ ?_
  · intro t ht
    rw [mem_aligned_tileCells h ht hU]
    refine and_congr_right fun hin => ?_
    rw [← ((inTile_iff J).mp hin).1]
  · intro hr hc _
    exact cellTile_mem_grid hr hc fun hself => by simp [h.ab] at hself

/-- A tile beside a narrow one holds a cell of the band only if a narrow edge reaches into it. -/
theorem narrowEdge_of_beside (J : Join K) {r c : ℕ} (hr : r < J.info.numRows) (hc : c < J.info.numCols)
    (hband : ¬OutsideBand (exclusionZone J.info.mpWindow) r c)
    (hbeside : BesideNarrowTile J.info (r / J.info.maxTileWidth, c / J.info.maxTileWidth)) :
    NarrowEdgeInBand J.info := by
  have hW := tileWidth_pos J
  obtain ⟨hr1, hr2⟩ := (le_mul_iff_block hW (x := r)).mpr rfl
  obtain ⟨hc1, hc2⟩ := (le_mul_iff_block hW (x := c)).mpr rfl
  unfold OutsideBand at hband
  unfold BesideNarrowTile tileNumCols tileNumRows at hbeside
  dsimp only at hbeside
  rcases hbeside with ⟨hnext, hnarrow⟩ | ⟨hnext, hnarrow⟩
  · have hin := (lt_numTileCols J (i := c / J.info.maxTileWidth)).mpr (by omega)
    have hout : ¬ r / J.info.maxTileWidth < J.info.numTileCols := by
      rw [lt_numTileCols, hnext, Nat.add_mul, Nat.one_mul]
      omega
    have hlast : J.info.numTileCols = r / J.info.maxTileWidth := by omega
    have hstart : r / J.info.maxTileWidth * J.info.maxTileWidth =
        c / J.info.maxTileWidth * J.info.maxTileWidth + J.info.maxTileWidth := by
      rw [hnext, Nat.add_mul, Nat.one_mul]
    unfold NarrowEdgeInBand
    rw [hlast]
    omega
  · have hin := (lt_numTileRows J (i := r / J.info.maxTileWidth)).mpr (by omega)
    have hout : ¬ c / J.info.maxTileWidth < J.info.numTileRows := by
      rw [lt_numTileRows, hnext, Nat.add_mul, Nat.one_mul]
      omega
    have hlast : J.info.numTileRows = c / J.info.maxTileWidth := by omega
    have hstart : c / J.info.maxTileWidth * J.info.maxTileWidth =
        r / J.info.maxTileWidth * J.info.maxTileWidth + J.info.maxTileWidth := by
      rw [hnext, Nat.add_mul, Nat.one_mul]
    unfold NarrowEdgeInBand
    rw [hlast]
    omega

/-- A narrow edge in the band makes the operation compare a cell of the band: the first cell below, or
    right of, the narrow diagonal tile. -/
theorem exists_compared_in_band (h : AlignedLocally J) {U : ℕ} (hU : 0 < U)
    (hnarrow : NarrowEdgeInBand J.info) :
    ∃ r c, (r, c) ∈ comparedCells U J.info ∧ ¬OutsideBand (exclusionZone J.info.mpWindow) r c := by
  have hW := tileWidth_pos J
  have hcols : 0 < J.info.numCols := Nat.succ_pos _
  have hrows : 0 < J.info.numRows := Nat.succ_pos _
  have hlastTile : ∀ {n C : ℕ}, (∀ i, i < C ↔ i * J.info.maxTileWidth < n) → 0 < n →
      n < C * J.info.maxTileWidth → 0 < C ∧ (n - 1) / J.info.maxTileWidth = C - 1 ∧
        (C - 1) * J.info.maxTileWidth + J.info.maxTileWidth = C * J.info.maxTileWidth := by
    intro n C hlt hn hnarrow
    have hC : 0 < C := (hlt 0).mpr (by omega)
    have hmul : (C - 1) * J.info.maxTileWidth + J.info.maxTileWidth = C * J.info.maxTileWidth := by
      rw [← Nat.succ_mul, Nat.succ_eq_add_one, Nat.sub_add_cancel hC]
    have hstart := (hlt (C - 1)).mp (by omega)
    exact ⟨hC, ((le_mul_iff_block hW).mp ⟨by omega, by omega⟩).symm, hmul⟩
  unfold OutsideBand
  rcases hnarrow with ⟨h1, h2, h3⟩ | ⟨h1, h2, h3⟩
  · obtain ⟨hC, hdiv, hmul⟩ := hlastTile (fun i => lt_numTileCols J) hcols h2
    refine ⟨J.info.numTileCols * J.info.maxTileWidth, J.info.numCols - 1, ?_, by omega⟩
    refine (mem_comparedCells_aligned h hU).mpr ⟨h1, by omega, Or.inr (Or.inl ⟨?_, ?_⟩)⟩
    · show _ / _ = _ / _ + 1
      rw [Nat.mul_div_cancel _ hW, hdiv]
      omega
    · unfold tileNumCols
      dsimp only
      rw [hdiv]
      omega
  · obtain ⟨hR, hdiv, hmul⟩ := hlastTile (fun i => lt_numTileRows J) hrows h2
    refine ⟨J.info.numRows - 1, J.info.numTileRows * J.info.maxTileWidth, ?_, by omega⟩
    refine (mem_comparedCells_aligned h hU).mpr ⟨by omega, h1, Or.inr (Or.inr ⟨?_, ?_⟩)⟩
    · show _ / _ = _ / _ + 1
      rw [Nat.mul_div_cancel _ hW, hdiv]
      omega
    · unfold tileNumRows
      dsimp only
      rw [hdiv]
      omega

/-- **When an aligned join leaves out exactly the band.** An aligned AB-join without distributed offsets
    compares exactly the cells outside the band of trivial matches if and only if no narrow edge of its
    grid of tiles reaches into the band. -/
theorem aligned_compares_outsideBand_iff (J : Join K) (h : AlignedLocally J) (U : ℕ) (hU : 0 < U) :
    (∀ r c, (r, c) ∈ comparedCells U J.info ↔ r < J.info.numRows ∧ c < J.info.numCols ∧
        OutsideBand (exclusionZone J.info.mpWindow) r c) ↔
      ¬NarrowEdgeInBand J.info := by
  constructor
  · intro hall hnarrow
    obtain ⟨r, c, hmem, hband⟩ := exists_compared_in_band h hU hnarrow
    exact hband ((hall r c).mp hmem).2.2
  · intro hwide r c
    rw [mem_comparedCells_aligned h hU]
    refine and_congr_right fun hr => and_congr_right fun hc => ⟨?_, Or.inl⟩
    rintro (hout | hbeside)
    · exact hout
    · by_contra hband
      exact hwide (narrowEdge_of_beside J hr hc hband hbeside)

end

/-! ## A narrow edge -/

/-- An aligned join of a series of `17` samples with one of `19`, window `9`, on two workers: the tiles have
    `10` rows and columns, the distance matrix `11` rows and `9` columns. -/
def narrowEdgeJoin : Join ℚ where
  args := { abJoinArgs .oneNNIndex (.replicate 17 (.finite 0)) (.replicate 19 (.finite 0)) 9 with
    isAligned := true }
  numThreads := 2
  threads_pos := Nat.two_pos
  valid := rfl
  columns := rfl
  rows_self := fun h => absurd h (by decide)
  rows_ab := fun _ => rfl
  type_a := rfl
  type_b := fun _ => rfl

/-- The tile below the diagonal tile compares row `10` with column `8`, two apart, although the band has
    width `3`. -/
theorem narrowEdgeJoin_compares_in_band :
    AlignedLocally narrowEdgeJoin ∧
      ¬∀ r c, (r, c) ∈ comparedCells 256 narrowEdgeJoin.info ↔
        r < narrowEdgeJoin.info.numRows ∧ c < narrowEdgeJoin.info.numCols ∧
          OutsideBand (exclusionZone narrowEdgeJoin.info.mpWindow) r c := by
  refine ⟨⟨rfl, rfl, by decide, by decide⟩, fun hall => ?_⟩
  have hmem : (10, 8) ∈ comparedCells 256 narrowEdgeJoin.info := by decide +kernel
  have hout : 10 + 3 ≤ 8 ∨ 8 + 3 ≤ 10 := ((hall 10 8).mp hmem).2.2
  omega

/-- The equivalence on that join: its last column of tiles ends one column short of the tile below. -/
theorem aligned_compares_outsideBand_iff_narrowEdge :
    (∀ r c, (r, c) ∈ comparedCells 256 narrowEdgeJoin.info ↔
        r < narrowEdgeJoin.info.numRows ∧ c < narrowEdgeJoin.info.numCols ∧
          OutsideBand (exclusionZone narrowEdgeJoin.info.mpWindow) r c) ↔
      ¬NarrowEdgeInBand narrowEdgeJoin.info :=
  aligned_compares_outsideBand_iff narrowEdgeJoin ⟨rfl, rfl, by decide, by decide⟩ 256 (by decide)

end Scamp
