import Scamp.Core.Correctness.AlignedCells

/-!
# `Core.Correctness.OffsetCells` — an aligned AB-join above the diagonal of a larger matrix

An aligned AB-join that starts at row `row` and column `col` of a larger matrix, to the right of the
diagonal there, leaves out the band of trivial matches of that matrix only where its own tiles allow it: a
tile asks whether it starts in the band, and whether the band starts at its far corner. A band that cuts
through a tile in another way is missed, or more than the band is left out. `offset_compares_iff` says when
no tile goes wrong.
-/

namespace Scamp

/-- A tile of `h` rows and `w` columns at `(row, col)`, above the diagonal, leaves out exactly the band of
    width `e`: it starts outside the band or lies in it, and it ends at the diagonal or outside the band. -/
def TileKeepsBand (e row col h w : ℕ) : Prop :=
  (row + e ≤ col ∨ col + w ≤ row + e) ∧ (row + h = col ∨ row + h + e ≤ col + 1)

instance (e row col h w : ℕ) : Decidable (TileKeepsBand e row col h w) := by
  unfold TileKeepsBand
  infer_instance

/-- An aligned AB-join whose first cell is cell `(row, col)` of a larger matrix, above its diagonal. -/
structure OffsetAbove {K : Type} [Field K] [LinearOrder K] (J : Join K) (row col : ℕ) : Prop where
  ab : J.args.hasB = true
  aligned : J.args.isAligned = true
  startRow : J.args.distributedStartRow = row
  startCol : J.args.distributedStartCol = col
  above : row + J.info.numRows ≤ col
  -- only the types that add up give the main diagonal of a tile to one pass
  best : addsUp J.args.profileType = false

section
variable {K : Type} [Field K] [LinearOrder K] {J : Join K} {row col : ℕ} {t : TilePos}
  (h : OffsetAbove J row col) (ht : t ∈ getTiles J.info)
include h

theorem OffsetAbove.distributed : J.info.globalStartRowPosition = row ∧ J.info.globalStartColPosition = col ∧
    0 ≤ J.info.globalStartColPosition ∧ 0 ≤ J.info.globalStartRowPosition := by
  have hrow : J.info.globalStartRowPosition = row := h.startRow
  have hcol : J.info.globalStartColPosition = col := h.startCol
  refine ⟨hrow, hcol, ?_, ?_⟩
  · rw [hcol]
    exact Int.natCast_nonneg col
  · rw [hrow]
    exact Int.natCast_nonneg row

theorem OffsetAbove.globalStartRow_eq : globalStartRow J.info t = (row + t.1 * J.info.maxTileWidth : ℕ) := by
  obtain ⟨hrow, -, hcond⟩ := h.distributed
  unfold globalStartRow
  rw [if_pos hcond, hrow]
  push_cast
  exact add_comm _ _

theorem OffsetAbove.globalStartCol_eq : globalStartCol J.info t = (col + t.2 * J.info.maxTileWidth : ℕ) := by
  obtain ⟨-, hcol, hcond⟩ := h.distributed
  unfold globalStartCol
  rw [if_pos hcond, hcol]
  push_cast
  exact add_comm _ _

include ht

/-- The tile ends above the diagonal. -/
theorem OffsetAbove.tile_above :
    row + t.1 * J.info.maxTileWidth + tileNumRows J.info t ≤ col + t.2 * J.info.maxTileWidth := by
  have habove := h.above
  obtain ⟨hrow, -, -⟩ := (mem_getTiles J).mp ht
  unfold tileNumRows
  omega

/-- **The cells of a tile.** The upper pass starts a whole exclusion zone away from the tile's own diagonal
    when the tile starts in the band; the lower pass stops short of the far corner by an exclusion zone when
    that corner is on the diagonal. -/
theorem mem_offset_tileCells {U r c : ℕ} (hU : 0 < U) :
    (r, c) ∈ tileCells U J.info t ↔ InTile J.info t r c ∧
      (r + t.2 * J.info.maxTileWidth +
          (if col + t.2 * J.info.maxTileWidth < row + t.1 * J.info.maxTileWidth + exclusionZone J.info.mpWindow then
            exclusionZone J.info.mpWindow else 0) ≤ c + t.1 * J.info.maxTileWidth ∨
        c + t.1 * J.info.maxTileWidth ≤ r + t.2 * J.info.maxTileWidth ∧ r + t.2 * J.info.maxTileWidth +
          (if row + t.1 * J.info.maxTileWidth + tileNumRows J.info t = col + t.2 * J.info.maxTileWidth then
            exclusionZone J.info.mpWindow else 0) ≤
              c + t.1 * J.info.maxTileWidth + tileNumRows J.info t) := by
  have habove := h.tile_above ht
  have hextra : extraExclusion J.info.profileType = 0 := if_neg (show ¬addsUp J.args.profileType = true by simp [h.best])
  have hpos : 0 < exclusionZone J.info.mpWindow := by
    have hthree := J.three_le_window
    unfold exclusionZone
    omega
  obtain ⟨hrow, hcol, -⟩ := (mem_getTiles J).mp ht
  have hrows : 0 < tileNumRows J.info t := by
    have hW := tileWidth_pos J
    unfold tileNumRows
    omega
  -- the exclusions of the two passes, at the near corner and at the far one
  have hcorner : getExclusion J.info.mpWindow (col + t.2 * J.info.maxTileWidth : ℕ)
      ((row + t.1 * J.info.maxTileWidth : ℕ) + tileNumRows J.info t) =
      if row + t.1 * J.info.maxTileWidth + tileNumRows J.info t = col + t.2 * J.info.maxTileWidth then
        exclusionZone J.info.mpWindow else 0 := by
    rw [getExclusion_eq]
    exact if_congr (by omega) rfl rfl
  have hstart : getExclusion J.info.mpWindow (row + t.1 * J.info.maxTileWidth : ℕ)
      (col + t.2 * J.info.maxTileWidth : ℕ) =
      if col + t.2 * J.info.maxTileWidth < row + t.1 * J.info.maxTileWidth + exclusionZone J.info.mpWindow then
        exclusionZone J.info.mpWindow else 0 := by
    rw [getExclusion_eq]
    exact if_congr (by omega) rfl rfl
  -- on the other side of its corner a pass excludes nothing
  have hback : getExclusion J.info.mpWindow (col + t.2 * J.info.maxTileWidth : ℕ)
      (row + t.1 * J.info.maxTileWidth : ℕ) = 0 := getExclusion_of_lt (by omega)
  have hright : ((row + t.1 * J.info.maxTileWidth : ℕ) : ℤ) ≤ (col + t.2 * J.info.maxTileWidth : ℕ) := by omega
  have hnotBelow : ¬((row + t.1 * J.info.maxTileWidth : ℕ) : ℤ) > (col + t.2 * J.info.maxTileWidth : ℕ) := by omega
  unfold tileCells
  rw [tilePasses_abJoin h.ab, List.flatMap_cons, List.flatMap_singleton, List.mem_append,
    mem_upperCells ht hU, mem_lowerCells ht hU, (aligned_upper_dims h.ab h.aligned ht).1,
    (aligned_upper_dims h.ab h.aligned ht).2, (aligned_lower_dims h.ab h.aligned ht).1,
    (aligned_lower_dims h.ab h.aligned ht).2, h.globalStartRow_eq, h.globalStartCol_eq, hstart, hback, hcorner,
    hextra, Nat.max_zero, if_neg hnotBelow, if_pos hright]
  simp only [InTile, OnPass]
  split_ifs <;> omega

/-- **When a tile is right**: it compares exactly the cells outside the band if and only if it starts outside
    the band or lies in it, and ends at the diagonal or outside the band. -/
theorem offset_tile_iff {U : ℕ} (hU : 0 < U) :
    (∀ r c, InTile J.info t r c →
        ((r, c) ∈ tileCells U J.info t ↔ row + r + exclusionZone J.info.mpWindow ≤ col + c)) ↔
      TileKeepsBand (exclusionZone J.info.mpWindow) (row + t.1 * J.info.maxTileWidth)
        (col + t.2 * J.info.maxTileWidth) (tileNumRows J.info t) (tileNumCols J.info t) := by
  have habove := h.tile_above ht
  have hpos : 0 < exclusionZone J.info.mpWindow := by
    have hthree := J.three_le_window
    unfold exclusionZone
    omega
  have hW := tileWidth_pos J
  obtain ⟨hrow, hcol, -⟩ := (mem_getTiles J).mp ht
  have hrows : 0 < tileNumRows J.info t := by
    unfold tileNumRows
    omega
  have hcols : 0 < tileNumCols J.info t := by
    unfold tileNumCols
    omega
  simp only [mem_offset_tileCells h ht hU]
  unfold InTile TileKeepsBand
  constructor
  · intro hall
    refine ⟨?_, ?_⟩
    · by_contra hcut
      push Not at hcut
      -- the first cell of the first row that is outside the band is not compared
      have hcell := hall (t.1 * J.info.maxTileWidth)
        (row + t.1 * J.info.maxTileWidth + exclusionZone J.info.mpWindow - col) (by omega)
      rw [if_pos hcut.1] at hcell
      split_ifs at hcell <;> omega
    · by_contra hcut
      push Not at hcut
      -- the last cell of the first column is compared, and is in the band
      have hcell := hall (t.1 * J.info.maxTileWidth + tileNumRows J.info t - 1) (t.2 * J.info.maxTileWidth) (by omega)
      rw [if_neg hcut.1] at hcell
      split_ifs at hcell <;> omega
  · rintro ⟨hstart, hend⟩ r c hin
    split_ifs <;> omega

end

section
variable {K : Type} [Field K] [LinearOrder K] {J : Join K}

/-- The unroll width does not change what an operation compares. -/
theorem mem_comparedCells_congr {U U' : ℕ} (hU : 0 < U) (hU' : 0 < U') {z : ℕ × ℕ} :
    z ∈ comparedCells U J.info ↔ z ∈ comparedCells U' J.info := by
  obtain ⟨r, c⟩ := z
  unfold comparedCells tileCells
  simp only [List.mem_flatMap]
  refine exists_congr fun t => and_congr_right fun ht => exists_congr fun transpose => and_congr_right fun _ => ?_
  cases transpose with
  | false => rw [mem_upperCells ht hU, mem_upperCells ht hU']
  | true => rw [mem_lowerCells ht hU, mem_lowerCells ht hU']

/-- A cell is compared when its tile compares it. -/
theorem mem_comparedCells_iff_tile {U r c : ℕ} (hU : 0 < U) {t : TilePos} (ht : t ∈ getTiles J.info)
    (hin : InTile J.info t r c) : (r, c) ∈ comparedCells U J.info ↔ (r, c) ∈ tileCells U J.info t := by
  unfold comparedCells
  rw [List.mem_flatMap]
  constructor
  · rintro ⟨t', ht', hmem⟩
    obtain rfl := inTile_unique J (inTile_of_mem_tileCells hU ht' hmem) hin
    exact hmem
  · exact fun hmem => ⟨t, ht, hmem⟩

/-- **When an aligned join above the diagonal is right**: it compares exactly the cells outside the band of
    the larger matrix if and only if each of its tiles does. -/
theorem offset_compares_iff {row col : ℕ} (h : OffsetAbove J row col) {U : ℕ} (hU : 0 < U) :
    (∀ r < J.info.numRows, ∀ c < J.info.numCols,
        ((r, c) ∈ comparedCells U J.info ↔ row + r + exclusionZone J.info.mpWindow ≤ col + c)) ↔
      ∀ t ∈ getTiles J.info,
        TileKeepsBand (exclusionZone J.info.mpWindow) (row + t.1 * J.info.maxTileWidth)
          (col + t.2 * J.info.maxTileWidth) (tileNumRows J.info t) (tileNumCols J.info t) := by
  constructor
  · intro hall t ht
    refine (offset_tile_iff h ht hU).mp fun r c hin => ?_
    obtain ⟨-, hr, hc⟩ := (inTile_iff J).mp hin
    rw [← mem_comparedCells_iff_tile hU ht hin]
    exact hall r hr c hc
  · intro hall r hr c hc
    have ht := cellTile_mem_grid hr hc fun hself => by simp [h.ab] at hself
    have hin := (inTile_iff J).mpr ⟨rfl, hr, hc⟩
    rw [mem_comparedCells_iff_tile hU ht hin]
    exact (offset_tile_iff h ht hU).mpr (hall _ ht) r c hin

end

end Scamp
