import Scamp.Core.Kernel

/-!
# `Core.Correctness.Cells` — which cells an operation compares, and how often

From the loops up: the cells one kernel pass visits (`mem_doTileCells`, `nodup_doTileCells`), the tiles of
the work list (`mem_getTiles`, `nodup_getTiles`), the cells one pass over a tile compares in coordinates of
the distance matrix (`mem_upperCells`, `mem_lowerCells`), and the tile each cell lies in (`inTile_unique`,
`exists_inTile`). On top of them, the result for the operations that add up what they compare: every cell
is compared exactly once.
-/

namespace Scamp

/-! ## One kernel pass -/

section
variable {U : ℕ} {a : KernelDims}

/-- In a fast row all `U` diagonals of the block are inside the pass. -/
theorem diagmax_of_fast {tileDiag row : ℕ} (h : row < a.fullRowIters U tileDiag) :
    a.diagmax U tileDiag row - tileDiag = U := by
  unfold KernelDims.fullRowIters at h
  unfold KernelDims.diagmax
  split at h
  · exact absurd h (Nat.not_lt_zero _)
  · omega

theorem fullRowIters_le (hU : 0 < U) (tileDiag : ℕ) :
    a.fullRowIters U tileDiag ≤ a.rowIters tileDiag := by
  unfold KernelDims.fullRowIters KernelDims.rowIters
  split
  · exact Nat.zero_le _
  · omega

/-- The fast and the slow loop together walk every row of the block once, with as many diagonals as the
    slow path computes for it. -/
theorem blockRows_eq (hU : 0 < U) (tileDiag : ℕ) :
    blockRows U a tileDiag = (List.range (a.rowIters tileDiag)).map fun row =>
      (row, a.diagmax U tileDiag row - tileDiag) := by
  have hle := fullRowIters_le (a := a) hU tileDiag
  have hfast : (List.range (a.fullRowIters U tileDiag)).map (fun row => (row, U)) =
      (List.range (a.fullRowIters U tileDiag)).map fun row =>
        (row, a.diagmax U tileDiag row - tileDiag) :=
    List.map_congr_left fun row hrow => by rw [diagmax_of_fast (List.mem_range.mp hrow)]
  rw [Lib.range_split hle, List.map_append, ← hfast]
  rfl

theorem mem_rowCells {tileDiag row len r c : ℕ} :
    (r, c) ∈ rowCells tileDiag row len ↔ r = row ∧ tileDiag + row ≤ c ∧ c < tileDiag + row + len := by
  simp only [rowCells, List.mem_map, List.mem_range, Prod.mk.injEq]
  constructor
  · rintro ⟨d, hd, rfl, rfl⟩
    omega
  · rintro ⟨rfl, h1, h2⟩
    exact ⟨c - (tileDiag + r), by omega, rfl, by omega⟩

/-- The cells of one block of diagonals. -/
theorem mem_blockCells (hU : 0 < U) {tileDiag r c : ℕ} :
    (r, c) ∈ (blockRows U a tileDiag).flatMap (fun p => rowCells tileDiag p.1 p.2) ↔
      r < a.nY ∧ c < a.nX ∧ tileDiag + r ≤ c ∧ c < tileDiag + r + U ∧ c < r + a.numDiags := by
  simp only [blockRows_eq hU, List.mem_flatMap, List.mem_map, List.mem_range]
  constructor
  · rintro ⟨_, ⟨row, hrow, rfl⟩, hcell⟩
    obtain ⟨rfl, h1, h2⟩ := mem_rowCells.mp hcell
    unfold KernelDims.rowIters at hrow
    unfold KernelDims.diagmax at h2
    omega
  · rintro ⟨hr, hc, h1, h2, h3⟩
    refine ⟨_, ⟨r, ?_, rfl⟩, mem_rowCells.mpr ⟨rfl, h1, ?_⟩⟩
    · unfold KernelDims.rowIters
      omega
    · show c < tileDiag + r + (a.diagmax U tileDiag r - tileDiag)
      unfold KernelDims.diagmax
      omega

/-- **The cells of a pass.** `do_tile` visits the cells of the diagonals `exclusion_lower ≤ c - r <
    num_diags`. -/
theorem mem_doTileCells (hU : 0 < U) {r c : ℕ} :
    (r, c) ∈ doTileCells U a ↔
      r < a.nY ∧ c < a.nX ∧ r + a.exclusionLower ≤ c ∧ c < r + a.numDiags := by
  unfold doTileCells
  rw [List.mem_flatMap]
  constructor
  · rintro ⟨tileDiag, htd, hcell⟩
    obtain ⟨hr, hc, h1, _, h3⟩ := (mem_blockCells hU).mp hcell
    have := Lib.le_of_mem_forRange hU htd
    omega
  · rintro ⟨hr, hc, h1, h2⟩
    obtain ⟨b, hb, hle, hlt⟩ := Lib.exists_block (d := c - r) hU
      (show a.exclusionLower ≤ c - r by omega) (show c - r < a.numDiags by omega)
    exact ⟨b, hb, (mem_blockCells hU).mpr ⟨hr, hc, by omega, by omega, h2⟩⟩

/-- The cells of a launch, which leaves nothing out when the exclusions swallow the pass. -/
theorem mem_launchCells (hU : 0 < U) {r c : ℕ} :
    (r, c) ∈ launchCells U a ↔ a.exclusionLower + a.exclusionUpper < a.nX ∧ r < a.nY ∧ c < a.nX ∧
      r + a.exclusionLower ≤ c ∧ c + a.exclusionUpper ≤ r + a.nX := by
  unfold launchCells KernelDims.launches
  simp only [decide_eq_true_eq]
  split
  · rw [mem_doTileCells hU]
    unfold KernelDims.numDiags
    omega
  · constructor
    · intro h
      exact absurd h List.not_mem_nil
    · intro h
      omega

/-- A pass visits no cell twice. -/
theorem nodup_doTileCells (hU : 0 < U) (a : KernelDims) : (doTileCells U a).Nodup := by
  refine Lib.nodup_flatMap_of_inj (Lib.nodup_forRange hU) ?_ ?_
  · -- within a block: the row is the first component
    intro tileDiag _
    rw [blockRows_eq hU, List.flatMap_map]
    refine Lib.nodup_flatMap_of_inj List.nodup_range ?_ ?_
    · intro row _
      refine (List.nodup_range).map fun d d' hd => ?_
      have := (Prod.mk.injEq .. ▸ hd).2
      omega
    · rintro row _ row' _ ⟨r, c⟩ h h'
      exact (mem_rowCells.mp h).1.symm.trans (mem_rowCells.mp h').1
  · -- across blocks: the diagonal `c - r` tells the block
    rintro b hb b' hb' ⟨r, c⟩ h h'
    obtain ⟨_, _, h1, h2, _⟩ := (mem_blockCells hU).mp h
    obtain ⟨_, _, h1', h2', _⟩ := (mem_blockCells hU).mp h'
    exact Lib.block_unique (d := c - r) hU hb hb' (by omega) (by omega) (by omega) (by omega)

end

/-! ## The work list -/

theorem mem_selfJoinTiles {n i j : ℕ} : (i, j) ∈ selfJoinTiles n n ↔ i ≤ j ∧ j < n := by
  simp only [selfJoinTiles, List.mem_append, List.mem_flatMap, List.mem_map, List.mem_range,
    Prod.mk.injEq]
  constructor
  · rintro (⟨o, ho, d, hd, rfl, rfl⟩ | ⟨k, hk, rfl, rfl⟩) <;> omega
  · rintro ⟨h1, h2⟩
    by_cases hlast : j = n - 1
    · exact Or.inr ⟨i, by omega, rfl, hlast.symm⟩
    · exact Or.inl ⟨j - i, by omega, i, by omega, rfl, by omega⟩

theorem nodup_selfJoinTiles (n : ℕ) : (selfJoinTiles n n).Nodup := by
  refine List.nodup_append.mpr ⟨?_, ?_, ?_⟩
  · refine Lib.nodup_flatMap_of_inj List.nodup_range ?_ ?_
    · intro o _
      exact (List.nodup_range).map fun d d' hd => (Prod.mk.injEq .. ▸ hd).1
    · intro o _ o' _ z hz hz'
      simp only [List.mem_map] at hz hz'
      obtain ⟨d, _, rfl⟩ := hz
      obtain ⟨d', _, hd'⟩ := hz'
      simp only [Prod.mk.injEq] at hd'
      omega
  · exact (List.nodup_range).map fun d d' hd => (Prod.mk.injEq .. ▸ hd).1
  · intro z hz z' hz' heq
    simp only [List.mem_flatMap, List.mem_map, List.mem_range] at hz hz'
    obtain ⟨o, ho, d, hd, rfl⟩ := hz
    obtain ⟨k, hk, rfl⟩ := hz'
    simp only [Prod.mk.injEq] at heq
    omega

theorem mem_abJoinTiles {R C i j : ℕ} (hR : 0 < R) (hC : 0 < C) :
    (i, j) ∈ abJoinTiles R C ↔ i < R ∧ j < C := by
  simp only [abJoinTiles, List.mem_append, List.mem_flatMap, List.mem_map, List.mem_range,
    List.mem_range'_1, List.mem_cons, List.not_mem_nil, or_false, Prod.mk.injEq]
  constructor
  · rintro (((((⟨d, hd, o, ho, rfl, rfl⟩ | ⟨d, hd, o, ho, rfl, rfl⟩) | ⟨rfl, rfl⟩) |
      ⟨x, hx, ⟨rfl, rfl⟩ | ⟨rfl, rfl⟩⟩) | ⟨x, hx, rfl, rfl⟩) | ⟨y, hy, rfl, rfl⟩) <;> omega
  · rintro ⟨hi, hj⟩
    -- the loop that pushes the tile: by whether it is in the last row or column, and its diagonal
    by_cases hlastRow : i = R - 1
    · by_cases hlastCol : j = C - 1
      · exact Or.inl (Or.inl (Or.inl (Or.inr ⟨hlastRow, hlastCol⟩)))
      · by_cases hx : j < R - 1
        · exact Or.inl (Or.inl (Or.inr ⟨j, by omega, Or.inr ⟨hlastRow, rfl⟩⟩))
        · exact Or.inl (Or.inr ⟨j, by omega, hlastRow.symm, rfl⟩)
    · by_cases hlastCol : j = C - 1
      · by_cases hy : i < C - 1
        · exact Or.inl (Or.inl (Or.inr ⟨i, by omega, Or.inl ⟨rfl, hlastCol⟩⟩))
        · exact Or.inr ⟨i, by omega, rfl, hlastCol.symm⟩
      · refine Or.inl (Or.inl (Or.inl (Or.inl ?_)))
        by_cases hupper : i ≤ j
        · exact Or.inl ⟨j - i, by omega, i, by omega, rfl, by omega⟩
        · exact Or.inr ⟨i - j, by omega, j, by omega, by omega, rfl⟩

theorem nodup_abJoinTiles {R C : ℕ} (hR : 0 < R) (hC : 0 < C) : (abJoinTiles R C).Nodup := by
  -- within the diagonals of one triangle
  have hdiag : ∀ (f : ℕ → ℕ → TilePos) (n : ℕ → ℕ) (l : List ℕ), l.Nodup →
      (∀ d o d' o', f d o = f d' o' → d = d' ∧ o = o') →
      (l.flatMap fun d => (List.range (n d)).map (f d)).Nodup := by
    intro f n l hl hf
    refine Lib.nodup_flatMap_of_inj hl ?_ ?_
    · intro d _
      exact (List.nodup_range).map fun o o' ho => (hf d o d o' ho).2
    · intro d _ d' _ z hz hz'
      obtain ⟨o, _, rfl⟩ := List.mem_map.mp hz
      obtain ⟨o', _, ho'⟩ := List.mem_map.mp hz'
      exact (hf _ _ _ _ ho').1.symm
  unfold abJoinTiles
  simp only [List.nodup_append]
  refine ⟨⟨⟨⟨⟨?_, ?_, ?_⟩, List.nodup_singleton _, ?_⟩, ?_, ?_⟩, ?_, ?_⟩, ?_, ?_⟩
  · -- the upper triangle, the lower one, and that they share no tile
    exact hdiag (fun d o => (o, d + o)) _ _ List.nodup_range fun d o d' o' h => by
      simp only [Prod.mk.injEq] at h
      omega
  · exact hdiag (fun d o => (o + d, o)) _ _ List.nodup_range' fun d o d' o' h => by
      simp only [Prod.mk.injEq] at h
      omega
  · intro z hz z' hz' heq
    simp only [List.mem_flatMap, List.mem_map, List.mem_range, List.mem_range'_1] at hz hz'
    obtain ⟨d, hd, o, ho, rfl⟩ := hz
    obtain ⟨d', hd', o', ho', rfl⟩ := hz'
    simp only [Prod.mk.injEq] at heq
    omega
  · -- the corner
    intro z hz z' hz' heq
    simp only [List.mem_append, List.mem_flatMap, List.mem_map, List.mem_range, List.mem_range'_1,
      List.mem_singleton] at hz hz'
    subst hz' heq
    simp only [Prod.mk.injEq] at hz
    rcases hz with ⟨d, hd, o, ho, h1, h2⟩ | ⟨d, hd, o, ho, h1, h2⟩ <;> omega
  · -- the last column and the last row, side by side
    refine Lib.nodup_flatMap_of_inj List.nodup_range ?_ ?_
    · intro x hx
      have := List.mem_range.mp hx
      simp only [List.nodup_cons, List.mem_singleton, Prod.mk.injEq, List.not_mem_nil, not_false_eq_true,
        List.nodup_nil, and_true]
      omega
    · intro x hx y hy z hz hz'
      have := List.mem_range.mp hx
      have := List.mem_range.mp hy
      simp only [List.mem_cons, List.not_mem_nil, or_false] at hz hz'
      rcases hz with rfl | rfl <;> simp only [Prod.mk.injEq] at hz' <;> omega
  · intro z hz z' hz' heq
    simp only [List.mem_append, List.mem_flatMap, List.mem_map, List.mem_range, List.mem_range'_1,
      List.mem_cons, List.not_mem_nil, or_false] at hz hz'
    subst heq
    obtain ⟨x, hx, rfl | rfl⟩ := hz' <;> simp only [Prod.mk.injEq] at hz <;>
      rcases hz with (⟨d, hd, o, ho, h1, h2⟩ | ⟨d, hd, o, ho, h1, h2⟩) | ⟨h1, h2⟩ <;> omega
  · -- the rest of the last row, when it is the longer one
    exact (List.nodup_range').map fun x x' h => (Prod.mk.injEq .. ▸ h).2
  · intro z hz z' hz' heq
    simp only [List.mem_append, List.mem_flatMap, List.mem_map, List.mem_range, List.mem_range'_1,
      List.mem_cons, List.not_mem_nil, or_false] at hz hz'
    subst heq
    obtain ⟨x, hx, rfl⟩ := hz'
    simp only [Prod.mk.injEq] at hz
    rcases hz with ((⟨d, hd, o, ho, h1, h2⟩ | ⟨d, hd, o, ho, h1, h2⟩) | ⟨h1, h2⟩) |
      ⟨y, hy, ⟨h1, h2⟩ | ⟨h1, h2⟩⟩ <;> omega
  · -- the rest of the last column, when that is
    exact (List.nodup_range').map fun x x' h => (Prod.mk.injEq .. ▸ h).1
  · intro z hz z' hz' heq
    simp only [List.mem_append, List.mem_flatMap, List.mem_map, List.mem_range, List.mem_range'_1,
      List.mem_cons, List.not_mem_nil, or_false] at hz hz'
    subst heq
    obtain ⟨x, hx, rfl⟩ := hz'
    simp only [Prod.mk.injEq] at hz
    rcases hz with (((⟨d, hd, o, ho, h1, h2⟩ | ⟨d, hd, o, ho, h1, h2⟩) | ⟨h1, h2⟩) |
      ⟨y, hy, ⟨h1, h2⟩ | ⟨h1, h2⟩⟩) | ⟨y, hy, h1, h2⟩ <;> omega

/-! ## The grid of tiles -/

/-- The exclusion zone of a window: a quarter of it, rounded up. -/
def exclusionZone (window : ℕ) : ℕ := (window + 3) / 4

/-- The cell is outside the band of trivial matches. -/
def OutsideBand (e r c : ℕ) : Prop := r + e ≤ c ∨ c + e ≤ r

section
variable {K : Type} (info : OpInfo K)

/-- The columns of the distance matrix a tile has: fewer than the others in the last column of tiles. -/
def tileNumCols (t : TilePos) : ℕ := min info.maxTileWidth (info.numCols - t.2 * info.maxTileWidth)

/-- The rows of the distance matrix a tile has. -/
def tileNumRows (t : TilePos) : ℕ := min info.maxTileWidth (info.numRows - t.1 * info.maxTileWidth)

/-- The cell lies in the tile. -/
def InTile (t : TilePos) (r c : ℕ) : Prop :=
  (t.1 * info.maxTileWidth ≤ r ∧ r < t.1 * info.maxTileWidth + tileNumRows info t) ∧
  t.2 * info.maxTileWidth ≤ c ∧ c < t.2 * info.maxTileWidth + tileNumCols info t

/-- The cell is one that a pass visits which leaves out the first `lower` diagonals on its side of the
    tile's main diagonal and keeps `upper` away from the far corner. `row` and `col` are the start of the
    tile, `width` its extent in the direction of the pass. -/
def OnPass (row col width lower upper r c : ℕ) : Prop :=
  lower + upper < width ∧ r + col + lower ≤ c + row ∧ c + row + upper ≤ r + col + width

end

theorem le_mul_iff_block {W x i : ℕ} (hW : 0 < W) : i * W ≤ x ∧ x < i * W + W ↔ i = x / W := by
  rw [eq_comm, Nat.div_eq_iff hW]
  omega

theorem lt_ceilDiv_iff {W n i : ℕ} (hW : 0 < W) : i < (n + W - 1) / W ↔ i * W < n := by
  rw [Nat.lt_iff_add_one_le, Nat.le_div_iff_mul_le hW, Nat.add_mul, Nat.one_mul]
  omega

section
variable {K : Type} [Field K] [LinearOrder K] (J : Join K)

theorem tileWidth_pos : 0 < J.info.maxTileWidth :=
  Nat.lt_of_le_of_lt (Nat.zero_le _) J.window_lt_tileWidth

theorem exclusionZone_lt_window : exclusionZone J.info.mpWindow < J.info.mpWindow := by
  have := J.three_le_window
  unfold exclusionZone
  omega

theorem numRows_eq_numCols (hself : J.args.hasB = false) : J.info.numRows = J.info.numCols := by
  show (if J.args.hasB then _ else _) - _ + 1 = _
  rw [hself]
  rfl

/-- **The tiles of the work list**: all tiles of the grid, in a self-join those of its upper triangle. -/
theorem mem_getTiles {t : TilePos} :
    t ∈ getTiles J.info ↔ t.1 * J.info.maxTileWidth < J.info.numRows ∧
      t.2 * J.info.maxTileWidth < J.info.numCols ∧ (J.args.hasB = false → t.1 ≤ t.2) := by
  have hW := tileWidth_pos J
  have hrows : ∀ i, i < J.info.numTileRows ↔ i * J.info.maxTileWidth < J.info.numRows :=
    fun i => lt_ceilDiv_iff hW
  have hcols : ∀ i, i < J.info.numTileCols ↔ i * J.info.maxTileWidth < J.info.numCols :=
    fun i => lt_ceilDiv_iff hW
  have hself : J.info.selfJoin = !J.args.hasB := rfl
  obtain ⟨i, j⟩ := t
  unfold getTiles
  rw [hself]
  cases hb : J.args.hasB with
  | false =>
      have hsquare : J.info.numTileRows = J.info.numTileCols := by
        unfold OpInfo.numTileRows OpInfo.numTileCols
        rw [numRows_eq_numCols J hb, J.tileHeight_eq]
      simp only [Bool.not_false, if_true, hsquare, mem_selfJoinTiles, hcols, true_implies,
        numRows_eq_numCols J hb]
      constructor
      · rintro ⟨hij, hj⟩
        exact ⟨Nat.lt_of_le_of_lt (Nat.mul_le_mul_right _ hij) hj, hj, hij⟩
      · rintro ⟨_, hj, hij⟩
        exact ⟨hij, hj⟩
  | true =>
      have hR : 0 < J.info.numTileRows := (hrows 0).mpr (by unfold OpInfo.numRows; omega)
      have hC : 0 < J.info.numTileCols := (hcols 0).mpr (by unfold OpInfo.numCols; omega)
      simp only [Bool.not_true, Bool.false_eq_true, if_false, mem_abJoinTiles hR hC, hrows, hcols,
        Bool.true_eq_false, false_implies, and_true]

theorem nodup_getTiles : (getTiles J.info).Nodup := by
  have hW := tileWidth_pos J
  unfold getTiles
  split
  · next hself =>
      have hb : J.args.hasB = false := by simpa [Join.info, OpInfo.ofArgs] using hself
      have hsquare : J.info.numTileRows = J.info.numTileCols := by
        unfold OpInfo.numTileRows OpInfo.numTileCols
        rw [numRows_eq_numCols J hb, J.tileHeight_eq]
      rw [hsquare]
      exact nodup_selfJoinTiles _
  · refine nodup_abJoinTiles ?_ ?_
    · exact (lt_ceilDiv_iff hW).mpr (by unfold OpInfo.numRows; omega)
    · exact (lt_ceilDiv_iff hW).mpr (by unfold OpInfo.numCols; omega)

/-- The tile of a cell, from the cell. -/
theorem inTile_iff {t : TilePos} {r c : ℕ} :
    InTile J.info t r c ↔ t = (r / J.info.maxTileWidth, c / J.info.maxTileWidth) ∧
      r < J.info.numRows ∧ c < J.info.numCols := by
  have hW := tileWidth_pos J
  obtain ⟨i, j⟩ := t
  simp only [InTile, tileNumRows, tileNumCols, Prod.mk.injEq, ← le_mul_iff_block hW]
  omega

theorem inTile_unique {t t' : TilePos} {r c : ℕ} (h : InTile J.info t r c)
    (h' : InTile J.info t' r c) : t = t' :=
  ((inTile_iff J).mp h).1.trans ((inTile_iff J).mp h').1.symm

/-! ## The passes of a tile -/

theorem tileDims_row (t : TilePos) : (tileDims J.info t).row = t.1 * J.info.maxTileWidth := rfl

theorem tileDims_col (t : TilePos) : (tileDims J.info t).col = t.2 * J.info.maxTileWidth := rfl

variable {J} {t : TilePos} (ht : t ∈ getTiles J.info)
include ht

/-- The two pieces of series `do_work` puts under a tile hold as many windows as the tile has columns and
    rows. -/
theorem tileDims_numCols :
    (tileDims J.info t).width - J.info.mpWindow + 1 = tileNumCols J.info t := by
  have := (mem_getTiles J).mp ht
  have := J.window_le_lenA
  have := J.two_windows_le_tile
  have := J.tileWidth_eq
  simp only [tileDims, tileNumCols, OpInfo.numCols] at *
  omega

theorem tileDims_numRows :
    (tileDims J.info t).height - J.info.mpWindow + 1 = tileNumRows J.info t := by
  have := (mem_getTiles J).mp ht
  have := J.window_le_lenB
  have := J.two_windows_le_tile
  have := J.tileWidth_eq
  simp only [tileDims, tileNumRows, OpInfo.numRows, J.tileHeight_eq] at *
  omega

theorem mem_upperCells {U r c : ℕ} (hU : 0 < U) :
    (r, c) ∈ passCells U J.info t false ↔ InTile J.info t r c ∧
      OnPass (t.1 * J.info.maxTileWidth) (t.2 * J.info.maxTileWidth) (tileNumCols J.info t)
        (kernelDims J.info (tileDims J.info t) false (!J.info.selfJoin)).exclusionLower
        (kernelDims J.info (tileDims J.info t) false (!J.info.selfJoin)).exclusionUpper r c := by
  have hX : (kernelDims J.info (tileDims J.info t) false (!J.info.selfJoin)).nX = tileNumCols J.info t :=
    tileDims_numCols ht
  have hY : (kernelDims J.info (tileDims J.info t) false (!J.info.selfJoin)).nY = tileNumRows J.info t :=
    tileDims_numRows ht
  simp only [passCells, List.mem_map, Prod.exists, mem_launchCells hU, hX, hY, globalCell, tileDims_row,
    tileDims_col, Bool.false_eq_true, if_false, Prod.mk.injEq, InTile, OnPass]
  constructor
  · rintro ⟨r', c', h, rfl, rfl⟩
    omega
  · intro h
    exact ⟨r - t.1 * J.info.maxTileWidth, c - t.2 * J.info.maxTileWidth, by omega, by omega, by omega⟩

/-- The lower pass walks the transposed tile: rows and columns change places. -/
theorem mem_lowerCells {U r c : ℕ} (hU : 0 < U) :
    (r, c) ∈ passCells U J.info t true ↔ InTile J.info t r c ∧
      OnPass (t.2 * J.info.maxTileWidth) (t.1 * J.info.maxTileWidth) (tileNumRows J.info t)
        (kernelDims J.info (tileDims J.info t) true (!J.info.selfJoin)).exclusionLower
        (kernelDims J.info (tileDims J.info t) true (!J.info.selfJoin)).exclusionUpper c r := by
  have hX : (kernelDims J.info (tileDims J.info t) true (!J.info.selfJoin)).nX = tileNumRows J.info t :=
    tileDims_numRows ht
  have hY : (kernelDims J.info (tileDims J.info t) true (!J.info.selfJoin)).nY = tileNumCols J.info t :=
    tileDims_numCols ht
  simp only [passCells, List.mem_map, Prod.exists, mem_launchCells hU, hX, hY, globalCell, tileDims_row,
    tileDims_col, if_true, Prod.mk.injEq, InTile, OnPass]
  constructor
  · rintro ⟨c', r', h, rfl, rfl⟩
    omega
  · intro h
    exact ⟨c - t.2 * J.info.maxTileWidth, r - t.1 * J.info.maxTileWidth, by omega, by omega, by omega⟩

end

/-! ## Exclusion zones of joins that are not aligned -/

section
variable {K : Type} [Field K] [LinearOrder K] {J : Join K} {t : TilePos}

/-- The diagonals the lower pass leaves to the upper one: the main diagonal, for the types that add up. -/
def extraExclusion (type : SCAMPProfileType) : ℕ := if addsUp type then 1 else 0

theorem getExclusion_self (m : ℕ) (x : ℤ) (hm : 0 < m) : getExclusion m x x = exclusionZone m := by
  unfold getExclusion exclusionZone
  dsimp only
  rw [if_pos (by omega)]

theorem getExclusion_of_lt {m : ℕ} {x y : ℤ} (h : y < x) : getExclusion m x y = 0 := by
  unfold getExclusion
  dsimp only
  rw [if_neg (by omega)]

theorem getExclusion_of_far {m : ℕ} {x y : ℤ} (h : x + exclusionZone m ≤ y) :
    getExclusion m x y = 0 := by
  unfold exclusionZone at h
  unfold getExclusion
  dsimp only
  rw [if_neg (by omega)]

/-- Tiles to the right of one another are a whole tile apart. -/
theorem tile_gap {W i j : ℕ} (h : i < j) : i * W + W ≤ j * W := by
  have := Nat.mul_le_mul_right W h
  rwa [Nat.succ_eq_add_one, Nat.add_mul, Nat.one_mul] at this

theorem tilePasses_diagonal (hself : J.args.hasB = false) (h : t.1 = t.2) :
    tilePasses J.info t = [false] := by
  unfold tilePasses
  rw [J.selfJoin_of_self hself, h, beq_self_eq_true, Bool.and_self, if_pos rfl]

theorem tilePasses_offDiagonal (h : t.1 < t.2) : tilePasses J.info t = [false, true] := by
  have hbeq : (t.1 == t.2) = false := by simpa using Nat.ne_of_lt h
  unfold tilePasses
  rw [hbeq, Bool.and_false, if_neg Bool.false_ne_true]

theorem tilePasses_abJoin (hab : J.args.hasB = true) : tilePasses J.info t = [false, true] := by
  unfold tilePasses
  rw [J.selfJoin_of_ab hab, Bool.false_and, if_neg Bool.false_ne_true]

section selfJoin
variable (hself : J.args.hasB = false) (ht : t ∈ getTiles J.info)
include hself ht

theorem selfJoin_upper_dims :
    (kernelDims J.info (tileDims J.info t) false (!J.info.selfJoin)).exclusionLower =
        (if t.1 = t.2 then exclusionZone J.info.mpWindow else 0) ∧
      (kernelDims J.info (tileDims J.info t) false (!J.info.selfJoin)).exclusionUpper = 0 := by
  have hflag := J.selfJoin_of_self hself
  have hpos : 0 < J.info.mpWindow := by have := J.three_le_window; omega
  have hzone := exclusionZone_lt_window J
  have hwide := J.window_lt_tileWidth
  simp only [kernelDims, hflag, Bool.not_true, Bool.false_eq_true, if_false, Bool.not_false,
    getExclusionForSelfJoin, if_true, tileDims_row, tileDims_col, and_true]
  split
  · next heq => rw [heq, getExclusion_self _ _ hpos]
  · next hne =>
      have hlt : t.1 < t.2 := Nat.lt_of_le_of_ne (((mem_getTiles J).mp ht).2.2 hself) hne
      have := tile_gap (W := J.info.maxTileWidth) hlt
      exact getExclusion_of_far (by push_cast; omega)

/-- A tile off the diagonal has a tile below it, so that it has all its rows. -/
theorem selfJoin_full_height (hlt : t.1 < t.2) : tileNumRows J.info t = J.info.maxTileWidth := by
  have := tile_gap (W := J.info.maxTileWidth) hlt
  have := (mem_getTiles J).mp ht
  have := numRows_eq_numCols J hself
  unfold tileNumRows
  omega

theorem selfJoin_lower_dims (hlt : t.1 < t.2) :
    (kernelDims J.info (tileDims J.info t) true (!J.info.selfJoin)).exclusionLower =
        extraExclusion J.info.profileType ∧
      (kernelDims J.info (tileDims J.info t) true (!J.info.selfJoin)).exclusionUpper =
        if t.2 = t.1 + 1 then exclusionZone J.info.mpWindow else 0 := by
  have hflag := J.selfJoin_of_self hself
  have hpos : 0 < J.info.mpWindow := by have := J.three_le_window; omega
  simp only [kernelDims, hflag, Bool.not_true, Bool.false_eq_true, if_false,
    getExclusionForSelfJoin, tileDims_row, tileDims_col, tileDims_numRows ht,
    selfJoin_full_height hself ht hlt]
  refine ⟨rfl, ?_⟩
  have hnext : t.1 * J.info.maxTileWidth + J.info.maxTileWidth = (t.1 + 1) * J.info.maxTileWidth := by
    rw [Nat.add_mul, Nat.one_mul]
  split
  · next heq =>
      rw [heq, ← hnext, Nat.cast_add, getExclusion_self _ _ hpos]
  · next hne =>
      have := tile_gap (W := J.info.maxTileWidth) (show t.1 + 1 < t.2 by omega)
      have := tileWidth_pos J
      exact getExclusion_of_lt (by omega)

/-- **The cells of a self-join's tile**: those of the tile on or beyond the exclusion zone. Next to the
    diagonal the lower pass ends where the zone begins. -/
theorem mem_selfJoin_tileCells {U r c : ℕ} (hU : 0 < U) :
    (r, c) ∈ tileCells U J.info t ↔
      InTile J.info t r c ∧ r + exclusionZone J.info.mpWindow ≤ c := by
  obtain ⟨hupL, hupU⟩ := selfJoin_upper_dims hself ht
  have hzone := exclusionZone_lt_window J
  have hwide := J.window_lt_tileWidth
  have hle := ((mem_getTiles J).mp ht).2.2 hself
  unfold tileCells
  rcases Nat.eq_or_lt_of_le hle with hdiag | hlt
  · rw [tilePasses_diagonal hself hdiag, List.flatMap_singleton, mem_upperCells ht hU, hupL, hupU,
      if_pos hdiag]
    have hstart : t.1 * J.info.maxTileWidth = t.2 * J.info.maxTileWidth := by rw [hdiag]
    unfold OnPass InTile
    omega
  · obtain ⟨hloL, hloU⟩ := selfJoin_lower_dims hself ht hlt
    have hfull := selfJoin_full_height hself ht hlt
    have hextra : extraExclusion J.info.profileType ≤ 1 := by
      unfold extraExclusion
      split <;> omega
    have hgap := tile_gap (W := J.info.maxTileWidth) hlt
    rw [tilePasses_offDiagonal hlt, List.flatMap_cons, List.flatMap_singleton, List.mem_append,
      mem_upperCells ht hU, mem_lowerCells ht hU, hupL, hupU, hloL, hloU,
      if_neg (Nat.ne_of_lt hlt), hfull]
    unfold OnPass InTile
    rw [hfull]
    by_cases hnext : t.2 = t.1 + 1
    · have : t.2 * J.info.maxTileWidth = t.1 * J.info.maxTileWidth + J.info.maxTileWidth := by
        rw [hnext, Nat.add_mul, Nat.one_mul]
      rw [if_pos hnext]
      omega
    · have := tile_gap (W := J.info.maxTileWidth) (show t.1 + 1 < t.2 by omega)
      rw [Nat.add_mul, Nat.one_mul] at this
      rw [if_neg hnext]
      omega

end selfJoin

section abJoin
variable (hab : J.args.hasB = true) (hna : J.args.isAligned = false)
include hab hna

theorem abJoin_dims (transpose : Bool) :
    (kernelDims J.info (tileDims J.info t) transpose (!J.info.selfJoin)).exclusionLower =
        (if transpose then 0 else extraExclusion J.info.profileType) ∧
      (kernelDims J.info (tileDims J.info t) transpose (!J.info.selfJoin)).exclusionUpper = 0 := by
  have hflag := J.selfJoin_of_ab hab
  have haligned : J.info.isAligned = false := hna
  simp only [kernelDims, hflag, Bool.not_false, if_true, getExclusionForABJoin, haligned,
    extraExclusion, Nat.zero_max, and_true]
  cases transpose with
  | false => rfl
  | true => rfl

/-- **The cells of an AB-join's tile** are all cells of the tile. -/
theorem mem_abJoin_tileCells {U r c : ℕ} (hU : 0 < U) (ht : t ∈ getTiles J.info) :
    (r, c) ∈ tileCells U J.info t ↔ InTile J.info t r c := by
  have hextra : extraExclusion J.info.profileType ≤ 1 := by
    unfold extraExclusion
    split <;> omega
  unfold tileCells
  rw [tilePasses_abJoin hab, List.flatMap_cons, List.flatMap_singleton, List.mem_append, mem_upperCells ht hU, mem_lowerCells ht hU,
    (abJoin_dims hab hna false).1, (abJoin_dims hab hna false).2, (abJoin_dims hab hna true).1,
    (abJoin_dims hab hna true).2]
  simp only [Bool.false_eq_true, if_false, if_true]
  unfold OnPass InTile
  omega

end abJoin

/-! ## How often a cell is compared -/

variable (J) in
theorem nodup_passCells {U : ℕ} (hU : 0 < U) (t : TilePos) (transpose : Bool) :
    (passCells U J.info t transpose).Nodup := by
  have hlaunch : ∀ a, (launchCells U a).Nodup := by
    intro a
    unfold launchCells
    split
    · exact nodup_doTileCells hU a
    · exact List.nodup_nil
  refine (hlaunch _).map ?_
  rintro ⟨r, c⟩ ⟨r', c'⟩ h
  unfold globalCell at h
  cases transpose <;> simp at h <;> simp [h]

/-- A cell that a pass over a tile visits lies in the tile. -/
theorem inTile_of_mem_tileCells {U r c : ℕ} (hU : 0 < U) (ht : t ∈ getTiles J.info)
    (h : (r, c) ∈ tileCells U J.info t) : InTile J.info t r c := by
  obtain ⟨transpose, _, hmem⟩ := List.mem_flatMap.mp h
  cases transpose with
  | false => exact ((mem_upperCells ht hU).mp hmem).1
  | true => exact ((mem_lowerCells ht hU).mp hmem).1

/-- The passes of a tile visit no cell twice when they share none. -/
theorem nodup_tileCells {U : ℕ} (hU : 0 < U)
    (hdisj : ∀ z, z ∈ passCells U J.info t false → z ∈ passCells U J.info t true → False) :
    (tileCells U J.info t).Nodup := by
  unfold tileCells
  refine Lib.nodup_flatMap_of_inj ?_ (fun p _ => nodup_passCells J hU t p) ?_
  · unfold tilePasses
    split <;> decide
  · intro p _ q _ z hp hq
    cases p <;> cases q
    · rfl
    · exact absurd hq (hdisj z hp)
    · exact absurd hp (hdisj z hq)
    · rfl

/-- The tiles share no cell, so an operation visits no cell twice when no tile does. -/
theorem nodup_comparedCells {U : ℕ} (hU : 0 < U)
    (h : ∀ t ∈ getTiles J.info, (tileCells U J.info t).Nodup) : (comparedCells U J.info).Nodup := by
  refine Lib.nodup_flatMap_of_inj (nodup_getTiles J) h ?_
  rintro t ht t' ht' ⟨r, c⟩ hz hz'
  exact inTile_unique J (inTile_of_mem_tileCells hU ht hz) (inTile_of_mem_tileCells hU ht' hz')

/-- What an operation compares, from what each tile compares. -/
theorem mem_comparedCells {U r c : ℕ} {P : ℕ → ℕ → Prop}
    (h : ∀ t ∈ getTiles J.info, (r, c) ∈ tileCells U J.info t ↔ InTile J.info t r c ∧ P r c)
    (hgrid : r < J.info.numRows → c < J.info.numCols → P r c →
      (r / J.info.maxTileWidth, c / J.info.maxTileWidth) ∈ getTiles J.info) :
    (r, c) ∈ comparedCells U J.info ↔ r < J.info.numRows ∧ c < J.info.numCols ∧ P r c := by
  unfold comparedCells
  rw [List.mem_flatMap]
  constructor
  · rintro ⟨t, ht, hmem⟩
    obtain ⟨hin, hP⟩ := (h t ht).mp hmem
    obtain ⟨_, hr, hc⟩ := (inTile_iff J).mp hin
    exact ⟨hr, hc, hP⟩
  · rintro ⟨hr, hc, hP⟩
    have ht := hgrid hr hc hP
    exact ⟨_, ht, (h _ ht).mpr ⟨(inTile_iff J).mpr ⟨rfl, hr, hc⟩, hP⟩⟩

/-- The tile of a cell is in the grid. -/
theorem cellTile_mem_grid {r c : ℕ} (hr : r < J.info.numRows) (hc : c < J.info.numCols)
    (hself : J.args.hasB = false → r / J.info.maxTileWidth ≤ c / J.info.maxTileWidth) :
    (r / J.info.maxTileWidth, c / J.info.maxTileWidth) ∈ getTiles J.info :=
  (mem_getTiles J).mpr ⟨Nat.lt_of_le_of_lt (Nat.div_mul_le_self _ _) hr,
    Nat.lt_of_le_of_lt (Nat.div_mul_le_self _ _) hc, hself⟩

/-- **The cells of a self-join**: the upper triangle outside the exclusion zone. -/
theorem mem_comparedCells_selfJoin {U r c : ℕ} (hU : 0 < U) (hself : J.args.hasB = false) :
    (r, c) ∈ comparedCells U J.info ↔
      c < J.info.numCols ∧ r + exclusionZone J.info.mpWindow ≤ c := by
  rw [mem_comparedCells (P := fun r c => r + exclusionZone J.info.mpWindow ≤ c)
    (fun t ht => mem_selfJoin_tileCells hself ht hU)
    (fun hr hc hP => cellTile_mem_grid hr hc fun _ => Nat.div_le_div_right (by omega)),
    numRows_eq_numCols J hself]
  omega

/-- **The cells of an AB-join that is not aligned**: the whole distance matrix. -/
theorem mem_comparedCells_abJoin {U r c : ℕ} (hU : 0 < U) (hab : J.args.hasB = true)
    (hna : J.args.isAligned = false) :
    (r, c) ∈ comparedCells U J.info ↔ r < J.info.numRows ∧ c < J.info.numCols := by
  rw [mem_comparedCells (P := fun _ _ => True)
    (fun t ht => by rw [mem_abJoin_tileCells hab hna hU ht, and_true])
    (fun hr hc _ => cellTile_mem_grid hr hc fun hself => by simp [hab] at hself)]
  simp only [and_true]

/-! ## Operations that add up what they compare -/

/-- In a sum operation the lower pass leaves the diagonal it shares with the upper pass to it. -/
theorem nodup_comparedCells_sum {U : ℕ} (hU : 0 < U) (hsum : addsUp J.args.profileType = true)
    (hjoin : J.args.hasB = false ∨ J.args.isAligned = false) : (comparedCells U J.info).Nodup := by
  have hextra : extraExclusion J.info.profileType = 1 := if_pos hsum
  refine nodup_comparedCells hU fun t ht => ?_
  cases hb : J.args.hasB with
  | false =>
      rcases Nat.eq_or_lt_of_le (((mem_getTiles J).mp ht).2.2 hb) with hdiag | hlt
      · unfold tileCells
        rw [tilePasses_diagonal hb hdiag, List.flatMap_singleton]
        exact nodup_passCells J hU t false
      · refine nodup_tileCells hU ?_
        rintro ⟨r, c⟩ hup hlo
        have h1 := ((mem_upperCells ht hU).mp hup).2
        have h2 := ((mem_lowerCells ht hU).mp hlo).2
        rw [(selfJoin_lower_dims hb ht hlt).1, hextra] at h2
        unfold OnPass at h1 h2
        omega
  | true =>
      have hna := hjoin.resolve_left (by simp [hb])
      refine nodup_tileCells hU ?_
      rintro ⟨r, c⟩ hup hlo
      have h1 := ((mem_upperCells ht hU).mp hup).2
      have h2 := ((mem_lowerCells ht hU).mp hlo).2
      rw [(abJoin_dims hb hna false).1, if_neg Bool.false_ne_true, hextra] at h1
      unfold OnPass at h1 h2
      omega

/-- **A sum operation compares every cell once.** Over all tiles and passes, a `SUM_THRESH` AB-join that is
    not aligned visits each cell of the distance matrix exactly once, and a self-join each cell of the upper
    triangle outside the exclusion zone exactly once and no other cell. -/
theorem sumThresh_compares_once (J : Join K) (U : ℕ) (hU : 0 < U)
    (hsum : J.args.profileType = .sumThresh) (r c : ℕ) :
    (J.args.hasB = true → J.args.isAligned = false →
      (comparedCells U J.info).count (r, c) =
        if r < J.info.numRows ∧ c < J.info.numCols then 1 else 0) ∧
    (J.args.hasB = false →
      (comparedCells U J.info).count (r, c) =
        if c < J.info.numCols ∧ r + exclusionZone J.info.mpWindow ≤ c then 1 else 0) := by
  have hadds : addsUp J.args.profileType = true := by
    rw [hsum]
    rfl
  constructor
  · intro hab hna
    rw [(nodup_comparedCells_sum hU hadds (Or.inr hna)).count]
    simp only [mem_comparedCells_abJoin hU hab hna]
  · intro hself
    rw [(nodup_comparedCells_sum hU hadds (Or.inl hself)).count]
    simp only [mem_comparedCells_selfJoin hU hself]

/-- The `SUM_THRESH` self-join of twelve samples on two workers, in six tiles. -/
def sixTileSums : Join ℚ where
  args := selfJoinArgs .sumThresh (.replicate 12 (.finite 0)) 3
  numThreads := 2
  threads_pos := Nat.two_pos
  valid := rfl
  columns := rfl
  rows_self := fun _ => rfl
  rows_ab := fun h => absurd h (by simp [selfJoinArgs])
  type_a := rfl
  type_b := fun _ => rfl

/-- The join of the same samples with as many others, in nine tiles. -/
def nineTileSums : Join ℚ where
  args := abJoinArgs .sumThresh (.replicate 12 (.finite 0)) (.replicate 12 (.finite 0)) 3
  numThreads := 2
  threads_pos := Nat.two_pos
  valid := rfl
  columns := rfl
  rows_self := fun h => absurd h (by decide)
  rows_ab := fun _ => rfl
  type_a := rfl
  type_b := fun _ => rfl

/-- The self-join visits a cell of a tile off the diagonal once, and neither its mirror image nor a cell of the
    exclusion zone; the other join visits both of the first two. -/
theorem sumThresh_compares_once_tiles :
    (getTiles sixTileSums.info).length = 6 ∧ (getTiles nineTileSums.info).length = 9 ∧
      (comparedCells 256 sixTileSums.info).count (2, 7) = 1 ∧
      (comparedCells 256 sixTileSums.info).count (7, 2) = 0 ∧
      (comparedCells 256 sixTileSums.info).count (3, 3) = 0 ∧
      (comparedCells 256 nineTileSums.info).count (2, 7) = 1 ∧
      (comparedCells 256 nineTileSums.info).count (7, 2) = 1 := by
  have hself := fun r c => (sumThresh_compares_once sixTileSums 256 (by decide) rfl r c).2 rfl
  have hab := fun r c => (sumThresh_compares_once nineTileSums 256 (by decide) rfl r c).1 rfl rfl
  exact ⟨by decide, by decide, (hself 2 7).trans (if_pos ⟨by decide, by decide⟩),
    (hself 7 2).trans (if_neg (by decide)), (hself 3 3).trans (if_neg (by decide)),
    (hab 2 7).trans (if_pos ⟨by decide, by decide⟩), (hab 7 2).trans (if_pos ⟨by decide, by decide⟩)⟩

end

end Scamp
