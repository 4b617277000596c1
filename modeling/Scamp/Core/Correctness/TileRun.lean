import Scamp.Core.Correctness.Covariance

/-!
# `Core.Correctness.TileRun` — executing one tile

From the statistics to the profiles of a tile. In a tile that `do_work` has prepared, the covariances of
either pass are centred dot products (`covAt_upper`, `covAt_lower`), so that every cell has its
correlation, or the initial value where a window takes no part (`Join.cellCorr`). Executing the tile
offers each local profile entry the correlations of the cells of its column or row (`execute_effect`,
`hitsOf_tileBlocks`), and does not fail (`execute_succeeds`).
-/

namespace Scamp

open Lib

section
variable {K : Type} [Field K] [LinearOrder K] [HasSqrt K]

/-! ## The value of a cell -/

namespace Join
variable (J : Join K)

/-- The Pearson correlation of window `c` of the first series with window `r` of the second. -/
def pearson (r c : ℕ) : K :=
  cdot (cleanSeries J.seriesA) (cleanSeries J.seriesB) J.info.mpWindow c r /
    (HasSqrt.sqrt (ssd (cleanSeries J.seriesA) J.info.mpWindow c) *
      HasSqrt.sqrt (ssd (cleanSeries J.seriesB) J.info.mpWindow r))

/-- Both windows of the cell take part in the join. -/
def ValidCell (r c : ℕ) : Prop :=
  ValidWindow J.seriesA J.info.mpWindow c ∧ ValidWindow J.seriesB J.info.mpWindow r

instance (r c : ℕ) : Decidable (J.ValidCell r c) :=
  inferInstanceAs (Decidable ((FiniteWindow _ _ _ ∧ _ < _) ∧ FiniteWindow _ _ _ ∧ _ < _))

/-- The value the kernel works with for a cell. -/
def cellCorr (r c : ℕ) : K := if J.ValidCell r c then J.pearson r c else initDist J.info.profileType

end Join

variable [IsStrictOrderedRing K] (J : Join K) (bld : Build K)

omit [HasSqrt K] [IsStrictOrderedRing K] in
theorem window_pos : 0 < J.info.mpWindow := by have := J.three_le_window; omega

omit [HasSqrt K] [IsStrictOrderedRing K] in
theorem seriesA_size : J.seriesA.size - J.info.mpWindow + 1 = J.info.numCols := rfl

omit [HasSqrt K] [IsStrictOrderedRing K] in
theorem seriesB_size : J.seriesB.size - J.info.mpWindow + 1 = J.info.numRows := by
  show (if J.args.hasB then J.args.timeseriesB else J.args.timeseriesA).size - _ + 1 =
    (if J.args.hasB then J.args.timeseriesB.size else J.args.timeseriesA.size) - _ + 1
  split <;> rfl

/-! ## A prepared tile -/

/-- The tile holds the pieces of the series and of the statistics at position `t`. -/
structure Prepared (op : Operation K) (t : TilePos) (tile : Tile K) : Prop extends Loaded op tile where
  dims : tile.dims = tileDims op.info t
  nanA : tile.hasNanInput = false →
    ∀ idx ∈ op.precompA.nanIdxs, tile.dims.col ≤ idx → tile.dims.col + tile.dims.width ≤ idx
  nanB : tile.hasNanInput = false →
    ∀ idx ∈ op.precompB.nanIdxs, tile.dims.row ≤ idx → tile.dims.row + tile.dims.height ≤ idx

omit [LinearOrder K] [HasSqrt K] [IsStrictOrderedRing K] in
theorem not_mem_of_any_false {l : List ℕ} {start len : ℕ}
    (h : l.any (fun idx => decide (start ≤ idx ∧ idx < start + len)) = false) :
    ∀ idx ∈ l, start ≤ idx → start + len ≤ idx := by
  intro idx hidx hstart
  by_contra hlt
  have := List.any_eq_false.mp h idx hidx
  exact this (decide_eq_true ⟨hstart, by omega⟩)

omit [HasSqrt K] [IsStrictOrderedRing K] in
/-- `InitTimeseries` and `InitStats` prepare the tile, whatever was in its buffers. -/
theorem prepareTile_prepared (op : Operation K) (t : TilePos) (tile : Tile K) :
    Prepared op t (prepareTile op t tile) where
  toLoaded := loadTile_loaded op { tile with dims := tileDims op.info t }
  dims := rfl
  nanA h := not_mem_of_any_false (Bool.or_eq_false_iff.mp h).1
  nanB h := not_mem_of_any_false (Bool.or_eq_false_iff.mp h).2

omit [HasSqrt K] [IsStrictOrderedRing K] in
/-- A tile stays prepared while its covariances and profiles change. -/
theorem Prepared.withMemory {op : Operation K} {t : TilePos} {tile : Tile K} (h : Prepared op t tile)
    (qt : Buffer K) (a b : Buffer (MpEntry K)) :
    Prepared op t { tile with qt := qt, profileATileDev := a, profileBTileDev := b } where
  dims := h.dims
  tA := h.tA
  tB := h.tB
  normsA := h.normsA
  normsB := h.normsB
  dfA := h.dfA
  dgA := h.dgA
  dfB := h.dfB
  dgB := h.dgB
  nanA := h.nanA
  nanB := h.nanB

/-! ## The correlations of a tile -/

omit [LinearOrder K] [HasSqrt K] [IsStrictOrderedRing K] in
theorem mul_mul_swap (x y z : Dbl K) : (x.mul y).mul z = (x.mul z).mul y := by
  cases x <;> cases y <;> cases z <;> simp [mul_right_comm]

section
variable {J bld} {t : TilePos} (ht : t ∈ getTiles J.info) {tile : Tile K}
  (hprep : Prepared (J.operation bld) t tile)
include ht hprep

omit [IsStrictOrderedRing K] in
theorem prepared_dims : tile.dims.row = t.1 * J.info.maxTileWidth ∧
    tile.dims.col = t.2 * J.info.maxTileWidth ∧
    tile.dims.width - J.info.mpWindow + 1 = tileNumCols J.info t ∧
    tile.dims.height - J.info.mpWindow + 1 = tileNumRows J.info t := by
  rw [show tile.dims = tileDims J.info t from hprep.dims]
  exact ⟨rfl, rfl, tileDims_numCols ht, tileDims_numRows ht⟩

omit [IsStrictOrderedRing K] in
/-- There is a window under every tile of the work list. -/
theorem window_le_prepared :
    J.info.mpWindow ≤ tile.dims.width ∧ J.info.mpWindow ≤ tile.dims.height := by
  obtain ⟨hrow, hcol, _⟩ := (mem_getTiles J).mp ht
  have hts := J.two_windows_le_tile
  have hlenA := J.window_le_lenA
  have hlenB := J.window_le_lenB
  rw [show tile.dims = tileDims J.info t from hprep.dims]
  unfold OpInfo.numRows at hrow
  unfold OpInfo.numCols at hcol
  unfold tileDims
  rw [J.tileHeight_eq]
  constructor
  · show J.info.mpWindow ≤ min _ _
    omega
  · show J.info.mpWindow ≤ min _ _
    omega

/-- **The value of a cell.** A tile that reports no NaN has none; in the others a correlation that is not
    finite is replaced. -/
theorem dropNan_cell {i j : ℕ} (hi : i < tileNumCols J.info t) (hj : j < tileNumRows J.info t)
    {a : KernelArgs K} (ha : a.hasNanInput = tile.hasNanInput) :
    dropNan J.info.profileType a (((Dbl.num (cdot (cleanSeries J.seriesA) (cleanSeries J.seriesB)
      J.info.mpWindow (t.2 * J.info.maxTileWidth + i) (t.1 * J.info.maxTileWidth + j))).mul
        (tile.normsA i)).mul (tile.normsB j)) =
      .num (J.cellCorr (t.1 * J.info.maxTileWidth + j) (t.2 * J.info.maxTileWidth + i)) := by
  obtain ⟨hrow, hcol, hwidth, hheight⟩ := prepared_dims ht hprep
  have hm := window_pos J
  have hsizeA : tileNumCols J.info t ≤ J.info.numCols - t.2 * J.info.maxTileWidth := Nat.min_le_right _ _
  have hsizeB : tileNumRows J.info t ≤ J.info.numRows - t.1 * J.info.maxTileWidth := Nat.min_le_right _ _
  obtain ⟨hfitA, hfitB⟩ := window_le_prepared ht hprep
  have hnormA := hprep.normsA i (hwidth ▸ hi)
  have hnormB := hprep.normsB j (hheight ▸ hj)
  rw [hcol] at hnormA
  rw [hrow] at hnormB
  have hA : (J.operation bld).precompA =
    seriesStats J.seriesA J.info.mpWindow (decide (J.info.fpType = .ultra)) := rfl
  have hB : (J.operation bld).precompB =
    seriesStats J.seriesB J.info.mpWindow (decide (J.info.fpType = .ultra)) := rfl
  unfold dropNan
  rw [ha, hnormA, hnormB, hA, hB]
  unfold Join.cellCorr
  by_cases hv : J.ValidCell (t.1 * J.info.maxTileWidth + j) (t.2 * J.info.maxTileWidth + i)
  · rw [if_pos hv, norms_of_valid _ hm _ hv.1, norms_of_valid _ hm _ hv.2]
    simp only [Dbl.mul_num, Dbl.isFinite_num, if_true, ite_self]
    unfold Join.pearson
    rw [mul_one_div, mul_one_div, div_div]
  · -- one of the norms is NaN, which the tile knows
    rw [if_neg hv]
    rcases not_and_or.mp hv with hvA | hvB
    · have hnan : tile.hasNanInput = true := by
        by_contra hno
        have hidx := (mem_nanIdxs J.seriesA hm (decide (J.info.fpType = .ultra))).mpr
          ⟨by rw [seriesA_size]; omega, hvA⟩
        have := hprep.nanA (by simpa using hno) _ hidx (by omega)
        omega
      rw [norms_of_not_valid _ hm _ hvA, hnan, if_pos rfl, Dbl.mul_nan, Dbl.nan_mul]
      rfl
    · have hnan : tile.hasNanInput = true := by
        by_contra hno
        have hidx := (mem_nanIdxs J.seriesB hm (decide (J.info.fpType = .ultra))).mpr
          ⟨by rw [seriesB_size]; omega, hvB⟩
        have := hprep.nanB (by simpa using hno) _ hidx (by omega)
        omega
      rw [norms_of_not_valid _ hm _ hvB, hnan, if_pos rfl, Dbl.mul_nan]
      rfl

omit [IsStrictOrderedRing K] in
/-- Every tile of the work list lies in the series. -/
theorem prepared_fits : Fits J.info J.seriesA J.seriesB tile.dims := by
  obtain ⟨hwidth, hheight⟩ := window_le_prepared ht hprep
  obtain ⟨hrow, hcol, _⟩ := (mem_getTiles J).mp ht
  have hlenB : J.seriesB.size = J.info.fullTsLenB := by
    show (if J.args.hasB then J.args.timeseriesB else J.args.timeseriesA).size = ite _ _ _
    split <;> rfl
  have hlenA : J.seriesA.size = J.info.fullTsLenA := rfl
  have hwA := J.window_le_lenA
  have hwB := J.window_le_lenB
  have hw3 := J.three_le_window
  unfold OpInfo.numRows at hrow
  unfold OpInfo.numCols at hcol
  have hd : tile.dims = tileDims J.info t := hprep.dims
  have hdw : tile.dims.width = min J.info.maxTileTsSize (J.info.fullTsLenA - t.2 * J.info.maxTileWidth) := by
    rw [hd]
    rfl
  have hdh : tile.dims.height = min J.info.maxTileTsSize (J.info.fullTsLenB - t.1 * J.info.maxTileWidth) := by
    rw [hd]
    rfl
  have hdc : tile.dims.col = t.2 * J.info.maxTileWidth := by
    rw [hd]
    rfl
  have hdr : tile.dims.row = t.1 * J.info.maxTileWidth := by
    rw [hd]
    rfl
  constructor <;> omega

/-- The covariances of the upper pass. -/
theorem covAt_upper (abJoin : Bool) (row d : ℕ) (hrow : row < tileNumRows J.info t)
    (hcol : row + d < tileNumCols J.info t) :
    covAt (tile.kernelArgs J.info false abJoin)
      (computeQTCPU J.info.maxTileTsSize J.info.mpWindow tile.qt tile.tA tile.tB) row d =
      cdot (cleanSeries J.seriesA) (cleanSeries J.seriesB) J.info.mpWindow
        (t.2 * J.info.maxTileWidth + (row + d)) (t.1 * J.info.maxTileWidth + row) := by
  obtain ⟨hdr, hdc, hwidth, hheight⟩ := prepared_dims ht hprep
  rw [← hdr, ← hdc]
  exact covAt_upper_of_fits J.three_le_window hprep.toLoaded (prepared_fits ht hprep) abJoin row d
    (hheight ▸ hrow) (hwidth ▸ hcol)

/-- The covariances of the lower pass, whose rows are the columns of the tile. -/
theorem covAt_lower (abJoin : Bool) (row d : ℕ) (hrow : row < tileNumCols J.info t)
    (hcol : row + d < tileNumRows J.info t) :
    covAt (tile.kernelArgs J.info true abJoin)
      (computeQTCPU J.info.maxTileTsSize J.info.mpWindow tile.qt tile.tB tile.tA) row d =
      cdot (cleanSeries J.seriesA) (cleanSeries J.seriesB) J.info.mpWindow
        (t.2 * J.info.maxTileWidth + row) (t.1 * J.info.maxTileWidth + (row + d)) := by
  obtain ⟨hdr, hdc, hwidth, hheight⟩ := prepared_dims ht hprep
  rw [← hdr, ← hdc]
  exact covAt_lower_of_fits J.three_le_window hprep.toLoaded (prepared_fits ht hprep) abJoin row d
    (hwidth ▸ hrow) (hheight ▸ hcol)

end

/-! ## One pass -/

/-- The sizes of a pass over the tile at `t`. -/
def passDims (t : TilePos) (transpose : Bool) : KernelDims :=
  kernelDims J.info (tileDims J.info t) transpose (!J.info.selfJoin)

/-- The value of a cell of a pass, in the pass's own rows and columns. -/
def passVal (t : TilePos) (transpose : Bool) (row col : ℕ) : K :=
  J.cellCorr (globalCell (tileDims J.info t) transpose (row, col)).1
    (globalCell (tileDims J.info t) transpose (row, col)).2

/-- What a pass offers the entries along the columns of the tile: as columns in the upper pass, as rows in
    the lower one. -/
def passBlocksA (U : ℕ) (t : TilePos) (transpose : Bool) (i : ℕ) : Multiset (Block K) :=
  if (passDims J t transpose).launches then
    if transpose then rowBlocks U (passDims J t transpose) (passVal J t transpose) i
    else columnBlocks U (passDims J t transpose) (passVal J t transpose) i
  else 0

/-- What a pass offers the entries along the rows of the tile. -/
def passBlocksB (U : ℕ) (t : TilePos) (transpose : Bool) (r : ℕ) : Multiset (Block K) :=
  if (passDims J t transpose).launches then
    if transpose then columnBlocks U (passDims J t transpose) (passVal J t transpose) r
    else rowBlocks U (passDims J t transpose) (passVal J t transpose) r
  else 0

/-- What the passes over the tile at `t` offer an entry along its columns. -/
def tileBlocksA (U : ℕ) (t : TilePos) (i : ℕ) : Multiset (Block K) :=
  (tilePasses J.info t : Multiset Bool).bind fun transpose => passBlocksA J U t transpose i

/-- What the passes over the tile at `t` offer an entry along its rows. -/
def tileBlocksB (U : ℕ) (t : TilePos) (r : ℕ) : Multiset (Block K) :=
  (tilePasses J.info t : Multiset Bool).bind fun transpose => passBlocksB J U t transpose r

/-- The profile types a CPU worker computes whose profiles have an entry for each subsequence. -/
def entryType (type : SCAMPProfileType) : Bool := type == .oneNNIndex || type == .oneNN || type == .sumThresh

/-- The profile types a CPU worker computes. -/
def CpuType (type : SCAMPProfileType) : Prop := entryType type = true ∨ type = .matrixSummary

omit [HasSqrt K] [IsStrictOrderedRing K] in
/-- A launch that succeeds ran the kernel, unless its exclusions swallow the pass. -/
theorem launch_ok {type : SCAMPProfileType} {fpType : SCAMPPrecisionType} {rows cols : Bool}
    {a : KernelArgs K} {s s' : KernelState K}
    (h : computeCpuResourcesAndLaunch bld type fpType rows cols a s = .ok s') :
    s' = if a.launches then if rows || cols then doTile bld type rows cols a s else s else s := by
  unfold computeCpuResourcesAndLaunch at h
  split
  · next hlaunch =>
      rw [if_pos hlaunch] at h
      have hdo : launchDoTile bld type fpType rows cols a s = .ok s' := by
        cases type <;> first | exact h | cases h
      unfold launchDoTile at hdo
      split
      · next hon =>
          rw [if_pos hon] at hdo
          cases fpType <;> first | exact (Except.ok.inj hdo).symm | cases hdo
      · next hoff =>
          rw [if_neg hoff] at hdo
          exact (Except.ok.inj hdo).symm
  · next hlaunch =>
      rw [if_neg hlaunch] at h
      exact (Except.ok.inj h).symm

omit [HasSqrt K] [IsStrictOrderedRing K] in
/-- In double and ultra precision a launch succeeds. -/
theorem launch_succeeds {type : SCAMPProfileType} (htype : CpuType type)
    {fpType : SCAMPPrecisionType} (hfp : fpType = .double ∨ fpType = .ultra) (rows cols : Bool)
    (a : KernelArgs K) (s : KernelState K) :
    ∃ s', computeCpuResourcesAndLaunch bld type fpType rows cols a s = .ok s' := by
  have hdo : ∃ s', launchDoTile bld type fpType rows cols a s = .ok s' := by
    unfold launchDoTile
    split
    · rcases hfp with rfl | rfl
      · exact ⟨_, rfl⟩
      · exact ⟨_, rfl⟩
    · exact ⟨_, rfl⟩
  unfold computeCpuResourcesAndLaunch
  split
  · cases type <;> first | exact hdo | exact absurd (htype.resolve_right nofun) (by decide)
  · exact ⟨_, rfl⟩

section
variable {J bld}

/-- What a part of a tile's execution does to its profiles. -/
structure TileEffect (R : Absorption bld J.info.profileType J.info.threshold) (t : TilePos)
    (tile : Tile K) (bsA bsB : ℕ → Multiset (Block K)) (tile' : Tile K) : Prop where
  prepared : Prepared (J.operation bld) t tile'
  a : ∀ i, R.rel (tile.profileATileDev i) (bsA i) (tile'.profileATileDev i)
  b : ∀ r, R.rel (tile.profileBTileDev r) (whenOn J.info.computingRows (bsB r)) (tile'.profileBTileDev r)

variable {R : Absorption bld J.info.profileType J.info.threshold} {t : TilePos}
  (htype : entryType J.info.profileType = true) (ht : t ∈ getTiles J.info) {tile tile' : Tile K}

omit [IsStrictOrderedRing K] in
/-- The sizes a pass is launched with. -/
theorem kernelArgs_dims (hprep : Prepared (J.operation bld) t tile) (transpose : Bool) :
    (tile.kernelArgs J.info transpose (!J.info.selfJoin)).toKernelDims = passDims J t transpose := by
  unfold passDims
  rw [← show tile.dims = tileDims J.info t from hprep.dims]
  rfl

omit [IsStrictOrderedRing K] in
theorem TileEffect.trans {tile'' : Tile K} {bsA bsB bsA' bsB' : ℕ → Multiset (Block K)}
    (h : TileEffect R t tile bsA bsB tile') (h' : TileEffect R t tile' bsA' bsB' tile'') :
    TileEffect R t tile (fun i => bsA i + bsA' i) (fun r => bsB r + bsB' r) tile'' := by
  refine ⟨h'.prepared, fun i => R.trans (h.a i) (h'.a i), fun r => ?_⟩
  rw [whenOn_add]
  exact R.trans (h.b r) (h'.b r)

include ht in
theorem passValues_upper (hprep : Prepared (J.operation bld) t tile) :
    PassValues J.info.profileType (tile.kernelArgs J.info false (!J.info.selfJoin))
      (computeQTCPU J.info.maxTileTsSize J.info.mpWindow tile.qt tile.tA tile.tB)
      (passVal J t false) := by
  obtain ⟨_, _, hwidth, hheight⟩ := prepared_dims ht hprep
  intro row hrow d _ hcol
  have hrow : row < tileNumRows J.info t := hheight ▸ hrow
  have hcol : row + d < tileNumCols J.info t := hwidth ▸ hcol
  rw [covAt_upper ht hprep _ row d hrow hcol]
  exact dropNan_cell ht hprep hcol hrow rfl

include ht in
theorem passValues_lower (hprep : Prepared (J.operation bld) t tile) :
    PassValues J.info.profileType (tile.kernelArgs J.info true (!J.info.selfJoin))
      (computeQTCPU J.info.maxTileTsSize J.info.mpWindow tile.qt tile.tB tile.tA)
      (passVal J t true) := by
  obtain ⟨_, _, hwidth, hheight⟩ := prepared_dims ht hprep
  intro row hrow d _ hcol
  have hrow : row < tileNumCols J.info t := hwidth ▸ hrow
  have hcol : row + d < tileNumRows J.info t := hheight ▸ hcol
  rw [covAt_lower ht hprep _ row d hrow hcol, mul_mul_swap]
  exact dropNan_cell ht hprep hrow hcol rfl

omit [HasSqrt K] [IsStrictOrderedRing K] in
theorem ne_matrixSummary {type : SCAMPProfileType} (h : entryType type = true) :
    type ≠ .matrixSummary := by
  rintro rfl
  exact absurd h (by decide)

include htype ht

/-- **One pass over a tile.** -/
theorem runPass_effect (hprep : Prepared (J.operation bld) t tile) {transpose : Bool}
    (h : tile.runPass bld J.info transpose (!J.info.selfJoin) = .ok tile') :
    TileEffect R t tile (passBlocksA J bld.unrollWid t transpose)
      (passBlocksB J bld.unrollWid t transpose) tile' := by
  have hcols : J.info.computingCols = true := J.columns
  have hdims := kernelArgs_dims hprep
  have hon : (J.info.computingRows || J.info.computingCols) = true := by rw [hcols, Bool.or_true]
  have hon' : (J.info.computingCols || J.info.computingRows) = true := by rw [hcols, Bool.true_or]
  unfold Tile.runPass at h
  cases transpose with
  | false =>
      dsimp only at h
      rw [if_neg Bool.false_ne_true] at h
      split at h
      · next s hs =>
          obtain rfl := Except.ok.inj h
          have hs := launch_ok bld hs
          rw [hon, if_pos rfl, hdims, hcols, if_neg Bool.false_ne_true] at hs
          have heffect : PassEffect R J.info.computingRows true
              ⟨computeQTCPU J.info.maxTileTsSize J.info.mpWindow tile.qt tile.tA tile.tB,
                tile.profileATileDev, tile.profileBTileDev⟩
              (passBlocksA J bld.unrollWid t false) (passBlocksB J bld.unrollWid t false) s := by
            unfold passBlocksA passBlocksB
            rw [hs]
            split
            · simp only [Bool.false_eq_true, if_false]
              rw [← hdims false]
              exact doTile_absorbs R (ne_matrixSummary htype) _ _ rfl (passValues_upper ht hprep) rfl
            · exact PassEffect.refl R _ _ _
          exact ⟨hprep.withMemory _ _ _, heffect.column, heffect.row⟩
      · cases h
  | true =>
      -- the profiles change places, and so do the flags
      dsimp only at h
      rw [if_pos rfl] at h
      split at h
      · next s hs =>
          obtain rfl := Except.ok.inj h
          have hs := launch_ok bld hs
          rw [hon', if_pos rfl, hdims, hcols, if_pos rfl] at hs
          have heffect : PassEffect R true J.info.computingRows
              ⟨computeQTCPU J.info.maxTileTsSize J.info.mpWindow tile.qt tile.tB tile.tA,
                tile.profileBTileDev, tile.profileATileDev⟩
              (passBlocksB J bld.unrollWid t true) (passBlocksA J bld.unrollWid t true) s := by
            unfold passBlocksA passBlocksB
            rw [hs]
            split
            · simp only [if_true]
              rw [← hdims true]
              exact doTile_absorbs R (ne_matrixSummary htype) _ _ rfl (passValues_lower ht hprep) rfl
            · exact PassEffect.refl R _ _ _
          exact ⟨hprep.withMemory _ _ _, heffect.row, heffect.column⟩
      · cases h

omit htype ht [HasSqrt K] [IsStrictOrderedRing K] in
theorem runPass_succeeds (htype : CpuType J.info.profileType) (hfp : J.info.fpType = .double ∨ J.info.fpType = .ultra) (transpose : Bool) :
    ∃ tile', tile.runPass bld J.info transpose (!J.info.selfJoin) = .ok tile' := by
  unfold Tile.runPass
  cases transpose with
  | false =>
      obtain ⟨s, hs⟩ := launch_succeeds bld htype hfp J.info.computingRows J.info.computingCols
        (tile.kernelArgs J.info false (!J.info.selfJoin))
        ⟨computeQTCPU J.info.maxTileTsSize J.info.mpWindow tile.qt tile.tA tile.tB,
          tile.profileATileDev, tile.profileBTileDev⟩
      simp only [Bool.false_eq_true, if_false, hs]
      exact ⟨_, rfl⟩
  | true =>
      obtain ⟨s, hs⟩ := launch_succeeds bld htype hfp J.info.computingCols J.info.computingRows
        (tile.kernelArgs J.info true (!J.info.selfJoin))
        ⟨computeQTCPU J.info.maxTileTsSize J.info.mpWindow tile.qt tile.tB tile.tA,
          tile.profileBTileDev, tile.profileATileDev⟩
      simp only [if_true, hs]
      exact ⟨_, rfl⟩

/-! ## The whole tile -/

omit htype [IsStrictOrderedRing K] in
/-- `do_self_join_half`, `do_self_join_full` and `do_ab_join_full` run the passes of the tile in turn. -/
theorem execute_eq (hprep : Prepared (J.operation bld) t tile) :
    tile.execute bld J.info (tileType J.info t) =
      (tilePasses J.info t).foldlM (fun tile transpose =>
        tile.runPass bld J.info transpose (!J.info.selfJoin)) tile := by
  obtain ⟨hfitA, hfitB⟩ := window_le_prepared ht hprep
  have hhalf : tile.doSelfJoinHalf bld J.info = tile.runPass bld J.info false false := by
    unfold Tile.doSelfJoinHalf
    rw [if_neg (Nat.not_lt.mpr hfitA), if_neg (Nat.not_lt.mpr hfitB)]
  unfold tilePasses tileType
  cases hself : J.info.selfJoin with
  | false =>
      simp only [Bool.false_and, Bool.false_eq_true, if_false, Bool.not_false, List.foldlM_cons,
        List.foldlM_nil, bind_pure]
      show tile.doABJoinFull bld J.info = _
      unfold Tile.doABJoinFull
      rw [if_neg (Nat.not_lt.mpr hfitA), if_neg (Nat.not_lt.mpr hfitB)]
      cases tile.runPass bld J.info false true with
      | ok tile => rfl
      | error e => rfl
  | true =>
      simp only [Bool.true_and, if_true, Bool.not_true]
      by_cases hdiag : t.1 = t.2
      · simp only [hdiag, if_true, beq_self_eq_true, List.foldlM_cons, List.foldlM_nil, bind_pure]
        exact hhalf
      · have hbeq : (t.1 == t.2) = false := by simpa using hdiag
        simp only [hdiag, hbeq, if_false, Bool.false_eq_true, List.foldlM_cons, List.foldlM_nil,
          bind_pure, ← hhalf]
        show tile.doSelfJoinFull bld J.info = _
        unfold Tile.doSelfJoinFull
        cases tile.doSelfJoinHalf bld J.info with
        | ok tile => rfl
        | error e => rfl

/-- **Executing a tile** offers its entries what its passes offer them. -/
theorem execute_effect (hprep : Prepared (J.operation bld) t tile)
    (h : tile.execute bld J.info (tileType J.info t) = .ok tile') :
    TileEffect R t tile (tileBlocksA J bld.unrollWid t) (tileBlocksB J bld.unrollWid t) tile' := by
  rw [execute_eq ht hprep] at h
  unfold tileBlocksA tileBlocksB
  generalize tilePasses J.info t = passes at h ⊢
  induction passes generalizing tile with
  | nil =>
      obtain rfl : tile = tile' := Except.ok.inj h
      refine ⟨hprep, fun i => R.refl _, fun r => ?_⟩
      unfold whenOn
      rw [Multiset.coe_nil, Multiset.zero_bind, ite_self]
      exact R.refl _
  | cons transpose passes ih =>
      rw [List.foldlM_cons] at h
      cases hpass : tile.runPass bld J.info transpose (!J.info.selfJoin) with
      | error e =>
          rw [hpass] at h
          cases h
      | ok next =>
          rw [hpass] at h
          have hnext := runPass_effect (R := R) htype ht hprep hpass
          have := hnext.trans (ih hnext.prepared h)
          simpa only [← Multiset.cons_coe, Multiset.cons_bind] using this

omit htype [IsStrictOrderedRing K] in
/-- **A tile never fails** in double or ultra precision. -/
theorem execute_succeeds (htype : CpuType J.info.profileType) (hprep : Prepared (J.operation bld) t tile)
    (hfp : J.info.fpType = .double ∨ J.info.fpType = .ultra) :
    ∃ tile', tile.execute bld J.info (tileType J.info t) = .ok tile' := by
  rw [execute_eq ht hprep]
  generalize tilePasses J.info t = passes
  clear hprep
  induction passes generalizing tile with
  | nil => exact ⟨tile, rfl⟩
  | cons transpose passes ih =>
      have hpass : ∃ next, tile.runPass bld J.info transpose (!J.info.selfJoin) = .ok next :=
        runPass_succeeds htype hfp transpose
      obtain ⟨next, hnext⟩ := hpass
      have hrest : ∃ tile', passes.foldlM (fun tile transpose =>
          tile.runPass bld J.info transpose (!J.info.selfJoin)) next = .ok tile' := ih
      obtain ⟨tile', htile'⟩ := hrest
      refine ⟨tile', ?_⟩
      rw [List.foldlM_cons, hnext]
      exact htile'

end

/-! ## The cells behind a tile's blocks -/

section
variable {J} {U : ℕ} (hU : 0 < U) (t : TilePos)

omit [Field K] [LinearOrder K] [HasSqrt K] [IsStrictOrderedRing K] in
theorem hitsOf_shiftBlocks (off : ℕ) (bs : Multiset (Block K)) :
    hitsOf (shiftBlocks off bs) = (hitsOf bs).map fun h => ⟨h.corr, h.pos + off⟩ := by
  unfold hitsOf shiftBlocks
  rw [Multiset.bind_map, Multiset.map_bind]
  rfl

omit [Field K] [LinearOrder K] [HasSqrt K] [IsStrictOrderedRing K] in
/-- One cell of a pass, as a cell of the distance matrix. -/
theorem map_shift_cell {p q : Prop} [Decidable p] [Decidable q] {x y : K} {i j off : ℕ} (hpq : p ↔ q)
    (hxy : x = y) (hij : i + off = j) :
    (if p then ({⟨x, i⟩} : Multiset (Hit K)) else 0).map (fun h => (⟨h.corr, h.pos + off⟩ : Hit K)) =
      if q then ({⟨y, j⟩} : Multiset (Hit K)) else 0 := by
  subst hxy hij
  by_cases hp : p
  · rw [if_pos hp, if_pos (hpq.mp hp), Multiset.map_singleton]
  · rw [if_neg hp, if_neg fun hq => hp (hpq.mpr hq), Multiset.map_zero]

omit [IsStrictOrderedRing K] in
include hU in
theorem hitsOf_passBlocksA (transpose : Bool) (i : ℕ) :
    hitsOf (shiftBlocks (t.1 * J.info.maxTileWidth) (passBlocksA J U t transpose i)) =
      columnHits J.cellCorr (passCells U J.info t transpose) (t.2 * J.info.maxTileWidth + i) := by
  rw [hitsOf_shiftBlocks]
  unfold passBlocksA passCells launchCells columnHits
  rw [← passDims]
  split
  · rw [← Multiset.map_coe, Multiset.bind_map]
    cases transpose with
    | false =>
        rw [if_neg Bool.false_ne_true, hitsOf_columnBlocks hU, columnHits, Multiset.map_bind]
        exact Multiset.bind_congr fun z _ =>
          map_shift_cell Nat.add_left_cancel_iff.symm rfl (Nat.add_comm _ _)
    | true =>
        rw [if_pos rfl, hitsOf_rowBlocks hU, rowHits, Multiset.map_bind]
        exact Multiset.bind_congr fun z _ =>
          map_shift_cell Nat.add_left_cancel_iff.symm rfl (Nat.add_comm _ _)
  · rfl

omit [IsStrictOrderedRing K] in
include hU in
theorem hitsOf_passBlocksB (transpose : Bool) (r : ℕ) :
    hitsOf (shiftBlocks (t.2 * J.info.maxTileWidth) (passBlocksB J U t transpose r)) =
      rowHits J.cellCorr (passCells U J.info t transpose) (t.1 * J.info.maxTileWidth + r) := by
  rw [hitsOf_shiftBlocks]
  unfold passBlocksB passCells launchCells rowHits
  rw [← passDims]
  split
  · rw [← Multiset.map_coe, Multiset.bind_map]
    cases transpose with
    | false =>
        rw [if_neg Bool.false_ne_true, hitsOf_rowBlocks hU, rowHits, Multiset.map_bind]
        exact Multiset.bind_congr fun z _ =>
          map_shift_cell Nat.add_left_cancel_iff.symm rfl (Nat.add_comm _ _)
    | true =>
        rw [if_pos rfl, hitsOf_columnBlocks hU, columnHits, Multiset.map_bind]
        exact Multiset.bind_congr fun z _ =>
          map_shift_cell Nat.add_left_cancel_iff.symm rfl (Nat.add_comm _ _)
  · rfl

omit [IsStrictOrderedRing K] in
include hU in
/-- **What a tile offers the entry of a column are its cells in that column.** -/
theorem hitsOf_tileBlocksA (i : ℕ) :
    hitsOf (shiftBlocks (t.1 * J.info.maxTileWidth) (tileBlocksA J U t i)) =
      columnHits J.cellCorr (tileCells U J.info t) (t.2 * J.info.maxTileWidth + i) := by
  unfold tileBlocksA tileCells shiftBlocks
  rw [Multiset.map_bind, hitsOf_bind, columnHits, ← Multiset.coe_bind, Multiset.bind_assoc]
  exact Multiset.bind_congr fun p _ => hitsOf_passBlocksA hU t p i

omit [IsStrictOrderedRing K] in
include hU in
theorem hitsOf_tileBlocksB (r : ℕ) :
    hitsOf (shiftBlocks (t.2 * J.info.maxTileWidth) (tileBlocksB J U t r)) =
      rowHits J.cellCorr (tileCells U J.info t) (t.1 * J.info.maxTileWidth + r) := by
  unfold tileBlocksB tileCells shiftBlocks
  rw [Multiset.map_bind, hitsOf_bind, rowHits, ← Multiset.coe_bind, Multiset.bind_assoc]
  exact Multiset.bind_congr fun p _ => hitsOf_passBlocksB hU t p r

end

end

end Scamp
