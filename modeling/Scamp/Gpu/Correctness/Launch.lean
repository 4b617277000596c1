import Scamp.Gpu.Correctness.Threads

/-!
# `Gpu.Correctness.Launch` — the cells a GPU launch merges

A launch merges the cells of the diagonals its blocks have, once each (`mem_gridCells`,
`nodup_gridCells`). The kernels count one diagonal more than the launch does: `num_diags` has a `+ 1` that
`num_workers` lacks. `gpuLaunch_merges_iff` says when that matters.
-/

namespace Scamp

open Lib

section
variable {cfg : KernelConfig} {a : KernelDims}

/-! ## The launch -/

/-- The number of blocks: enough for all diagonals but one. -/
theorem lt_numBlocks_iff {b : ℕ} :
    b < numBlocks cfg a ↔ b * cfg.blockDiags < a.nX - (a.exclusionLower + a.exclusionUpper) := by
  have hB : (0 : ℚ) < cfg.blocksz := by exact_mod_cast cfg.blocksz_pos
  have hD : (0 : ℚ) < cfg.diagsPerThread := by exact_mod_cast cfg.diags_pos
  unfold numBlocks
  rw [Nat.lt_ceil, lt_div_iff₀ hB]
  norm_cast
  unfold numWorkers
  rw [Nat.lt_ceil, lt_div_iff₀ hD]
  norm_cast
  unfold KernelConfig.blockDiags
  rw [Nat.mul_assoc]

theorem block_unique_of_cell {b b' : ℕ} {z : ℕ × ℕ} (h : BlockCell cfg a b z) (h' : BlockCell cfg a b' z) :
    b = b' := by
  obtain ⟨_, h1, h2⟩ := h
  obtain ⟨_, h1', h2'⟩ := h'
  unfold blockStartCol at h1 h2 h1' h2'
  have hb := (le_mul_iff_block cfg.blockDiags_pos (x := z.2 - a.exclusionLower - z.1) (i := b)).mp
    ⟨by omega, by omega⟩
  have hb' := (le_mul_iff_block cfg.blockDiags_pos (x := z.2 - a.exclusionLower - z.1) (i := b')).mp
    ⟨by omega, by omega⟩
  exact hb.trans hb'.symm

section
variable {type : SCAMPProfileType} {full : ℕ → ℕ → Bool}

/-- **The cells of a launch**: those of its blocks, as far as these go. -/
theorem mem_gridCells {z : ℕ × ℕ} : z ∈ gridCells cfg a type full ↔
    ∃ b < numBlocks cfg a, BlockCell cfg a b z ∧
      ∀ j < z.1 / cfg.tileHeight, (needsCheckIfDone type && full b j) = false := by
  unfold gridCells
  rw [List.mem_flatMap]
  constructor
  · rintro ⟨b, hb, hz⟩
    obtain ⟨t, ht, hz⟩ := List.mem_flatMap.mp hz
    have ht := List.mem_range.mp ht
    obtain ⟨hlane, hgo⟩ := (mem_threadCells _ ht).mp hz
    exact ⟨b, List.mem_range.mp hb, exists_lane_iff.mp ⟨t, ht, hlane⟩, hgo⟩
  · rintro ⟨b, hb, hcell, hgo⟩
    obtain ⟨t, ht, hlane⟩ := exists_lane_iff.mpr hcell
    refine ⟨b, List.mem_range.mpr hb, List.mem_flatMap.mpr ⟨t, List.mem_range.mpr ht, ?_⟩⟩
    exact (mem_threadCells _ ht).mpr ⟨hlane, hgo⟩

/-- **No cell is merged twice.** -/
theorem nodup_gridCells : (gridCells cfg a type full).Nodup := by
  unfold gridCells
  refine nodup_flatMap_of_inj List.nodup_range ?_ ?_
  · intro b _
    refine nodup_flatMap_of_inj List.nodup_range (fun t ht => nodup_threadCells _ (List.mem_range.mp ht) b) ?_
    intro t ht t' ht' z hz hz'
    have ht := List.mem_range.mp ht
    have ht' := List.mem_range.mp ht'
    exact lane_unique ht ht' ((mem_threadCells _ ht).mp hz).1 ((mem_threadCells _ ht').mp hz').1
  · intro b _ b' _ z hz hz'
    have hcell : ∀ b, z ∈ ((List.range cfg.blocksz).flatMap fun thread =>
        threadCells cfg a (fun k => needsCheckIfDone type && full b k) b thread) → BlockCell cfg a b z := by
      intro b hz
      obtain ⟨t, ht, hz⟩ := List.mem_flatMap.mp hz
      have ht := List.mem_range.mp ht
      exact exists_lane_iff.mp ⟨t, ht, ((mem_threadCells _ ht).mp hz).1⟩
    exact block_unique_of_cell (hcell b hz) (hcell b' hz')

end

/-- The cells a pass is to compare. -/
def PassCell (a : KernelDims) (r c : ℕ) : Prop :=
  r < a.nY ∧ c < a.nX ∧ r + a.exclusionLower ≤ c ∧ c + a.exclusionUpper ≤ r + a.nX

instance (a : KernelDims) (r c : ℕ) : Decidable (PassCell a r c) :=
  inferInstanceAs (Decidable (_ ∧ _ ∧ _ ∧ _))

/-- The last diagonal is none of the launch's blocks': there is one beyond the main diagonals that the
    launch counts, and those fill the blocks. -/
def LastDiagonalLost (cfg : KernelConfig) (a : KernelDims) : Prop :=
  0 < a.exclusionUpper ∧ cfg.blockDiags ∣ a.nX - (a.exclusionLower + a.exclusionUpper)

/-- A block stops for a full match list before it has come to its last tile. -/
def StopsEarly (cfg : KernelConfig) (a : KernelDims) (type : SCAMPProfileType) (full : ℕ → ℕ → Bool) : Prop :=
  ∃ b < numBlocks cfg a, ∃ k, (needsCheckIfDone type && full b k) = true ∧
    blockStartCol cfg a b + (k + 1) * cfg.tileHeight < a.nX ∧ (k + 1) * cfg.tileHeight < a.nY

section
variable (hnY : 0 < a.nY) (hdims : a.exclusionLower + a.exclusionUpper < a.nX)
include hdims

/-- Off the last diagonal, a cell of the pass is one of a launched block. -/
theorem exists_block_of_passCell (hkept : ¬LastDiagonalLost cfg a) {r c : ℕ} (h : PassCell a r c) :
    ∃ b < numBlocks cfg a, BlockCell cfg a b (r, c) := by
  obtain ⟨hr, hc, hlower, hupper⟩ := h
  have hn := cfg.blockDiags_pos
  have hle := Nat.div_mul_le_self (c - r - a.exclusionLower) cfg.blockDiags
  have hlt := Nat.lt_div_mul_add hn (a := c - r - a.exclusionLower)
  refine ⟨(c - r - a.exclusionLower) / cfg.blockDiags, ?_, ⟨hr, hc, ?_⟩, ?_, ?_⟩
  · rw [lt_numBlocks_iff]
    rcases Nat.lt_or_ge (c - r - a.exclusionLower) (a.nX - (a.exclusionLower + a.exclusionUpper)) with hd | hd
    · omega
    · -- the diagonal beyond those the launch counts
      have hpos : 0 < a.exclusionUpper := by omega
      have hndvd : ¬cfg.blockDiags ∣ a.nX - (a.exclusionLower + a.exclusionUpper) :=
        fun hdvd => hkept ⟨hpos, hdvd⟩
      have heq : c - r - a.exclusionLower = a.nX - (a.exclusionLower + a.exclusionUpper) := by omega
      rw [heq] at hle ⊢
      exact lt_of_le_of_ne hle fun hmul => hndvd ⟨_, by rw [Nat.mul_comm]; exact hmul.symm⟩
  · unfold KernelDims.numDiags
    dsimp only
    omega
  · unfold blockStartCol
    dsimp only
    omega
  · unfold blockStartCol
    dsimp only
    omega

omit hdims in
theorem passCell_of_blockCell {b r c : ℕ} (h : BlockCell cfg a b (r, c))
    (hdims : a.exclusionLower + a.exclusionUpper < a.nX) : PassCell a r c := by
  obtain ⟨⟨hr, hc, hd⟩, hle, _⟩ := h
  unfold blockStartCol at hle
  unfold KernelDims.numDiags at hd
  dsimp only at hr hc hd hle
  exact ⟨hr, hc, by omega, by omega⟩

include hnY

/-- **When a launch merges each cell of the pass once, and no other.** -/
theorem gridCells_count_iff (type : SCAMPProfileType) (full : ℕ → ℕ → Bool) :
    (∀ r c, (gridCells cfg a type full).count (r, c) = if PassCell a r c then 1 else 0) ↔
      ¬LastDiagonalLost cfg a ∧ ¬StopsEarly cfg a type full := by
  have hn := cfg.blockDiags_pos
  have hcount : ∀ r c, (gridCells cfg a type full).count (r, c) =
      if (r, c) ∈ gridCells cfg a type full then 1 else 0 := fun r c => nodup_gridCells.count
  have hiff : (∀ r c, (gridCells cfg a type full).count (r, c) = if PassCell a r c then 1 else 0) ↔
      ∀ r c, PassCell a r c → (r, c) ∈ gridCells cfg a type full := by
    constructor
    · intro h r c hcell
      have := h r c
      rw [hcount, if_pos hcell] at this
      by_contra hno
      rw [if_neg hno] at this
      exact absurd this Nat.zero_ne_one
    · intro h r c
      rw [hcount]
      refine if_congr ⟨fun hmem => ?_, h r c⟩ rfl rfl
      obtain ⟨b, _, hcell, _⟩ := mem_gridCells.mp hmem
      exact passCell_of_blockCell hcell hdims
  rw [hiff]
  constructor
  · intro h
    constructor
    · rintro ⟨hpos, q, hq⟩
      -- the first cell of the last diagonal
      obtain ⟨b, hb, ⟨_, hle, hlt⟩, _⟩ := mem_gridCells.mp
        (h 0 (a.nX - a.exclusionUpper) ⟨hnY, by omega, by omega, by omega⟩)
      rw [lt_numBlocks_iff, hq, Nat.mul_comm b] at hb
      unfold blockStartCol at hle hlt
      dsimp only at hle hlt
      have hbq := Nat.lt_of_mul_lt_mul_left hb
      have := Nat.mul_le_mul_left cfg.blockDiags hbq
      rw [Nat.mul_comm, Nat.succ_mul] at this
      omega
    · rintro ⟨b, hb, k, hstop, hx, hy⟩
      have hin := lt_numBlocks_iff.mp hb
      obtain ⟨b', _, hcell, hgo⟩ := mem_gridCells.mp
        (h ((k + 1) * cfg.tileHeight) (blockStartCol cfg a b + (k + 1) * cfg.tileHeight)
          ⟨hy, hx, by unfold blockStartCol; omega, by unfold blockStartCol; omega⟩)
      have hown : BlockCell cfg a b ((k + 1) * cfg.tileHeight,
          blockStartCol cfg a b + (k + 1) * cfg.tileHeight) := by
        refine ⟨⟨hy, hx, ?_⟩, Nat.le_refl _, by dsimp only; omega⟩
        unfold blockStartCol KernelDims.numDiags
        dsimp only
        omega
      obtain rfl := block_unique_of_cell hcell hown
      have hk := hgo k (by rw [Nat.mul_div_cancel _ cfg.tileHeight_pos]; exact Nat.lt_succ_self k)
      rw [hstop] at hk
      exact absurd hk Bool.noConfusion
  · rintro ⟨hkept, hgo⟩ r c hcell
    obtain ⟨b, hb, hblock⟩ := exists_block_of_passCell hdims hkept hcell
    refine mem_gridCells.mpr ⟨b, hb, hblock, fun j hj => ?_⟩
    by_contra hstop
    have hrow : (j + 1) * cfg.tileHeight ≤ r := (Nat.le_div_iff_mul_le cfg.tileHeight_pos).mp hj
    obtain ⟨⟨hr, hc, _⟩, hle, _⟩ := hblock
    dsimp only at hr hc hle
    exact hgo ⟨b, hb, j, Bool.not_eq_false _ ▸ hstop, by omega, by omega⟩

end

/-- **The cells of the CPU kernel**, each once. -/
theorem doTileCells_count {U : ℕ} (hU : 0 < U) (hdims : a.exclusionLower + a.exclusionUpper < a.nX)
    (r c : ℕ) : (doTileCells U a).count (r, c) = if PassCell a r c then 1 else 0 := by
  rw [(nodup_doTileCells hU a).count]
  refine if_congr ?_ rfl rfl
  rw [mem_doTileCells hU]
  unfold PassCell KernelDims.numDiags
  omega

end

/-- The profile types the GPU kernels are compiled for. -/
def GpuType (type : SCAMPProfileType) : Prop :=
  type ∈ [.sumThresh, .oneNNIndex, .oneNN, .approxAllNeighbors, .matrixSummary]

/-- The precisions the GPU kernels are compiled for. -/
def GpuPrecision (fpType : SCAMPPrecisionType) : Prop := fpType ∈ [.ultra, .double, .single]

/-- A launch whose exclusions do not swallow the pass starts the kernel. -/
theorem computeGpuResourcesAndLaunch_ok (cfg : KernelConfig) (smemForBsz : ℕ → ℕ) (cap : ℕ) {a : KernelDims}
    (hdims : a.exclusionLower + a.exclusionUpper < a.nX) {type : SCAMPProfileType} (htype : GpuType type)
    {fpType : SCAMPPrecisionType} (hfp : GpuPrecision fpType) {computingRows computingCols : Bool}
    (hon : (computingRows || computingCols) = true) (full : ℕ → ℕ → Bool) :
    computeGpuResourcesAndLaunch cfg smemForBsz cap a type fpType computingRows computingCols full =
      .ok (gridCells (cfg.clamp smemForBsz cap) a type full) := by
  unfold computeGpuResourcesAndLaunch
  rw [if_neg (by omega)]
  have hlaunch : launchDoTileGpu (cfg.clamp smemForBsz cap) a type fpType computingRows computingCols full =
      .ok (gridCells (cfg.clamp smemForBsz cap) a type full) := by
    unfold launchDoTileGpu
    rw [if_pos hon]
    unfold GpuPrecision at hfp
    simp only [List.mem_cons, List.not_mem_nil, or_false] at hfp
    rcases hfp with rfl | rfl | rfl <;> rfl
  unfold GpuType at htype
  simp only [List.mem_cons, List.not_mem_nil, or_false] at htype
  rcases htype with rfl | rfl | rfl | rfl | rfl <;> exact hlaunch

/-- **A GPU launch against the CPU kernel.** For every geometry, a launch merges each cell that `do_tile` of
    the CPU visits exactly once, and no other cell, unless the last diagonal is lost to the rounding of the
    grid size, or a block stops early for a full match list. -/
theorem gpuLaunch_merges_iff (cfg : KernelConfig) (smemForBsz : ℕ → ℕ) (cap : ℕ) (a : KernelDims)
    (type : SCAMPProfileType) (htype : GpuType type) (fpType : SCAMPPrecisionType)
    (hfp : GpuPrecision fpType) (computingRows computingCols : Bool)
    (hon : (computingRows || computingCols) = true) (full : ℕ → ℕ → Bool) (U : ℕ) (hU : 0 < U)
    (hnY : 0 < a.nY) (hdims : a.exclusionLower + a.exclusionUpper < a.nX) :
    ∃ cells, computeGpuResourcesAndLaunch cfg smemForBsz cap a type fpType computingRows computingCols full =
        .ok cells ∧
      (∀ r c, (doTileCells U a).count (r, c) = if PassCell a r c then 1 else 0) ∧
      ((∀ r c, cells.count (r, c) = (doTileCells U a).count (r, c)) ↔
        ¬LastDiagonalLost (cfg.clamp smemForBsz cap) a ∧
          ¬StopsEarly (cfg.clamp smemForBsz cap) a type full) := by
  refine ⟨_, computeGpuResourcesAndLaunch_ok cfg smemForBsz cap hdims htype hfp hon full,
    doTileCells_count hU hdims, ?_⟩
  simp only [doTileCells_count hU hdims]
  exact gridCells_count_iff hnY hdims type full

/-- A variant of the build: four diagonals to a thread, tiles of 256 rows. -/
def bigTileConfig : KernelConfig where
  blocksz := 256
  diagsPerThread := 4
  unrolledRows := 4
  outerUnrolledRows := 16
  kernelTileIters := 16
  blocksz_mem := by decide
  diags_pos := by decide
  rows_pos := by decide
  iters_pos := by decide

/-- With shared memory to spare the block size stays as it is. -/
theorem clamp_zero (cfg : KernelConfig) : (cfg.clamp (fun _ => 0) 0).blockDiags = cfg.blockDiags := by
  have hblocksz : clampBlocksz (fun _ => 0) 0 cfg.blocksz = cfg.blocksz := by
    rw [clampBlocksz, if_neg fun h => Nat.lt_irrefl 0 h.2]
  show clampBlocksz (fun _ => 0) 0 cfg.blocksz * cfg.diagsPerThread = _
  rw [hblocksz]
  rfl

theorem gpuLaunch_merges_iff_small : ∃ cells,
    computeGpuResourcesAndLaunch bigTileConfig (fun _ => 0) 0 ⟨8, 8, 1, 1⟩ .oneNNIndex .double true true
      (fun _ _ => false) = .ok cells ∧
    ∀ r c, cells.count (r, c) = (doTileCells 256 ⟨8, 8, 1, 1⟩).count (r, c) := by
  obtain ⟨cells, hcells, _, hiff⟩ := gpuLaunch_merges_iff bigTileConfig (fun _ => 0) 0 ⟨8, 8, 1, 1⟩
    .oneNNIndex (by unfold GpuType; decide) .double (by unfold GpuPrecision; decide) true true rfl
    (fun _ _ => false) 256 (by decide) (by decide) (by decide)
  refine ⟨cells, hcells, hiff.mpr ⟨?_, ?_⟩⟩
  · rintro ⟨_, hdvd⟩
    rw [clamp_zero] at hdvd
    exact absurd hdvd (by decide)
  · rintro ⟨_, _, _, hstop, _⟩
    simp at hstop

/-- **A lost diagonal.** In a pass of 1025 columns with one diagonal left out at the end, as the lower pass
    of a tile next to the main diagonal has it for a window of `4`, the 1024 diagonals that the launch counts
    are one block, and the last cell of the first row is not merged. -/
theorem bigTile_loses_diagonal : ∃ cells,
    computeGpuResourcesAndLaunch bigTileConfig (fun _ => 0) 0 ⟨1025, 1025, 0, 1⟩ .oneNNIndex .double true true
      (fun _ _ => false) = .ok cells ∧
    cells.count (0, 1024) = 0 ∧ (doTileCells 256 ⟨1025, 1025, 0, 1⟩).count (0, 1024) = 1 := by
  refine ⟨_, computeGpuResourcesAndLaunch_ok _ _ _ (by decide) (by unfold GpuType; decide)
    (by unfold GpuPrecision; decide) rfl _, ?_, ?_⟩
  · rw [List.count_eq_zero]
    intro hmem
    obtain ⟨b, hb, ⟨_, hle, hlt⟩, _⟩ := mem_gridCells.mp hmem
    rw [lt_numBlocks_iff, clamp_zero] at hb
    unfold blockStartCol at hle hlt
    rw [clamp_zero] at hle hlt
    have hdiags : bigTileConfig.blockDiags = 1024 := rfl
    rw [hdiags] at hb hle hlt
    dsimp only at hb hle hlt
    omega
  · rw [doTileCells_count (by decide) (by decide)]
    exact if_pos (by decide)

end Scamp
