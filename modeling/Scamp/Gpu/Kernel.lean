import Scamp.Core.Kernel
import Mathlib.Algebra.Order.Floor.Semiring

/-!
# `Gpu.Kernel` — the GPU kernels and their launch

`compute_gpu_resources_and_launch` (`kernels.cu`) and the two kernels it may start: `do_tile`
(`kernels_impl.h`), where every thread walks its own diagonals, and `do_tile_shfl`
(`kernels_impl_shfl.h`), where every thread owns columns, which move on as the rows go by, and the
covariances walk from thread to thread instead. A thread block works down one meta-diagonal in tiles of
`tile_height` rows.

A kernel is given here by the cells whose correlations it merges, in the order a thread comes to them, and
by the positions that decide which cells these are. The values are those of the recurrence `Core.Kernel`
has; that the threads of a block take turns is left out, since no thread's cells depend on another's.
-/

namespace Scamp

/-! ## Launch geometry -/

/-- The geometry of a kernel launch (`KernelConfig`), as far as the cells depend on it. `unrolled_rows` is
    `0` for the covariance-shuffling kernel. -/
structure KernelConfig where
  blocksz : ℕ
  diagsPerThread : ℕ
  unrolledRows : ℕ
  outerUnrolledRows : ℕ
  kernelTileIters : ℕ
  blocksz_mem : blocksz ∈ [64, 128, 256, 512]
  diags_pos : 0 < diagsPerThread
  rows_pos : 0 < outerUnrolledRows
  iters_pos : 0 < kernelTileIters

namespace KernelConfig
variable (cfg : KernelConfig)

def tileHeight : ℕ := cfg.kernelTileIters * cfg.outerUnrolledRows

/-- `BLOCKSZ * DiagsPerThread`, the diagonals of a thread block. -/
def blockDiags : ℕ := cfg.blocksz * cfg.diagsPerThread

def tileWidth : ℕ := cfg.tileHeight + cfg.blockDiags

theorem tileHeight_pos : 0 < cfg.tileHeight := Nat.mul_pos cfg.iters_pos cfg.rows_pos

theorem blocksz_pos : 0 < cfg.blocksz := by
  have := cfg.blocksz_mem
  simp only [List.mem_cons, List.not_mem_nil, or_false] at this
  omega

theorem blockDiags_pos : 0 < cfg.blockDiags := Nat.mul_pos cfg.blocksz_pos cfg.diags_pos

end KernelConfig

/-- `while (blocksz > 64 && smem_for_bsz(blocksz) > cap) blocksz /= 2`. -/
def clampBlocksz (smemForBsz : ℕ → ℕ) (cap blocksz : ℕ) : ℕ :=
  if 64 < blocksz ∧ cap < smemForBsz blocksz then clampBlocksz smemForBsz cap (blocksz / 2) else blocksz
termination_by blocksz

/-- Halving stays in the set of block sizes the kernels are compiled for. -/
theorem clampBlocksz_mem (smemForBsz : ℕ → ℕ) (cap : ℕ) {blocksz : ℕ}
    (h : blocksz ∈ [64, 128, 256, 512]) : clampBlocksz smemForBsz cap blocksz ∈ [64, 128, 256, 512] := by
  induction blocksz using clampBlocksz.induct smemForBsz cap with
  | case1 blocksz hcap ih =>
      rw [clampBlocksz, if_pos hcap]
      apply ih
      simp only [List.mem_cons, List.not_mem_nil, or_false] at h ⊢
      omega
  | case2 blocksz hcap =>
      rw [clampBlocksz, if_neg hcap]
      exact h

/-- The configuration with the block size clamped to the shared memory a block may have. -/
def KernelConfig.clamp (cfg : KernelConfig) (smemForBsz : ℕ → ℕ) (cap : ℕ) : KernelConfig :=
  { cfg with
    blocksz := clampBlocksz smemForBsz cap cfg.blocksz
    blocksz_mem := clampBlocksz_mem smemForBsz cap cfg.blocksz_mem }

/-- `num_workers`. -/
def numWorkers (cfg : KernelConfig) (a : KernelDims) : ℕ :=
  ⌈((a.nX - (a.exclusionLower + a.exclusionUpper) : ℕ) : ℚ) / cfg.diagsPerThread⌉₊

/-- `num_blocks`. -/
def numBlocks (cfg : KernelConfig) (a : KernelDims) : ℕ := ⌈(numWorkers cfg a : ℚ) / cfg.blocksz⌉₊

/-! ## The loop over the tiles of a block -/

/-- Whether a kernel stops early when a match list is full. -/
def needsCheckIfDone (type : SCAMPProfileType) : Bool := type == .approxAllNeighbors

/-- `tile_start_col` of the first tile of a block. -/
def blockStartCol (cfg : KernelConfig) (a : KernelDims) (block : ℕ) : ℕ :=
  block * cfg.blockDiags + a.exclusionLower

/-- `while (tile_start_col < args.n_x && tile_start_row < args.n_y)`, the same in both kernels, for one
    thread: `work` is what the thread does in a tile, from the tile's first column and row on. `stop k`
    tells whether the block stops after its `k`-th tile. -/
def tileLoop {σ : Type} (cfg : KernelConfig) (a : KernelDims) (work : ℕ → ℕ → σ → List (ℕ × ℕ) × σ)
    (stop : ℕ → Bool) (k tileStartCol tileStartRow : ℕ) (s : σ) : List (ℕ × ℕ) :=
  if tileStartCol < a.nX ∧ tileStartRow < a.nY then
    (work tileStartCol tileStartRow s).1 ++
      if stop k then []
      else tileLoop cfg a work stop (k + 1) (tileStartCol + cfg.tileHeight)
        (tileStartRow + cfg.tileHeight) (work tileStartCol tileStartRow s).2
  else []
termination_by a.nY - tileStartRow
decreasing_by
  have := cfg.tileHeight_pos
  omega

/-! ## The sliding-window kernel -/

/-- The positions of a thread (`SCAMPThreadInfo`); `local_col` goes along with `local_row`. -/
structure SCAMPThreadInfo where
  globalCol : ℕ
  globalRow : ℕ
  localRow : ℕ

/-- `do_iteration_fast`: `outer_unrolled_rows` rows of the thread's diagonals, without a check. The rows are
    taken in batches of `unrolled_rows`. -/
def doIterationFast (cfg : KernelConfig) (info : SCAMPThreadInfo) : List (ℕ × ℕ) × SCAMPThreadInfo :=
  ((List.range cfg.outerUnrolledRows).flatMap fun row =>
      (List.range cfg.diagsPerThread).map fun i => (info.globalRow + row, info.globalCol + (row + i)),
    ⟨info.globalCol + cfg.outerUnrolledRows, info.globalRow + cfg.outerUnrolledRows,
      info.localRow + cfg.outerUnrolledRows⟩)

/-- The fast path of a tile. -/
def fastPath (cfg : KernelConfig) (info : SCAMPThreadInfo) : List (ℕ × ℕ) × SCAMPThreadInfo :=
  if info.localRow < cfg.tileHeight then
    let next := doIterationFast cfg info
    let rest := fastPath cfg next.2
    (next.1 ++ rest.1, rest.2)
  else ([], info)
termination_by cfg.tileHeight - info.localRow
decreasing_by
  have := cfg.rows_pos
  show cfg.tileHeight - (info.localRow + cfg.outerUnrolledRows) < _
  omega

/-- `do_row_edge`: one row, with the checks of `reduce_edge`. -/
def doRowEdge (cfg : KernelConfig) (a : KernelDims) (startDiag : ℕ) (info : SCAMPThreadInfo) :
    List (ℕ × ℕ) :=
  ((List.range cfg.diagsPerThread).filter fun i =>
    info.globalCol + i < a.nX ∧ startDiag + i < a.numDiags).map fun i =>
      (info.globalRow, info.globalCol + i)

/-- The slow path of a tile. -/
def slowPath (cfg : KernelConfig) (a : KernelDims) (startDiag : ℕ) (info : SCAMPThreadInfo) :
    List (ℕ × ℕ) × SCAMPThreadInfo :=
  if info.globalCol < a.nX ∧ info.globalRow < a.nY ∧ info.localRow < cfg.tileHeight then
    let rest := slowPath cfg a startDiag ⟨info.globalCol + 1, info.globalRow + 1, info.localRow + 1⟩
    (doRowEdge cfg a startDiag info ++ rest.1, rest.2)
  else ([], info)
termination_by cfg.tileHeight - info.localRow

/-- `start_diag`. -/
def startDiag (cfg : KernelConfig) (a : KernelDims) (block thread : ℕ) : ℕ :=
  a.exclusionLower + thread * cfg.diagsPerThread + block * cfg.blockDiags

/-- One tile of `do_tile`, for one thread. -/
def doTileWork (cfg : KernelConfig) (a : KernelDims) (block thread tileStartCol tileStartRow : ℕ)
    (info : SCAMPThreadInfo) : List (ℕ × ℕ) × SCAMPThreadInfo :=
  let diag := startDiag cfg a block thread
  let info := { info with localRow := 0 }
  if tileStartCol + cfg.tileWidth < a.nX ∧ tileStartRow + cfg.tileHeight < a.nY ∧
      diag + cfg.diagsPerThread ≤ a.numDiags then fastPath cfg info
  else if diag < a.numDiags then slowPath cfg a diag info
  else ([], info)

/-- `do_tile`, for one thread. -/
def doTileThread (cfg : KernelConfig) (a : KernelDims) (stop : ℕ → Bool) (block thread : ℕ) :
    List (ℕ × ℕ) :=
  let col := blockStartCol cfg a block
  tileLoop cfg a (doTileWork cfg a block thread) stop 0 col 0 ⟨col + thread * cfg.diagsPerThread, 0, 0⟩

/-! ## The covariance-shuffling kernel -/

/-- The positions of a thread (`SCAMPShflState`): the column of each of its slots, in the matrix and in the
    tile, and the countdown to the next slot that moves on. -/
structure SCAMPShflState where
  globalCol : ℕ → ℕ
  localCol : ℕ → ℕ
  updatesRemaining : ℕ

/-- `update_info_shfl`, when the countdown has come to one of the slots, and the countdown itself. The
    ladder of `do_update_info_shfl` has a rung for every slot there can be. -/
def updateInfoShfl (cfg : KernelConfig) (s : SCAMPShflState) : SCAMPShflState :=
  if s.updatesRemaining < cfg.diagsPerThread then
    let col := cfg.diagsPerThread - 1 - s.updatesRemaining
    { globalCol := Function.update s.globalCol col (s.globalCol col + cfg.blockDiags)
      localCol := Function.update s.localCol col (s.localCol col + cfg.blockDiags)
      updatesRemaining :=
        (if s.updatesRemaining = 0 then cfg.blockDiags else s.updatesRemaining) - 1 }
  else { s with updatesRemaining := s.updatesRemaining - 1 }

/-- `slot_valid` of `do_row_shfl`. The differences are of signed numbers in the tile and of unsigned ones in
    the matrix; both checks fail when they would be negative. -/
def slotValid (cfg : KernelConfig) (a : KernelDims) (fast : Bool) (tileStartRow row : ℕ)
    (s : SCAMPShflState) (i : ℕ) : Bool :=
  decide (row ≤ s.localCol i ∧ s.localCol i - row < cfg.blockDiags) &&
    (fast || decide (tileStartRow + row < a.nY ∧ s.globalCol i < a.nX ∧
      tileStartRow + row ≤ s.globalCol i ∧ s.globalCol i - (tileStartRow + row) < a.numDiags))

/-- The rows of a tile, from row `row` on, each one `do_row_shfl`. -/
def doRowsShfl (cfg : KernelConfig) (a : KernelDims) (fast : Bool) (tileStartRow : ℕ) :
    ℕ → ℕ → SCAMPShflState → List (ℕ × ℕ) × SCAMPShflState
  | 0, _, s => ([], s)
  | n + 1, row, s =>
      let rest := doRowsShfl cfg a fast tileStartRow n (row + 1) (updateInfoShfl cfg s)
      (((List.range cfg.diagsPerThread).filter fun i => slotValid cfg a fast tileStartRow row s i).map
        (fun i => (tileStartRow + row, s.globalCol i)) ++ rest.1, rest.2)

/-- One tile of `do_tile_shfl`, for one thread. -/
def doTileShflWork (cfg : KernelConfig) (a : KernelDims) (tileStartCol tileStartRow : ℕ)
    (s : SCAMPShflState) : List (ℕ × ℕ) × SCAMPShflState :=
  let fast := decide (tileStartCol + cfg.tileWidth < a.nX ∧ tileStartRow + cfg.tileHeight < a.nY ∧
    tileStartCol + cfg.blockDiags ≤ a.numDiags ∧ a.exclusionUpper + cfg.tileHeight ≤ tileStartCol)
  doRowsShfl cfg a fast tileStartRow cfg.tileHeight 0
    { s with localCol := fun i => s.globalCol i - tileStartCol }

/-- `do_tile_shfl`, for one thread. -/
def doTileShflThread (cfg : KernelConfig) (a : KernelDims) (stop : ℕ → Bool) (block thread : ℕ) :
    List (ℕ × ℕ) :=
  let col := blockStartCol cfg a block
  tileLoop cfg a (doTileShflWork cfg a) stop 0 col 0
    { globalCol := fun i => col + thread * cfg.diagsPerThread + i
      localCol := fun i => thread * cfg.diagsPerThread + i
      updatesRemaining := thread * cfg.diagsPerThread + (cfg.diagsPerThread - 1) }

/-! ## The launch -/

/-- The cells of a thread, by the kernel the configuration names. -/
def threadCells (cfg : KernelConfig) (a : KernelDims) (stop : ℕ → Bool) (block thread : ℕ) :
    List (ℕ × ℕ) :=
  if cfg.unrolledRows = 0 then doTileShflThread cfg a stop block thread
  else doTileThread cfg a stop block thread

/-- The cells of all blocks of a launch. `full b k` tells whether a match list is full when block `b` has
    written back its `k`-th tile. -/
def gridCells (cfg : KernelConfig) (a : KernelDims) (type : SCAMPProfileType) (full : ℕ → ℕ → Bool) :
    List (ℕ × ℕ) :=
  (List.range (numBlocks cfg a)).flatMap fun block =>
    (List.range cfg.blocksz).flatMap fun thread =>
      threadCells cfg a (fun k => needsCheckIfDone type && full block k) block thread

/-- `LaunchDoTileWithGeometry` and `LaunchDoTileShflWithGeometry`, by precision. -/
def launchDoTileGpu (cfg : KernelConfig) (a : KernelDims) (type : SCAMPProfileType)
    (fpType : SCAMPPrecisionType) (computingRows computingCols : Bool) (full : ℕ → ℕ → Bool) :
    Except SCAMPError (List (ℕ × ℕ)) :=
  if computingRows || computingCols then
    match fpType with
    | .ultra | .double | .single => .ok (gridCells cfg a type full)
    | _ => .error .cudaError
  else .ok []

/-- `compute_gpu_resources_and_launch`, the cells it merges. `smemForBsz` is the shared memory a block of a
    size takes, `cap` what a block may have. -/
def computeGpuResourcesAndLaunch (cfg : KernelConfig) (smemForBsz : ℕ → ℕ) (cap : ℕ) (a : KernelDims)
    (type : SCAMPProfileType) (fpType : SCAMPPrecisionType) (computingRows computingCols : Bool)
    (full : ℕ → ℕ → Bool) : Except SCAMPError (List (ℕ × ℕ)) :=
  if a.exclusionLower + a.exclusionUpper ≥ a.nX then .ok []
  else
    match type with
    | .sumThresh | .oneNNIndex | .oneNN | .approxAllNeighbors | .matrixSummary =>
        launchDoTileGpu (cfg.clamp smemForBsz cap) a type fpType computingRows computingCols full
    | _ => .error .functionalityUnimplemented

end Scamp
