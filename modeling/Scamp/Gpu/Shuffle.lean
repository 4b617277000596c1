import Scamp.Core.Kernel
import Scamp.Lib.Barrier

/-!
# `Gpu.Shuffle` — the threads of a block of the covariance-shuffling kernel

`do_tile_shfl` (`kernels_impl_shfl.h`) with `do_row_shfl` (`kernels_compute_shfl.h`), for all the threads of
a block. `Gpu.Kernel` has the cells each of them comes to; here are the values in their registers, which
depend on the other threads: a covariance moves on by a slot in every row, to the next lane by a warp
shuffle, and to the next warp through the two hand-off buffers in shared memory.

The threads take their turns in any order (`Move`). Two things tie them together: the barriers, one in every
row and two in every tile, and the shuffles, which the 32 lanes of a warp make at once. What a thread does
between these is split where it reads or writes what another thread may write or read.

A pair of registers for a value and its index (`distc` and `idxc`, `distr` and `idxr`) is an `MpEntry`. The
atomic operations on the profiles of the tile are kept as the list of those issued, with their addresses;
`local_col` is an integer, so that a position before the tile would show.
-/

namespace Scamp

namespace Shuffle

/-! ## The instance of the kernel -/

/-- The template parameters of `do_tile_shfl`, with what it asserts of them. The tiles of all the shuffling
    variants have an even number of rows. -/
structure Instance where
  type : SCAMPProfileType
  computeRows : Bool
  computeCols : Bool
  diagsPerThread : ℕ
  outerUnrolledRows : ℕ
  kernelTileIters : ℕ
  blocksz : ℕ
  blocksz_pos : 0 < blocksz
  warp_dvd_blocksz : 32 ∣ blocksz
  diags_pos : 0 < diagsPerThread
  diags_le : diagsPerThread ≤ 8
  height_even : 2 ∣ kernelTileIters * outerUnrolledRows
  height_le : kernelTileIters * outerUnrolledRows ≤ 32 * diagsPerThread

namespace Instance
variable (k : Instance)

def tileHeight : ℕ := k.kernelTileIters * k.outerUnrolledRows

/-- `BLOCKSZ * DPT`, the slots of a block. -/
def blockDiags : ℕ := k.blocksz * k.diagsPerThread

def tileWidth : ℕ := k.blockDiags + k.tileHeight

def warpsPerBlock : ℕ := k.blocksz / 32

end Instance

/-! ## State -/

section
variable {K : Type}

/-- The registers of a thread. -/
structure SCAMPShflState (K : Type) where
  cov : ℕ → K
  dfc : ℕ → K
  dgc : ℕ → K
  inormc : ℕ → Dbl K
  best : ℕ → MpEntry K
  updatesRemaining : ℕ
  globalCol : ℕ → ℕ
  localCol : ℕ → ℤ

/-- Where a thread is in `do_tile_shfl`. -/
inductive Pc
  /-- At the condition of the loop over the tiles. -/
  | tileStart
  /-- At the `__syncthreads` after its part of `init_smem_shfl`. -/
  | tileLoaded
  /-- At the start of `do_row_shfl`. -/
  | rowStart
  /-- The first lane of each warp has read the hand-off buffer. -/
  | rowLoaded
  /-- The last lane of each warp has written the hand-off buffer, and the thread has arrived. -/
  | rowPublished
  /-- The covariances are shifted. -/
  | rowShuffled
  /-- At the wait that ends the row. -/
  | rowDone
  /-- After the last row of a tile. -/
  | flushing
  /-- At the `__syncthreads` after `flush_all_cols_to_smem`. -/
  | flushed
  /-- The loop over the tiles has ended. -/
  | finished
deriving DecidableEq, Repr

/-- A thread: its registers, its place in the kernel, the row of the tile and the number of tiles before
    this one, the statistics of the row, and the distances of the row. -/
structure Thread (K : Type) where
  state : SCAMPShflState K
  pc : Pc
  bar : Lib.BarrierPos
  tile : ℕ
  tileStartCol : ℕ
  tileStartRow : ℕ
  row : ℕ
  dfr : K
  dgr : K
  inormr : Dbl K
  dist : ℕ → Dbl K

/-- `global_row`. -/
def Thread.globalRow (th : Thread K) : ℕ := th.tileStartRow + th.row

/-- The shared memory that threads read (`SCAMPShflSmem`). -/
structure SCAMPShflSmem (K : Type) where
  dfRow : ℕ → K
  dgRow : ℕ → K
  inormRow : ℕ → Dbl K
  covHandoff : ℕ → K

/-- A block, with the atomic operations issued on `local_mp_col` and `local_mp_row`. -/
structure Block (K : Type) where
  threads : ℕ → Thread K
  smem : SCAMPShflSmem K
  colFlushes : List (ℤ × MpEntry K)
  rowFlushes : List (ℕ × MpEntry K)

/-- A turn: of a thread, or of the 32 threads of a warp that shuffle. -/
inductive Move
  | thread (t : ℕ)
  | warp (w : ℕ)
deriving DecidableEq, Repr

end

section
variable {K : Type} [Field K] [LinearOrder K] (k : Instance) (a : KernelArgs K)

/-! ## Distances and profiles -/

/-- The in-block test of `slot_valid`: `(diag >= 0) && (diag < kMaxDiag)`. -/
def inBlock (row : ℕ) (localCol : ℤ) : Bool :=
  decide (0 ≤ localCol - row ∧ localCol - row < k.blockDiags)

/-- `slot_valid`. The difference of the unsigned positions passes only when it is not negative. -/
def slotValid (fast : Bool) (th : Thread K) (i : ℕ) : Bool :=
  inBlock k th.row (th.state.localCol i) &&
    (fast || decide (th.globalRow < a.nY ∧ th.state.globalCol i < a.nX ∧
      th.globalRow ≤ th.state.globalCol i ∧ th.state.globalCol i - th.globalRow < a.numDiags))

/-- A register for a best-so-far value at its start. -/
def initEntry : MpEntry K := ⟨.num (initDist k.type), 0⟩

/-- `merge_to_column_shfl`, for one slot. -/
def mergeToColumnShfl (globalRow : ℕ) (best : MpEntry K) (dist : Dbl K) : MpEntry K :=
  match k.type with
  | .oneNN => if dist.gt best.value then { best with value := dist } else best
  | .oneNNIndex | .matrixSummary | .approxAllNeighbors =>
      if dist.gt best.value then ⟨dist, UInt32.ofNat globalRow⟩ else best
  | .sumThresh => if dist.gt (.num a.threshold) then { best with value := best.value.add dist } else best
  | _ => best

/-- `merge_to_row_shfl_lane`. -/
def mergeToRowShflLane (th : Thread K) : MpEntry K :=
  (List.range k.diagsPerThread).foldl
    (fun best i =>
      match k.type with
      | .oneNN => if (th.dist i).gt best.value then { best with value := th.dist i } else best
      | .oneNNIndex | .matrixSummary | .approxAllNeighbors =>
          if (th.dist i).gt best.value then ⟨th.dist i, UInt32.ofNat (th.state.globalCol i)⟩ else best
      | .sumThresh =>
          if (th.dist i).gt (.num a.threshold) then { best with value := best.value.add (th.dist i) }
          else best
      | _ => best)
    (initEntry k)

/-- `for (delta = 16; delta >= 1; delta /= 2)`, over the values of the 32 lanes. A lane that would read past
    the last one gets its own value. -/
def shflDownReduce (merge : MpEntry K → MpEntry K → MpEntry K) (lanes : ℕ → MpEntry K) : ℕ → MpEntry K :=
  [16, 8, 4, 2, 1].foldl
    (fun lanes delta lane =>
      merge (lanes lane) (if lane + delta < 32 then lanes (lane + delta) else lanes lane))
    lanes

/-- `warp_reduce_and_flush_row`: what lane `0` flushes. -/
def warpReduceRow (lanes : ℕ → MpEntry K) : MpEntry K :=
  match k.type with
  | .sumThresh =>
      shflDownReduce (fun x other => { x with value := x.value.add other.value }) lanes 0
  | _ => shflDownReduce (fun x other => if other.value.gt x.value then other else x) lanes 0

/-! ## Rotation -/

/-- `update_info_shfl`, and the flush it issues. -/
def updateInfoShfl (fast : Bool) (updatesRemaining : ℕ) (st : SCAMPShflState K) :
    SCAMPShflState K × List (ℤ × MpEntry K) :=
  let col := k.diagsPerThread - 1 - updatesRemaining
  let pos := st.globalCol col + k.blockDiags
  let inside : Bool := fast || decide (pos < a.nX)
  ({ st with
      dfc := Function.update st.dfc col (if inside then a.dfa pos else 0)
      dgc := Function.update st.dgc col (if inside then a.dga pos else 0)
      inormc := Function.update st.inormc col (if inside then a.normsa pos else .num 0)
      best := Function.update st.best col (initEntry k)
      globalCol := Function.update st.globalCol col pos
      localCol := Function.update st.localCol col (st.localCol col + k.blockDiags)
      updatesRemaining := if updatesRemaining = 0 then k.blockDiags else st.updatesRemaining },
    if k.computeCols then [(st.localCol col, st.best col)] else [])

/-- `do_update_info_shfl`. The rung for a slot is compiled when a thread has that slot. -/
def doUpdateInfoShfl (fast : Bool) (st : SCAMPShflState K) : SCAMPShflState K × List (ℤ × MpEntry K) :=
  match [7, 6, 5, 4, 3, 2, 1, 0].find? fun rung =>
      decide (rung < k.diagsPerThread ∧ st.updatesRemaining = rung) with
  | some rung => updateInfoShfl k a fast rung st
  | none => (st, [])

/-- The rotation at the end of a row. -/
def rotate (fast : Bool) (st : SCAMPShflState K) : SCAMPShflState K × List (ℤ × MpEntry K) :=
  let next := if st.updatesRemaining < k.diagsPerThread then doUpdateInfoShfl k a fast st else (st, [])
  ({ next.1 with updatesRemaining := next.1.updatesRemaining - 1 }, next.2)

/-- `flush_all_cols_to_smem`. -/
def flushAllColsToSmem (st : SCAMPShflState K) : SCAMPShflState K × List (ℤ × MpEntry K) :=
  (match k.type with
    | .sumThresh => { st with best := fun i => { st.best i with value := .num 0 } }
    | _ => st,
    (List.range k.diagsPerThread).map fun i => (st.localCol i, st.best i))

/-! ## The parts of a row -/

/-- `fast_path`. -/
def fastPath (th : Thread K) : Bool :=
  decide (th.tileStartCol + k.tileWidth < a.nX ∧ th.tileStartRow + k.tileHeight < a.nY ∧
    th.tileStartCol + k.blockDiags ≤ a.numDiags ∧ a.exclusionUpper + k.tileHeight ≤ th.tileStartCol)

/-- A thread's part of `init_smem_shfl`: every `BLOCKSZ`-th row of the tile. -/
def initSmemShfl (t : ℕ) (th : Thread K) (smem : SCAMPShflSmem K) : SCAMPShflSmem K :=
  let loads : ℕ → Bool := fun pos =>
    decide (pos % k.blocksz = t ∧ pos < k.tileHeight ∧ th.tileStartRow + pos < a.nY)
  { smem with
    dfRow := fun pos => if loads pos then a.dfb (th.tileStartRow + pos) else smem.dfRow pos
    dgRow := fun pos => if loads pos then a.dgb (th.tileStartRow + pos) else smem.dgRow pos
    inormRow := fun pos => if loads pos then a.normsb (th.tileStartRow + pos) else smem.inormRow pos }

/-- `do_row_shfl`, up to the statistics of the row. -/
def loadRow (t : ℕ) (th : Thread K) (smem : SCAMPShflSmem K) : Thread K :=
  let readSlot := th.row % 2
  let prevWarpid := (t / 32 + k.warpsPerBlock - 1) % k.warpsPerBlock
  let crossWarpIn := smem.covHandoff (readSlot * k.warpsPerBlock + prevWarpid)
  { th with
    state := { th.state with
      cov := if t % 32 = 0 ∧ 0 < th.globalRow then Function.update th.state.cov 0 crossWarpIn
        else th.state.cov }
    dfr := smem.dfRow th.row
    dgr := smem.dgRow th.row
    inormr := smem.inormRow th.row
    pc := .rowLoaded }

/-- `do_row_shfl`, from there to the reduction of the row: the distances, the covariances of the next row,
    the arrival, and the merge into the columns. -/
def computeRow (th : Thread K) : Thread K :=
  let dRaw := fun i => ((Dbl.num (th.state.cov i)).mul (th.state.inormc i)).mul th.inormr
  let dist := fun i => if slotValid k a (fastPath k a th) th i then dRaw i else .num (initDist k.type)
  { th with
    state := { th.state with
      cov := fun i => th.state.cov i + th.state.dfc i * th.dgr + th.state.dgc i * th.dfr
      best := if k.computeCols then fun i => mergeToColumnShfl k a th.globalRow (th.state.best i) (dist i)
        else th.state.best }
    dist := dist
    bar := th.bar.arrive
    pc := .rowPublished }

/-- The last lane of a warp publishes the covariance of its last slot. -/
def publish (t : ℕ) (th : Thread K) (smem : SCAMPShflSmem K) : SCAMPShflSmem K :=
  let writeSlot := 1 - th.row % 2
  if t % 32 = 31 then
    { smem with
      covHandoff := Function.update smem.covHandoff (writeSlot * k.warpsPerBlock + t / 32)
        (th.state.cov (k.diagsPerThread - 1)) }
  else smem

/-- The shift of the covariances, with what the lane before hands over. -/
def shiftCov (threads : ℕ → Thread K) (t : ℕ) : ℕ → K :=
  let srcln := (t % 32 + 31) % 32
  fun i =>
    if i = 0 then (threads (32 * (t / 32) + srcln)).state.cov (k.diagsPerThread - 1)
    else (threads t).state.cov (i - 1)

/-! ## Turns -/

def Block.setThread (s : Block K) (t : ℕ) (th : Thread K) : Block K :=
  { s with threads := Function.update s.threads t th }

/-- The turn of a thread. -/
def stepThread (stop : ℕ → Bool) (s : Block K) (t : ℕ) : Option (Block K) :=
  let th := s.threads t
  let opens := decide (Lib.Opens k.blocksz (fun u => (s.threads u).bar) t)
  match th.pc with
  | .tileStart =>
      if th.tileStartCol < a.nX ∧ th.tileStartRow < a.nY then
        let state := { th.state with localCol := fun i => (th.state.globalCol i : ℤ) - th.tileStartCol }
        some { s.setThread t { th with state := state, bar := th.bar.arrive, pc := .tileLoaded } with
          smem := initSmemShfl k a t th s.smem }
      else some (s.setThread t { th with pc := .finished })
  | .tileLoaded =>
      if opens then
        let state := { th.state with best := fun _ => initEntry k }
        some (s.setThread t { th with
          state := state, bar := th.bar.pass, row := 0
          pc := if 0 < k.tileHeight then .rowStart else .flushing })
      else none
  | .rowStart => some (s.setThread t (loadRow k t th s.smem))
  | .rowLoaded =>
      let next := computeRow k a th
      some { s.setThread t next with smem := publish k t next s.smem }
  | .rowPublished => none
  | .rowShuffled =>
      let next := rotate k a (fastPath k a th) th.state
      some { s.setThread t { th with state := next.1, pc := .rowDone } with
        colFlushes := s.colFlushes ++ next.2 }
  | .rowDone =>
      if opens then
        some (s.setThread t { th with
          bar := th.bar.pass, row := th.row + 1
          pc := if th.row + 1 < k.tileHeight then .rowStart else .flushing })
      else none
  | .flushing =>
      let next := if k.computeCols then flushAllColsToSmem k th.state else (th.state, [])
      some { s.setThread t { th with state := next.1, bar := th.bar.arrive, pc := .flushed } with
        colFlushes := s.colFlushes ++ next.2 }
  | .flushed =>
      if opens then
        -- the check for full match lists is the same for all threads: it stands between barriers
        some (s.setThread t { th with
          bar := th.bar.pass, tile := th.tile + 1, row := 0
          tileStartCol := th.tileStartCol + k.tileHeight
          tileStartRow := th.tileStartRow + k.tileHeight
          pc := if stop th.tile then .finished else .tileStart })
      else none
  | .finished => none

/-- The 32 threads of a warp reduce the row and shift the covariances. -/
def stepWarp (s : Block K) (w : ℕ) : Option (Block K) :=
  if ∀ lane : ℕ, lane < 32 → (s.threads (32 * w + lane)).pc = Pc.rowPublished then
    some { s with
      threads := fun t =>
        if t / 32 = w then
          { s.threads t with
            state := { (s.threads t).state with cov := shiftCov k s.threads t }
            pc := .rowShuffled }
        else s.threads t
      rowFlushes := s.rowFlushes ++
        if k.computeRows then
          [((s.threads (32 * w)).row,
            warpReduceRow k fun lane => mergeToRowShflLane k a (s.threads (32 * w + lane)))]
        else [] }
  else none

/-- A turn. `stop` tells, as in `tileLoop`, whether the block stops after a tile. -/
def step (stop : ℕ → Bool) (s : Block K) : Move → Option (Block K)
  | .thread t => if t < k.blocksz then stepThread k a stop s t else none
  | .warp w => if w < k.warpsPerBlock then stepWarp k a s w else none

/-- The turns of a schedule, one after the other. A turn that cannot be taken changes nothing. -/
def run (stop : ℕ → Bool) (moves : List Move) (s : Block K) : Block K :=
  moves.foldl (fun s m => (step k a stop s m).getD s) s

/-! ## The start -/

/-- `tile_start_col` of the first tile of a block. -/
def firstCol (block : ℕ) : ℕ := block * k.blockDiags + a.exclusionLower

/-- A thread before its first tile. Registers that are not initialised start with what `raw` has. -/
def startThread (cov : Buffer K) (block : ℕ) (raw : Thread K) (t : ℕ) : Thread K :=
  let tileStartCol := firstCol k a block
  let globalCol := fun i => tileStartCol + t * k.diagsPerThread + i
  { raw with
    state :=
      { cov := fun i => if globalCol i < a.nX then cov (globalCol i) else 0
        dfc := fun i => if globalCol i < a.nX then a.dfa (globalCol i) else 0
        dgc := fun i => if globalCol i < a.nX then a.dga (globalCol i) else 0
        inormc := fun i => if globalCol i < a.nX then a.normsa (globalCol i) else .num 0
        best := fun _ => initEntry k
        updatesRemaining := t * k.diagsPerThread + (k.diagsPerThread - 1)
        globalCol := globalCol
        localCol := fun i => (t * k.diagsPerThread + i : ℕ) }
    pc := .tileStart
    bar := ⟨0, false⟩
    tile := 0
    tileStartCol := tileStartCol
    tileStartRow := 0
    row := 0 }

/-- A block before its first tile, with any shared memory. -/
def start (cov : Buffer K) (block : ℕ) (raw : ℕ → Thread K) (smem : SCAMPShflSmem K) : Block K where
  threads t := startThread k a cov block (raw t) t
  smem := smem
  colFlushes := []
  rowFlushes := []

end

end Shuffle

end Scamp
