import Scamp.Core.Tile
import Scamp.Gpu.Kernel
import Scamp.Gpu.Neighbors
import Scamp.Gpu.SlidingWindow

/-!
# `Gpu.DoTile` — the sliding-window kernel with its memory

`do_tile` (`kernels_impl.h`), launched: all threads of all blocks, with the shared memory of each block and
the profiles in global memory. A block loads a tile (`init_smem` of `kernels_smem.h`), its threads merge
their correlations into the best-so-far values of the tile (`Gpu.SlidingWindow`), and it takes these values
back to global memory (`write_back`); then it goes on to the next tile of its meta-diagonal.

The threads of all blocks take turns in any order, an access at a time (`Access`); those of one block meet
at the barriers. What a thread computes while a tile is loaded depends on its own covariances and on the
statistics of the tile, which no thread writes then, so the accesses it will make are determined when the
barrier opens (`tileWork`). There is no barrier between the `write_back` of a tile and the `init_smem` of the
next one, except for the types that check whether the match lists are full.

The shuffles of the rows of `SUM_THRESH` need all 32 lanes of the warp, so a warp of which only some lanes
take the fast path fails.
-/

namespace Scamp

namespace SlidingWindow

namespace DoTile

/-! ## The launch -/

/-- A launch of `do_tile<..>`: the geometry with what is asserted of it, the other template parameters, and
    the arguments of the kernel. -/
structure Launch (K : Type) [LinearOrder K] where
  cfg : KernelConfig
  unrolledRows_pos : 0 < cfg.unrolledRows
  unrolled_dvd_diags : cfg.unrolledRows ∣ cfg.diagsPerThread
  unrolled_dvd_outer : cfg.unrolledRows ∣ cfg.outerUnrolledRows
  type : SCAMPProfileType
  computeRows : Bool
  computeCols : Bool
  args : KernelArgs K
  cov : Buffer K
  thresholds : Side → Buffer K
  maxMatchesPerTile : ℕ
  maxCoeff : MaxCoeff K

section
variable {K : Type} [Field K] [LinearOrder K]

namespace Launch
variable (L : Launch K)

/-- What the rows of the kernel depend on. -/
def inst : Instance K where
  type := L.type
  computeRows := L.computeRows
  computeCols := L.computeCols
  diagsPerThread := L.cfg.diagsPerThread
  unrolledRows := L.cfg.unrolledRows
  outerUnrolledRows := L.cfg.outerUnrolledRows
  kernelTileIters := L.cfg.kernelTileIters
  blocksz := L.cfg.blocksz
  unrolledRows_pos := L.unrolledRows_pos
  diags_pos := L.cfg.diags_pos
  unrolled_dvd_diags := L.unrolled_dvd_diags
  unrolled_dvd_outer := L.unrolled_dvd_outer
  threshold := L.args.threshold
  nX := L.args.nX
  maxCoeff := L.maxCoeff

def dims : KernelDims := L.args.toKernelDims

/-- `COMPUTE_COLS` and `COMPUTE_ROWS`. -/
def computing : Side → Bool
  | .a => L.computeCols
  | .b => L.computeRows

/-- The positions of a tile. -/
def extent : Side → ℕ
  | .a => L.cfg.tileWidth
  | .b => L.cfg.tileHeight

/-- `n_x` and `n_y`. -/
def size : Side → ℕ
  | .a => L.args.nX
  | .b => L.args.nY

/-- `tile_start_col` and `tile_start_row` of tile `k` of a block. -/
def tileStart (block k : ℕ) : Side → ℕ
  | .a => blockStartCol L.cfg L.dims block + k * L.cfg.tileHeight
  | .b => k * L.cfg.tileHeight

/-- `tile_start_col < args.n_x && tile_start_row < args.n_y`. -/
def hasTile (block k : ℕ) : Bool :=
  decide (L.tileStart block k .a < L.size .a ∧ L.tileStart block k .b < L.size .b)

/-- The statistics of a side at a position of the pass. -/
def stats (side : Side) (pos : ℕ) : Dbl K × Dbl K × Dbl K :=
  match side with
  | .a => (.num (L.args.dfa pos), .num (L.args.dga pos), L.args.normsa pos)
  | .b => (.num (L.args.dfb pos), .num (L.args.dgb pos), L.args.normsb pos)

end Launch

/-! ## Memory -/

/-- The memory that all blocks share: `profile_A` and `profile_B`, and the lists of matches that an
    `APPROX_ALL_NEIGHBORS` launch writes instead, of which the first `max_matches_per_tile` are stored. -/
structure GlobalMemory (K : Type) where
  profile : Side → Buffer (MpEntry K)
  matchList : Side → List (SCAMPmatch K)

/-- Shared memory with the copies of the lengths of the match lists. -/
structure BlockSmem (K : Type) extends SCAMPSmem K where
  profileLength : Side → ℕ

namespace BlockSmem
variable (smem : BlockSmem K)

/-- `local_mp_col` and `local_mp_row`. -/
def localMp : Side → ℕ → MpEntry K
  | .a => smem.localMpCol
  | .b => smem.localMpRow

def setLocalMp (side : Side) (pos : ℕ) (e : MpEntry K) : BlockSmem K :=
  match side with
  | .a => { smem with localMpCol := Function.update smem.localMpCol pos e }
  | .b => { smem with localMpRow := Function.update smem.localMpRow pos e }

/-- The statistics of one side of the tile. -/
def stats : Side → Stats K
  | .a => smem.col
  | .b => smem.row

def setStats (side : Side) (pos : ℕ) (x : Dbl K × Dbl K × Dbl K) : BlockSmem K :=
  let put (s : Stats K) : Stats K :=
    ⟨Function.update s.df pos x.1, Function.update s.dg pos x.2.1, Function.update s.inorm pos x.2.2⟩
  match side with
  | .a => { smem with col := put smem.col }
  | .b => { smem with row := put smem.row }

end BlockSmem

/-! ## Accesses -/

/-- An access of a thread to memory that it shares with others. -/
inductive Access (K : Type)
  /-- `init_smem` for one position of the tile. -/
  | load (side : Side) (localPosition globalPosition : ℕ)
  /-- `mp_col_check` or `mp_row_check`: the value of an entry is read ahead of the atomic operations. -/
  | check (side : Side) (slot : ℕ)
  /-- `update_cols` or `update_rows` for one entry. -/
  | flush (side : Side) (slot : ℕ) (best : MpEntry K)
  /-- What `reduce_edge` merges into a column. -/
  | reduceEdge (slot globalRow : ℕ) (dist : Dbl K)
  | reduceRow (slot : ℕ) (distRow : MpEntry K)
  /-- `write_back` for one position of the tile. -/
  | store (side : Side) (localPosition globalPosition : ℕ)
  /-- The copy of the lengths of the match lists. -/
  | copyLengths

section
variable (L : Launch K)

/-- The entry that `init_smem` starts a position with. -/
def initializer (side : Side) (globalPosition : ℕ) (stored : MpEntry K) : MpEntry K :=
  match L.type with
  | .oneNN | .oneNNIndex => stored
  | .matrixSummary => ⟨.num L.args.threshold, 0⟩
  | .approxAllNeighbors => ⟨.num (L.thresholds side globalPosition), 0⟩
  | _ => .ofValue 0

/-- The atomic operation on an entry of shared memory, with the value that was read ahead. The sums are
    added without a look. -/
def flushEntry (checked : Option (Dbl K)) (e best : MpEntry K) : Option (MpEntry K) :=
  match L.type with
  | .sumThresh => some (doAtomicAdd e best.value)
  | .oneNN => checked.map fun check => { e with value := fAtomicMaxCheck e.value best.value check }
  | .oneNNIndex | .matrixSummary | .approxAllNeighbors =>
      checked.map fun check => mpAtomicMaxCheck e best.value best.index check
  | _ => some e

/-- An atomic operation on an entry of a profile in global memory. -/
def GlobalMemory.setEntry (m : GlobalMemory K) (side : Side) (pos : ℕ) (f : MpEntry K → MpEntry K) :
    GlobalMemory K :=
  { m with
    profile := Function.update m.profile side (Function.update (m.profile side) pos (f (m.profile side pos))) }

/-- `write_back_value`. -/
def writeBackValue (side : Side) (globalPosition : ℕ) (e : MpEntry K) (m : GlobalMemory K) : GlobalMemory K :=
  match L.type with
  | .oneNN => m.setEntry side globalPosition fun old => { old with value := fAtomicMax old.value e.value }
  | .oneNNIndex => m.setEntry side globalPosition fun old => mpAtomicMax old e.value e.index
  | .sumThresh => m.setEntry side globalPosition fun old => doAtomicAdd old e.value
  | .matrixSummary =>
      -- the rows are those of a transposed pass, whose positions are columns
      if e.value.gt (.num L.args.threshold) then
        m.setEntry side (matrixIndex L.args globalPosition e.index.toNat).toNat
          fun old => { old with value := fAtomicMax old.value e.value }
      else m
  | .approxAllNeighbors =>
      match e.value with
      | .num corr =>
          if L.thresholds side globalPosition < corr then
            { m with
              matchList := Function.update m.matchList side
                (m.matchList side ++ [⟨corr, e.index.toNat, globalPosition⟩]) }
          else m
      | .nan => m
  | _ => m

/-- The values a thread has read ahead, under the entry they are from. -/
abbrev Checked (K : Type) := Side → ℕ → Option (Dbl K)

/-- One access. -/
def Access.exec (m : GlobalMemory K) (smem : BlockSmem K) (checked : Checked K) :
    Access K → Option (GlobalMemory K × BlockSmem K × Checked K)
  | .load side pos g =>
      let smem := smem.setStats side pos (L.stats side g)
      some (m, if L.computing side then smem.setLocalMp side pos (initializer L side g (m.profile side g)) else smem,
        checked)
  | .check side slot =>
      some (m, smem, Function.update checked side
        (Function.update (checked side) slot (some (smem.localMp side slot).value)))
  | .flush side slot best => do
      let e ← flushEntry L (checked side slot) (smem.localMp side slot) best
      return (m, smem.setLocalMp side slot e, checked)
  | .reduceEdge slot globalRow dist =>
      some (m, smem.setLocalMp .a slot (edgeColumn L.inst globalRow (smem.localMp .a slot) dist), checked)
  | .reduceRow slot distRow =>
      some (m, smem.setLocalMp .b slot (SlidingWindow.reduceRow L.inst (smem.localMp .b slot) distRow), checked)
  | .store side pos g => some (writeBackValue L side g (smem.localMp side pos) m, smem, checked)
  | .copyLengths => some (m, { smem with profileLength := fun side => (m.matchList side).length }, checked)

/-! ## The accesses of a thread -/

/-- `while (local_position < extent && global_position < n)`, from `threadIdx.x` on by `BLOCKSZ`. -/
def positions (blocksz extent size start : ℕ) (hpos : 0 < blocksz) (pos : ℕ) : List ℕ :=
  if pos < extent ∧ start + pos < size then pos :: positions blocksz extent size start hpos (pos + blocksz)
  else []
termination_by extent - pos

/-- The positions of a thread on one side of a tile. -/
def sidePositions (block k thread : ℕ) (side : Side) : List ℕ :=
  positions L.cfg.blocksz (L.extent side) (L.size side) (L.tileStart block k side) L.cfg.blocksz_pos thread

/-- `init_smem`. -/
def initSmem (block k thread : ℕ) : List (Access K) :=
  [Side.a, Side.b].flatMap fun side =>
    (sidePositions L block k thread side).map fun pos => .load side pos (L.tileStart block k side + pos)

/-- `write_back`. -/
def writeBack (block k thread : ℕ) : List (Access K) :=
  [Side.a, Side.b].flatMap fun side =>
    if L.computing side then
      (sidePositions L block k thread side).map fun pos => .store side pos (L.tileStart block k side + pos)
    else []

end

section
variable (k : Instance K) (lane : ℕ) (peers : ℕ → ℕ → Dbl K)

/-- `update_cols` or `update_rows` for `n` entries. -/
def flushAccesses (side : Side) (start n : ℕ) (best : ℕ → MpEntry K) : List (Access K) :=
  (if k.type = .sumThresh then [] else (List.range n).map fun i => .check side (start + i)) ++
    (List.range n).map fun i => .flush side (start + i) (best i)

/-- The accesses of a statement of `do_iteration_fast`. For a sum, only the first lane of a warp adds to the
    rows. -/
def stepAccesses (st : IterationState K) : IterationStep → List (Access K)
  | .updateCols startIndex num =>
      flushAccesses k .a (st.info.localCol + startIndex) num fun i => st.bestCol (startIndex + i)
  | .updateRows rowIter num =>
      if k.type = .sumThresh then
        if lane = 0 then
          flushAccesses k .b (st.info.localRow + rowIter) num fun i =>
            ⟨shflDownSum 16
              (Function.update (peers (rowIter + i)) lane (st.bestRow (rowIter + i)).value) lane, 0⟩
        else []
      else flushAccesses k .b (st.info.localRow + rowIter) num fun i => st.bestRow (rowIter + i)
  | _ => []

/-- `do_iteration_fast`: where the thread is afterwards, and its accesses. -/
def doIterationFast (raw : RawRegisters K) (info : SCAMPThreadInfo K) (smem : SCAMPSmem K) :
    Option (SCAMPThreadInfo K × List (Access K)) := do
  let last ← (iterationSteps k).foldlM
    (fun s x => do
      let st ← execStep k lane peers s.1 x
      return (st, s.2 ++ stepAccesses k lane peers s.1 x))
    (startIteration k raw info smem, [])
  return (last.1.info.advance k.outerUnrolledRows, last.2)

/-- The fast path: `while (local_row < tile_height)`, call `n` of it with `left` more that there can be. -/
def fastPath (peers : ℕ → ℕ → ℕ → Dbl K) (raw : ℕ → RawRegisters K) (smem : SCAMPSmem K) :
    (left n : ℕ) → SCAMPThreadInfo K → Option (SCAMPThreadInfo K × List (Access K))
  | left, n, info =>
      if info.localRow < k.tileHeight then
        match left with
        | 0 => none
        | left + 1 => do
            let next ← doIterationFast k lane (peers n) (raw n) info smem
            let rest ← fastPath peers raw smem left (n + 1) next.1
            return (rest.1, next.2 ++ rest.2)
      else some (info, [])

variable (nY diag numDiags : ℕ) (smem : SCAMPSmem K)

/-- `dist[i]` of `do_row_edge`. -/
def edgeDist (info : SCAMPThreadInfo K) (i : ℕ) : Dbl K :=
  ((info.cov i).mul (smem.col.inorm (info.localCol + i))).mul (smem.row.inorm info.localRow)

/-- `info.cov[i]` after `do_row_edge`. -/
def edgeCov (info : SCAMPThreadInfo K) (i : ℕ) : Dbl K :=
  ((info.cov i).add ((smem.col.df (info.localCol + i)).mul (smem.row.dg info.localRow))).add
    ((smem.col.dg (info.localCol + i)).mul (smem.row.df info.localRow))

/-- The diagonals of the row that `reduce_edge` does not leave out. -/
def edgeDiags (info : SCAMPThreadInfo K) : List ℕ :=
  (List.range k.diagsPerThread).filter fun i => info.globalCol + i < k.nX ∧ diag + i < numDiags

/-- The accesses of `do_row_edge`. -/
def edgeAccesses (info : SCAMPThreadInfo K) : List (Access K) :=
  let dist := edgeDist smem info
  (if k.computeCols then
    (edgeDiags k diag numDiags info).map fun i => .reduceEdge (info.localCol + i) info.globalRow (dist i)
  else []) ++
    if k.computeRows then
      [.reduceRow info.localRow <| (edgeDiags k diag numDiags info).foldl
        (fun best i => edgeRow k (info.globalCol + i) best (dist i)) ⟨.num (initDist k.type), 0⟩]
    else []

/-- The slow path. -/
def slowPath (info : SCAMPThreadInfo K) : Option (SCAMPThreadInfo K × List (Access K)) :=
  if info.globalCol < k.nX ∧ info.globalRow < nY ∧ info.localRow < k.tileHeight then
    if inArray k.tileHeight info.localRow 1 &&
        inArray k.tileWidth info.localCol k.diagsPerThread then do
      let rest ← slowPath ({ info with cov := edgeCov smem info }.advance 1)
      return (rest.1, edgeAccesses k diag numDiags smem info ++ rest.2)
    else none
  else some (info, [])
termination_by k.tileHeight - info.localRow
decreasing_by
  show k.tileHeight - (info.localRow + 1) < _
  omega

end

section
variable (L : Launch K) (block : ℕ)

/-- The registers that no one initialises, by tile, thread and call of `do_iteration_fast`. -/
abbrev RawTile (K : Type) := ℕ → ℕ → ℕ → RawRegisters K

/-- The condition of the fast path. -/
def onFastPath (k thread : ℕ) : Bool :=
  decide (L.tileStart block k .a + L.cfg.tileWidth < L.args.nX ∧
    L.tileStart block k .b + L.cfg.tileHeight < L.args.nY ∧
    startDiag L.cfg L.dims block thread + L.cfg.diagsPerThread ≤ L.dims.numDiags)

/-- A thread at the start of a tile. -/
def startOfTile (thread : ℕ) (info : SCAMPThreadInfo K) : SCAMPThreadInfo K :=
  { info with localCol := thread * L.cfg.diagsPerThread, localRow := 0 }

/-- A thread before call `n` of `do_iteration_fast`. -/
def beforeCall (raw : ℕ → RawRegisters K) (smem : SCAMPSmem K) (info : SCAMPThreadInfo K) :
    ℕ → Option (SCAMPThreadInfo K)
  | 0 => some info
  | n + 1 => do
      let before ← beforeCall raw smem info n
      let next ← doIterationFast L.inst 0 (fun _ _ => .num 0) (raw n) before smem
      return next.1

/-- What the lanes of a warp hand over in the shuffles of row `row` of call `n`. -/
def warpPeers (raw : ℕ → ℕ → RawRegisters K) (smem : SCAMPSmem K) (info : ℕ → SCAMPThreadInfo K)
    (warp n row lane : ℕ) : Dbl K :=
  let thread := 32 * warp + lane
  match beforeCall L (raw thread) smem (startOfTile L thread (info thread)) n with
  | some before => rowRegister L.inst (raw thread n) before smem row
  | none => .nan

/-- Whether the shuffles of the rows find all the lanes of their warp. -/
def warpConverged (k warp : ℕ) : Prop :=
  L.type = .sumThresh → L.computeRows = true → ∀ lane < 32, onFastPath L block k (32 * warp + lane) = true

instance (k warp : ℕ) : Decidable (warpConverged L block k warp) :=
  inferInstanceAs (Decidable (_ → _ → _))

/-- What thread `thread` does with tile `k`: the positions and covariances it has afterwards, and its
    accesses. -/
def tileWork (raw : RawTile K) (smem : SCAMPSmem K) (info : ℕ → SCAMPThreadInfo K) (k thread : ℕ) :
    Option (SCAMPThreadInfo K × List (Access K)) :=
  let diag := startDiag L.cfg L.dims block thread
  let start := startOfTile L thread (info thread)
  if onFastPath L block k thread then
    if warpConverged L block k (thread / 32) then
      fastPath L.inst (thread % 32) (warpPeers L (raw k) smem info (thread / 32)) (raw k thread) smem
        L.cfg.tileHeight 0 start
    else none
  else if diag < L.dims.numDiags then slowPath L.inst L.args.nY diag L.dims.numDiags smem start
  else some (start, [])

end

/-! ## The threads of a launch -/

/-- A thread: its registers, what it has read ahead, and the accesses before the next barrier. -/
structure ThreadState (K : Type) where
  info : SCAMPThreadInfo K
  checked : Checked K
  todo : List (Access K)

/-- Where the threads of a block are between two barriers. -/
inductive Phase
  /-- The tile is loaded, after the one before it is written back. -/
  | loading
  | computing
  /-- The tile is written back, before the lengths of the match lists are checked. -/
  | storing
  | finished
deriving DecidableEq, Repr

/-- A block in its tile `tile`. -/
structure BlockState (K : Type) where
  tile : ℕ
  phase : Phase
  smem : BlockSmem K
  thread : ℕ → ThreadState K

/-- The device during a launch. -/
structure Grid (K : Type) where
  mem : GlobalMemory K
  block : ℕ → BlockState K

/-- A turn: an access of a thread, or the barrier of a block, when all its threads have arrived. -/
inductive Turn
  | access (block thread : ℕ)
  | barrier (block : ℕ)
deriving DecidableEq, Repr

section
variable (L : Launch K)

/-- The threads of a block get their accesses up to the next barrier. -/
def BlockState.enter (s : BlockState K) (tile : ℕ) (phase : Phase) (work : ℕ → List (Access K)) : BlockState K :=
  { s with tile := tile, phase := phase, thread := fun t => { s.thread t with todo := work t } }

/-- The tile after `tile`, if there is one: `work` is what the threads have to do before it is loaded. -/
def nextTile (block : ℕ) (s : BlockState K) (work : ℕ → List (Access K)) : BlockState K :=
  if L.hasTile block (s.tile + 1) then
    s.enter (s.tile + 1) .loading fun t => work t ++ initSmem L block (s.tile + 1) t
  else s.enter (s.tile + 1) .finished work

/-- A barrier opens. -/
def passBarrier (raw : RawTile K) (block : ℕ) (s : BlockState K) : Option (BlockState K) :=
  match s.phase with
  | .loading => do
      let work := tileWork L block raw s.smem.toSCAMPSmem (fun t => (s.thread t).info) s.tile
      if ∀ t < L.cfg.blocksz, (work t).isSome then
        some { s with
          phase := .computing
          thread := fun t =>
            match work t with
            | some next => { info := next.1, checked := fun _ _ => none, todo := next.2 }
            | none => s.thread t }
      else none
  | .computing =>
      if needsCheckIfDone L.type then
        some (s.enter s.tile .storing fun t =>
          writeBack L block s.tile t ++ if t = 0 then [.copyLengths] else [])
      else some (nextTile L block s (writeBack L block s.tile))
  | .storing =>
      if L.maxMatchesPerTile < s.smem.profileLength .a ∨ L.maxMatchesPerTile < s.smem.profileLength .b then
        some (s.enter s.tile .finished fun _ => [])
      else some (nextTile L block s fun _ => [])
  | .finished => none

/-- A turn. -/
def turn (raw : ℕ → RawTile K) (g : Grid K) : Turn → Option (Grid K)
  | .access b t =>
      if b < numBlocks L.cfg L.dims ∧ t < L.cfg.blocksz then
        match ((g.block b).thread t).todo with
        | [] => none
        | x :: rest => do
            let next ← x.exec L g.mem (g.block b).smem ((g.block b).thread t).checked
            let thread := { (g.block b).thread t with checked := next.2.2, todo := rest }
            some ⟨next.1, Function.update g.block b { g.block b with
              smem := next.2.1
              thread := Function.update (g.block b).thread t thread }⟩
      else none
  | .barrier b =>
      if b < numBlocks L.cfg L.dims ∧ ∀ t < L.cfg.blocksz, ((g.block b).thread t).todo.length = 0 then do
        let s ← passBarrier L (raw b) b (g.block b)
        some { g with block := Function.update g.block b s }
      else none

/-- Some turns, one after the other. -/
def run (raw : ℕ → RawTile K) (g : Grid K) (turns : List Turn) : Option (Grid K) :=
  turns.foldlM (turn L raw) g

/-! ## The start -/

/-- A thread before its first tile: the first dot products are loaded. -/
def startInfo (block : ℕ) (raw : SCAMPThreadInfo K) (thread : ℕ) : SCAMPThreadInfo K :=
  let globalCol := L.tileStart block 0 .a + thread * L.cfg.diagsPerThread
  { raw with
    cov := fun i => if i < L.cfg.diagsPerThread ∧ globalCol + i < L.args.nX then .num (L.cov (globalCol + i))
      else raw.cov i
    globalCol := globalCol
    globalRow := 0 }

/-- A block before its first tile, with any shared memory. -/
def startBlock (block : ℕ) (raw : ℕ → SCAMPThreadInfo K) (smem : BlockSmem K) : BlockState K where
  tile := 0
  phase := if L.hasTile block 0 then .loading else .finished
  smem := smem
  thread t :=
    { info := startInfo L block (raw t) t
      checked := fun _ _ => none
      todo := if L.hasTile block 0 then initSmem L block 0 t else [] }

/-- A launch before its first turn. -/
def start (mem : GlobalMemory K) (raw : ℕ → ℕ → SCAMPThreadInfo K) (smem : ℕ → BlockSmem K) : Grid K where
  mem := mem
  block b := startBlock L b (raw b) (smem b)

/-- All blocks have ended. -/
def Grid.Finished (g : Grid K) : Prop :=
  ∀ b < numBlocks L.cfg L.dims, (g.block b).phase = .finished ∧
    ∀ t < L.cfg.blocksz, ((g.block b).thread t).todo = []

end

end

end DoTile

end SlidingWindow

end Scamp
