import Scamp.Gpu.Atomics

/-!
# `Gpu.SlidingWindow` — the rows of the sliding-window kernel

`kernels_compute.h`: `do_iteration_fast`, which takes `OuterUnrolledRows` rows of a thread's diagonals at
once, and `do_row_edge`, which takes one row with its checks. Both read the statistics of a tile from shared
memory and merge the correlations into the best-so-far values there.

The unrolled loops of `do_iteration_fast` are the list of the statements they unroll to (`iterationSteps`),
which a call executes one after the other. A statement that accesses shared memory outside its array fails.
The rows of a `SUM_THRESH` profile are added up over the 32 threads of a warp before one of them adds to
shared memory; what the other threads hand over is an input of a call, and `warpIterationFast` is the call of
a whole warp.

A pair of registers for a value and its index (`distc` and `idxc`, `distr` and `idxr`) is an `MpEntry`.
-/

namespace Scamp

namespace SlidingWindow

/-! ## The instance of the kernel -/

/-- Eigen's `maxCoeff<PropagateNumbers>(&idx)`: a largest number among the entries and a position of it, or
    NaN when there is no number. -/
structure MaxCoeff (K : Type) [LinearOrder K] where
  coeff : ℕ → (ℕ → Dbl K) → Dbl K × ℕ
  coeff_num : ∀ n (x : ℕ → Dbl K), (∃ i < n, ∃ v, x i = .num v) →
    ∃ i < n, ∃ v, x i = .num v ∧ coeff n x = (.num v, i) ∧ ∀ j < n, ∀ w, x j = .num w → w ≤ v
  coeff_nan : ∀ n (x : ℕ → Dbl K), (∀ i < n, x i = .nan) → (coeff n x).1 = .nan

/-- The template parameters of `do_tile` and the arguments of the kernel that its rows depend on. -/
structure Instance (K : Type) [LinearOrder K] where
  type : SCAMPProfileType
  computeRows : Bool
  computeCols : Bool
  diagsPerThread : ℕ
  unrolledRows : ℕ
  outerUnrolledRows : ℕ
  kernelTileIters : ℕ
  blocksz : ℕ
  unrolledRows_pos : 0 < unrolledRows
  diags_pos : 0 < diagsPerThread
  unrolled_dvd_diags : unrolledRows ∣ diagsPerThread
  unrolled_dvd_outer : unrolledRows ∣ outerUnrolledRows
  threshold : K
  nX : ℕ
  maxCoeff : MaxCoeff K

section
variable {K : Type} [LinearOrder K]

namespace Instance
variable (k : Instance K)

def tileHeight : ℕ := k.kernelTileIters * k.outerUnrolledRows

def tileWidth : ℕ := k.tileHeight + k.blocksz * k.diagsPerThread

/-- `inner_unrolled_cols`: the width of the window of column statistics. -/
def innerUnrolledCols : ℕ := k.diagsPerThread + k.unrolledRows

/-- `unrolled_cols`: the columns of a thread's parallelogram. -/
def unrolledCols : ℕ := k.diagsPerThread + k.outerUnrolledRows - 1

/-- `outer_iters`. -/
def outerIters : ℕ := k.outerUnrolledRows / k.unrolledRows

end Instance

end

/-! ## Memory -/

section
variable {K : Type} [Field K] [LinearOrder K]

/-- The three arrays of statistics of a side. -/
structure Stats (K : Type) where
  df : ℕ → Dbl K
  dg : ℕ → Dbl K
  inorm : ℕ → Dbl K

/-- The shared memory of a block (`SCAMPSmem`): the columns of the tile (`df_col`, `dg_col`, `inorm_col`,
    `local_mp_col`) and its rows. -/
structure SCAMPSmem (K : Type) where
  col : Stats K
  row : Stats K
  localMpCol : ℕ → MpEntry K
  localMpRow : ℕ → MpEntry K

/-- The covariances of a thread and where it is. -/
structure SCAMPThreadInfo (K : Type) where
  cov : ℕ → Dbl K
  localRow : ℕ
  localCol : ℕ
  globalRow : ℕ
  globalCol : ℕ

/-- All positions go on by `n`. -/
def SCAMPThreadInfo.advance (info : SCAMPThreadInfo K) (n : ℕ) : SCAMPThreadInfo K :=
  { info with
    localRow := info.localRow + n
    localCol := info.localCol + n
    globalRow := info.globalRow + n
    globalCol := info.globalCol + n }

/-- Whether `n` accesses from `start` on are inside an array. -/
def inArray (extent start n : ℕ) : Bool := decide (n = 0 ∨ start + n ≤ extent)

/-- `vec_load` of `n` elements from `src + start` to `dst + at`. -/
def vecLoadArray (src : ℕ → Dbl K) (start n pos : ℕ) (dst : ℕ → Dbl K) : ℕ → Dbl K :=
  fun q => if pos ≤ q ∧ q < pos + n then src (start + (q - pos)) else dst q

/-- The three `vec_load`s of a side. -/
def vecLoad (extent : ℕ) (src : Stats K) (start n pos : ℕ) (dst : Stats K) : Option (Stats K) :=
  if inArray extent start n then
    some ⟨vecLoadArray src.df start n pos dst.df, vecLoadArray src.dg start n pos dst.dg,
      vecLoadArray src.inorm start n pos dst.inorm⟩
  else none

/-- `segment<n>(0) = segment<n>(off)`. -/
def slideArray (n off : ℕ) (x : ℕ → Dbl K) : ℕ → Dbl K := fun q => if q < n then x (q + off) else x q

def slide (n off : ℕ) (x : Stats K) : Stats K :=
  ⟨slideArray n off x.df, slideArray n off x.dg, slideArray n off x.inorm⟩

/-! ## Merging a row of distances into registers -/

/-- `max_dist`, and the position of the maximum it leaves in `idx`. -/
def maxDist (k : Instance K) (dist : ℕ → Dbl K) : Dbl K × ℕ :=
  if 4 < k.diagsPerThread then
    let max := k.maxCoeff.coeff k.diagsPerThread dist
    (if max.1.gt (.num (-2)) then max.1 else .num (-2), max.2)
  else
    (List.range k.diagsPerThread).foldl
      (fun ret i => if (dist i).gt ret.1 then (dist i, i) else ret) (.num (-2), 0)

/-- `(dist > threshold).select(dist, 0).sum()`. -/
def gatedSum (k : Instance K) (dist : ℕ → Dbl K) : Dbl K :=
  (List.range k.diagsPerThread).foldl (fun sum i => sum.add (gated k.threshold (dist i))) (.num 0)

/-- `merge_to_row`. -/
def mergeToRow (k : Instance K) (rowIter : ℕ) (info : SCAMPThreadInfo K) (dist : ℕ → Dbl K)
    (best : MpEntry K) : MpEntry K :=
  match k.type with
  | .oneNN => { best with value := fmaxf best.value (maxDist k dist).1 }
  | .oneNNIndex | .matrixSummary | .approxAllNeighbors =>
      let d := maxDist k dist
      if d.1.gt best.value then ⟨d.1, UInt32.ofNat (d.2 + (info.globalCol + rowIter))⟩ else best
  | .sumThresh => { best with value := best.value.add (gatedSum k dist) }
  | _ => best

/-- What `merge_to_column` does to the best-so-far value of one column. -/
def mergeColumn (k : Instance K) (globalRow : ℕ) (best : MpEntry K) (dist : Dbl K) : MpEntry K :=
  match k.type with
  | .oneNN => if dist.gt best.value then { best with value := dist } else best
  | .oneNNIndex | .matrixSummary | .approxAllNeighbors =>
      if dist.gt best.value then ⟨dist, UInt32.ofNat globalRow⟩ else best
  | .sumThresh => { best with value := best.value.add (gated k.threshold dist) }
  | _ => best

/-- `merge_to_column`: diagonal `i` is in the column `row_iter + i` of the parallelogram. -/
def mergeToColumn (k : Instance K) (rowIter : ℕ) (info : SCAMPThreadInfo K) (bestSoFar : ℕ → MpEntry K)
    (dist : ℕ → Dbl K) : ℕ → MpEntry K :=
  fun p => if rowIter ≤ p ∧ p < rowIter + k.diagsPerThread then
    mergeColumn k (info.globalRow + rowIter) (bestSoFar p) (dist (p - rowIter)) else bestSoFar p

/-! ## Flushing registers to shared memory -/

/-- The values of a warp after `for (i = offset; i >= 1; i /= 2) sum += __shfl_down_sync(sum, i)`. A lane
    that would read past the last one gets its own value. -/
def shflDownSum (offset : ℕ) (sum : ℕ → Dbl K) : ℕ → Dbl K :=
  if offset = 0 then sum
  else shflDownSum (offset / 2) fun lane =>
    (sum lane).add (if lane + offset < 32 then sum (lane + offset) else sum lane)
termination_by offset
decreasing_by omega

/-- What `update_cols` does to one entry. -/
def flushColumn (k : Instance K) (e best : MpEntry K) : MpEntry K :=
  match k.type with
  | .sumThresh => doAtomicAdd e best.value
  | type => flushMax type e best

/-- What `update_rows` does to one entry. `peers` are the values of the other lanes of the warp. -/
def flushRow (k : Instance K) (lane : ℕ) (peers : ℕ → Dbl K) (e best : MpEntry K) : MpEntry K :=
  match k.type with
  | .sumThresh =>
      if lane = 0 then doAtomicAdd e (shflDownSum 16 (Function.update peers lane best.value) lane) else e
  | type => flushMax type e best

/-- The loop of `update_rows` and `update_cols` over `n` entries from `start` on, entry `start + i` with the
    register `first + i`. No entry is visited twice, so the values read ahead are still there. -/
def flushEntries (flush : ℕ → MpEntry K → MpEntry K → MpEntry K) (start n first : ℕ) (best mp : ℕ → MpEntry K) :
    ℕ → MpEntry K :=
  fun x => if start ≤ x ∧ x < start + n then flush (first + (x - start)) (mp x) (best (first + (x - start)))
    else mp x

/-! ## `do_iteration_fast` -/

/-- The variables of a call of `do_iteration_fast`. -/
structure IterationState (K : Type) where
  info : SCAMPThreadInfo K
  smem : SCAMPSmem K
  window : Stats K
  rowStats : Stats K
  bestCol : ℕ → MpEntry K
  bestRow : ℕ → MpEntry K

/-- `do_row`. -/
def doRow (k : Instance K) (outerRowIter rowIter : ℕ) (st : IterationState K) : IterationState K :=
  let dist := fun i =>
    ((st.info.cov i).mul (st.window.inorm (rowIter + i))).mul (st.rowStats.inorm rowIter)
  let cov := fun i =>
    ((st.info.cov i).add ((st.window.df (rowIter + i)).mul (st.rowStats.dg rowIter))).add
      ((st.window.dg (rowIter + i)).mul (st.rowStats.df rowIter))
  let info := { st.info with cov := cov }
  { st with
    info := info
    bestCol := if k.computeCols then mergeToColumn k outerRowIter info st.bestCol dist else st.bestCol
    bestRow :=
      if k.computeRows then
        Function.update st.bestRow outerRowIter (mergeToRow k outerRowIter info dist (st.bestRow outerRowIter))
      else st.bestRow }

/-- The statements of `do_iteration_fast`. -/
inductive IterationStep
  /-- The first load of the window. -/
  | loadWindow
  /-- The window moves on for batch `j`. -/
  | slideWindow (j : ℕ)
  /-- The row statistics of batch `j`. -/
  | loadRows (j : ℕ)
  /-- Row `r` of batch `j`. -/
  | doRow (j r : ℕ)
  | updateCols (startIndex num : ℕ)
  | updateRows (rowIter num : ℕ)
deriving DecidableEq, Repr

/-- One statement. -/
def execStep (k : Instance K) (lane : ℕ) (peers : ℕ → ℕ → Dbl K) (st : IterationState K) :
    IterationStep → Option (IterationState K)
  | .loadWindow => do
      let window ← vecLoad k.tileWidth st.smem.col st.info.localCol k.innerUnrolledCols 0 st.window
      return { st with window := window }
  | .slideWindow j => do
      let kept := k.innerUnrolledCols - k.unrolledRows
      let window ← vecLoad k.tileWidth st.smem.col (st.info.localCol + j * k.unrolledRows + kept)
        k.unrolledRows kept (slide kept k.unrolledRows st.window)
      return { st with window := window }
  | .loadRows j => do
      let rowStats ← vecLoad k.tileHeight st.smem.row (st.info.localRow + j * k.unrolledRows)
        k.unrolledRows 0 st.rowStats
      return { st with rowStats := rowStats }
  | .doRow j r => some (doRow k (j * k.unrolledRows + r) r st)
  | .updateCols startIndex num =>
      if inArray k.tileWidth (st.info.localCol + startIndex) num then
        some { st with smem := { st.smem with
          localMpCol := flushEntries (fun _ => flushColumn k) (st.info.localCol + startIndex) num startIndex
            st.bestCol st.smem.localMpCol } }
      else none
  | .updateRows rowIter num =>
      if inArray k.tileHeight (st.info.localRow + rowIter) num then
        some { st with smem := { st.smem with
          localMpRow := flushEntries (fun r => flushRow k lane (peers r)) (st.info.localRow + rowIter) num
            rowIter st.bestRow st.smem.localMpRow } }
      else none

/-- Iteration `j` of the outer loop. -/
def batchSteps (k : Instance K) (j : ℕ) : List IterationStep :=
  (if 0 < j then [.slideWindow j] else []) ++ [.loadRows j] ++
    (List.range k.unrolledRows).map (.doRow j) ++
    (if k.computeCols then [.updateCols (j * k.unrolledRows) k.unrolledRows] else []) ++
    if k.computeRows then [.updateRows (j * k.unrolledRows) k.unrolledRows] else []

/-- The statements of a call. The last one flushes the columns that no batch has flushed. -/
def iterationSteps (k : Instance K) : List IterationStep :=
  [.loadWindow] ++ (List.range k.outerIters).flatMap (batchSteps k) ++
    if k.computeCols then [.updateCols k.outerUnrolledRows (k.unrolledCols - k.outerUnrolledRows)] else []

/-- The registers that a call does not initialise, as it finds them. -/
structure RawRegisters (K : Type) where
  window : Stats K
  rowStats : Stats K
  idxc : ℕ → UInt32
  idxr : ℕ → UInt32

/-- The variables of a call at its start. -/
def startIteration (k : Instance K) (raw : RawRegisters K) (info : SCAMPThreadInfo K) (smem : SCAMPSmem K) :
    IterationState K where
  info := info
  smem := smem
  window := raw.window
  rowStats := raw.rowStats
  bestCol p := ⟨.num (initDist k.type), raw.idxc p⟩
  bestRow r := ⟨.num (initDist k.type), raw.idxr r⟩

/-- The loops of a call. -/
def runIteration (k : Instance K) (lane : ℕ) (peers : ℕ → ℕ → Dbl K) (raw : RawRegisters K)
    (info : SCAMPThreadInfo K) (smem : SCAMPSmem K) : Option (IterationState K) :=
  (iterationSteps k).foldlM (execStep k lane peers) (startIteration k raw info smem)

/-- `do_iteration_fast`. -/
def doIterationFast (k : Instance K) (lane : ℕ) (peers : ℕ → ℕ → Dbl K) (raw : RawRegisters K)
    (info : SCAMPThreadInfo K) (smem : SCAMPSmem K) : Option (SCAMPThreadInfo K × SCAMPSmem K) := do
  let st ← runIteration k lane peers raw info smem
  return (st.info.advance k.outerUnrolledRows, st.smem)

/-! ## `do_row_edge` -/

/-- What `reduce_edge` does to the entry of a column. -/
def edgeColumn (k : Instance K) (globalRow : ℕ) (e : MpEntry K) (dist : Dbl K) : MpEntry K :=
  match k.type with
  | .oneNN => if dist.isNan then e else { e with value := fAtomicMax e.value dist }
  | .oneNNIndex | .matrixSummary | .approxAllNeighbors => mpAtomicMax e dist (UInt32.ofNat globalRow)
  | .sumThresh => if dist.gt (.num k.threshold) then doAtomicAdd e dist else e
  | _ => e

/-- What `reduce_edge` does to `dist_row` and `idx_row`. -/
def edgeRow (k : Instance K) (globalCol : ℕ) (best : MpEntry K) (dist : Dbl K) : MpEntry K :=
  match k.type with
  | .oneNN => if dist.isNan then best else { best with value := fmaxf best.value dist }
  | .oneNNIndex | .matrixSummary | .approxAllNeighbors =>
      if dist.gt best.value then ⟨dist, UInt32.ofNat globalCol⟩ else best
  | .sumThresh => if dist.gt (.num k.threshold) then { best with value := best.value.add dist } else best
  | _ => best

/-- `reduce_edge`, on `dist_row` with `idx_row` and the column profile. -/
def reduceEdge (k : Instance K) (diag numDiags : ℕ) (info : SCAMPThreadInfo K) (dist : ℕ → Dbl K)
    (s : MpEntry K × (ℕ → MpEntry K)) (iter : ℕ) : MpEntry K × (ℕ → MpEntry K) :=
  if info.globalCol + iter < k.nX ∧ diag + iter < numDiags then
    (if k.computeRows then edgeRow k (info.globalCol + iter) s.1 (dist iter) else s.1,
     if k.computeCols then
       Function.update s.2 (info.localCol + iter)
         (edgeColumn k info.globalRow (s.2 (info.localCol + iter)) (dist iter))
     else s.2)
  else s

/-- `reduce_row`. -/
def reduceRow (k : Instance K) (e distRow : MpEntry K) : MpEntry K :=
  match k.type with
  | .oneNN => { e with value := fAtomicMaxCheck e.value distRow.value (.num (-2)) }
  | .oneNNIndex | .matrixSummary | .approxAllNeighbors =>
      mpAtomicMaxCheck e distRow.value distRow.index (.num (-2))
  | .sumThresh => doAtomicAdd e distRow.value
  | _ => e

/-- `do_row_edge`. -/
def doRowEdge (k : Instance K) (diag numDiags : ℕ) (info : SCAMPThreadInfo K) (smem : SCAMPSmem K) :
    Option (SCAMPThreadInfo K × SCAMPSmem K) :=
  if inArray k.tileHeight info.localRow 1 && inArray k.tileWidth info.localCol k.diagsPerThread then
    let dist := fun i =>
      ((info.cov i).mul (smem.col.inorm (info.localCol + i))).mul (smem.row.inorm info.localRow)
    let cov := fun i =>
      ((info.cov i).add ((smem.col.df (info.localCol + i)).mul (smem.row.dg info.localRow))).add
        ((smem.col.dg (info.localCol + i)).mul (smem.row.df info.localRow))
    let reduced := (List.range k.diagsPerThread).foldl (reduceEdge k diag numDiags info dist)
      (⟨.num (initDist k.type), 0⟩, smem.localMpCol)
    some ({ info with cov := cov },
      { smem with
        localMpCol := reduced.2
        localMpRow :=
          if k.computeRows then
            Function.update smem.localMpRow info.localRow
              (reduceRow k (smem.localMpRow info.localRow) reduced.1)
          else smem.localMpRow })
  else none

/-- `n` calls of `do_row_edge`, after each of which the position goes on by one. -/
def doRowsEdge (k : Instance K) (diag numDiags : ℕ) :
    ℕ → SCAMPThreadInfo K → SCAMPSmem K → Option (SCAMPThreadInfo K × SCAMPSmem K)
  | 0, info, smem => some (info, smem)
  | n + 1, info, smem => do
      let next ← doRowEdge k diag numDiags info smem
      doRowsEdge k diag numDiags n (next.1.advance 1) next.2

/-! ## A warp -/

/-- What the register `distr[row]` of a thread holds when its batch is flushed: no later statement of the
    call writes it. -/
def rowRegister (k : Instance K) (raw : RawRegisters K) (info : SCAMPThreadInfo K) (smem : SCAMPSmem K)
    (row : ℕ) : Dbl K :=
  match runIteration k 0 (fun _ _ => .num 0) raw info smem with
  | some st => (st.bestRow row).value
  | none => .nan

/-- `do_iteration_fast`, called by the 32 threads of a warp. -/
def warpIterationFast (k : Instance K) (raw : ℕ → RawRegisters K) (info : ℕ → SCAMPThreadInfo K)
    (smem : SCAMPSmem K) : Option (SCAMPSmem K) :=
  (List.range 32).foldlM
    (fun sm lane => do
      let next ← doIterationFast k lane (fun row peer => rowRegister k (raw peer) (info peer) smem row)
        (raw lane) (info lane) sm
      return next.2)
    smem

/-- The calls of `do_row_edge` for as many rows, by the 32 threads of a warp. -/
def warpRowsEdge (k : Instance K) (diag : ℕ → ℕ) (numDiags : ℕ) (info : ℕ → SCAMPThreadInfo K)
    (smem : SCAMPSmem K) : Option (SCAMPSmem K) :=
  (List.range 32).foldlM
    (fun sm lane => do
      let next ← doRowsEdge k (diag lane) numDiags k.outerUnrolledRows (info lane) sm
      return next.2)
    smem

end

end SlidingWindow

end Scamp
