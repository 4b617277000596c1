import Scamp.Core.Exclusion
import Mathlib.Algebra.Order.Floor.Defs
import Mathlib.Data.Rat.Floor

/-!
# `Core.Kernel` — the CPU kernel

`cpu_kernels.cpp`: one pass over the diagonals of a tile. Blocks of `unrollWid` diagonals are walked row by
row; each row of a block computes the correlations of its cells, updates the column profile cell by cell
and the row profile with the reduction of the row, and moves the covariances on to the next row.

What the build decides is a parameter (`Build`): the unroll width, whether the row reduction with an index
is the hand-written one or Eigen's, and Eigen's `maxCoeff` itself, of which only the documented behaviour
is used.

`int` arithmetic is on natural numbers; where the source takes `max(0, ·)` of a difference, or loops up to
one, the sum is written first so that truncated subtraction gives the same bound.
-/

namespace Scamp

/-! ## The loop bounds -/

namespace KernelDims

/-- `info.num_diags`. -/
def numDiags (a : KernelDims) : ℕ := a.nX + 1 - a.exclusionUpper

/-- `info.row_iters`: all rows of the block of diagonals that starts at `tileDiag`. -/
def rowIters (a : KernelDims) (tileDiag : ℕ) : ℕ := min (a.nX - tileDiag) a.nY

/-- `info.full_row_iters`: its rows that have all `unrollWid` diagonals. -/
def fullRowIters (a : KernelDims) (unrollWid tileDiag : ℕ) : ℕ :=
  if tileDiag + unrollWid ≥ a.numDiags then 0 else min (a.nX + 1 - tileDiag - unrollWid) a.nY

/-- `diagmax` of `handle_row_slow`. -/
def diagmax (a : KernelDims) (unrollWid tileDiag row : ℕ) : ℕ :=
  min (min a.numDiags (a.nX - row)) (tileDiag + unrollWid)

/-- The condition under which `compute_cpu_resources_and_launch` launches the kernel. -/
def launches (a : KernelDims) : Bool := decide (a.exclusionLower + a.exclusionUpper < a.nX)

end KernelDims

/-! ## The build -/

section
variable {K : Type} [Field K] [LinearOrder K]

/-- The unroll width, whether the row reduction with an index is the hand-written one or Eigen's, and Eigen's
    `maxCoeff(&index)`, which on an array without NaNs returns a largest entry and a position of it. -/
structure KernelBuild (K : Type) [LinearOrder K] where
  unrollWid : ℕ
  unrollWid_pos : 0 < unrollWid
  eigenIndexReduction : Bool
  maxCoeff : Vec (Dbl K) → Dbl K × ℕ
  maxCoeff_spec : ∀ (corr : Vec (Dbl K)) (x : ℕ → K), 0 < corr.size →
    (∀ d < corr.size, corr.get d = .num (x d)) →
      ∃ i < corr.size, maxCoeff corr = (.num (x i), i) ∧ ∀ d < corr.size, x d ≤ x i

/-- The program is built with unroll widths that are powers of two and at least `2`. -/
structure Build (K : Type) [LinearOrder K] extends KernelBuild K where
  unrollWid_pow : ∃ k, unrollWid = 2 ^ (k + 1)

instance : Coe (Build K) (KernelBuild K) := ⟨Build.toKernelBuild⟩

/-! ## Inputs and state -/

/-- The inputs of a kernel pass (`SCAMPKernelInputArgs`), but for the covariances, which the kernel
    overwrites. -/
structure KernelArgs (K : Type) extends KernelDims where
  dfa : Buffer K
  dfb : Buffer K
  dga : Buffer K
  dgb : Buffer K
  normsa : Buffer (Dbl K)
  normsb : Buffer (Dbl K)
  matrixWidth : ℤ
  rowsPerCell : ℚ
  colsPerCell : ℚ
  globalStartCol : ℕ
  globalStartRow : ℕ
  hasNanInput : Bool
  threshold : K

/-- The memory a kernel pass writes. -/
structure KernelState (K : Type) where
  cov : Buffer K
  profileA : Buffer (MpEntry K)
  profileB : Buffer (MpEntry K)

/-! ## Updating the profiles -/

/-- `matrix_index` of the cell with the given column and row. -/
def matrixIndex (a : KernelArgs K) (col row : ℕ) : ℤ :=
  let colIdx := ⌊((col + a.globalStartCol : ℕ) : ℚ) / a.colsPerCell⌋
  let rowIdx := ⌊((row + a.globalStartRow : ℕ) : ℚ) / a.rowsPerCell⌋
  rowIdx * a.matrixWidth + colIdx

/-- `update_mp`: the entry of column `col`, or of row `row` when `rowwise`, takes in a correlation. -/
def updateMp (type : SCAMPProfileType) (rowwise : Bool) (a : KernelArgs K) (mp : Buffer (MpEntry K))
    (corr : Dbl K) (row col : ℕ) : Buffer (MpEntry K) :=
  let index := if rowwise then row else col
  match type with
  | .oneNNIndex =>
      let matchIndex := if rowwise then col else row
      if corr.gt (mp index).value then Function.update mp index ⟨corr, UInt32.ofNat matchIndex⟩ else mp
  | .oneNN =>
      if (mp index).value.ge corr then mp
      else Function.update mp index { mp index with value := corr }
  | .sumThresh =>
      if corr.gt (.num a.threshold) then
        Function.update mp index { mp index with value := (mp index).value.add corr }
      else mp
  | .matrixSummary =>
      -- in a transposed pass the roles of row and column are exchanged once more
      let cell := (if rowwise then matrixIndex a row col else matrixIndex a col row).toNat
      if (Dbl.num a.threshold).gt corr || (mp cell).value.ge corr then mp
      else Function.update mp cell { mp cell with value := corr }
  | _ => mp

/-! ## Reducing a row -/

/-- One pass of the hand-written reduction: entry `i < offset` takes the better of itself and entry
    `i + offset`, itself when they are equal. An iteration writes entry `i` only and reads entries `i` and
    `i + offset`, so the pass is pointwise. -/
def horizontalReduction (offset : ℕ) (s : (ℕ → Dbl K) × (ℕ → ℕ)) : (ℕ → Dbl K) × (ℕ → ℕ) :=
  (fun i => if i < offset then (if (s.1 i).ge (s.1 (i + offset)) then s.1 i else s.1 (i + offset))
    else s.1 i,
   fun i => if i < offset then (if (s.1 i).ge (s.1 (i + offset)) then s.2 i else s.2 (i + offset))
    else s.2 i)

/-- `for (int i = offset; i > 0; i /= 2) horizontal_reduction(i)`. -/
def reduceFrom (offset : ℕ) (s : (ℕ → Dbl K) × (ℕ → ℕ)) : (ℕ → Dbl K) × (ℕ → ℕ) :=
  if offset = 0 then s else reduceFrom (offset / 2) (horizontalReduction offset s)
termination_by offset
decreasing_by omega

/-- The sum of the entries above the threshold: `(corr > thresh).select(corr, 0).sum()`. -/
def sumAbove (corr : Vec (Dbl K)) (thresh : K) : Dbl K :=
  ((List.range corr.size).map fun d =>
    if (corr.get d).gt (.num thresh) then corr.get d else .num 0).foldl Dbl.add (.num 0)

/-- `reduce_row_fast`, for rows of the unroll width: the reduced value and its position. The first step of
    the hand-written reduction starts from the positions themselves. -/
def reduceRowFast (bld : KernelBuild K) (type : SCAMPProfileType) (corr : Vec (Dbl K)) (thresh : K) :
    Dbl K × ℕ :=
  match type with
  | .oneNNIndex =>
      if bld.eigenIndexReduction then bld.maxCoeff corr
      else
        let first := horizontalReduction (bld.unrollWid / 2) (corr.get, id)
        let s := reduceFrom (bld.unrollWid / 4) first
        (s.1 0, s.2 0)
  | .oneNN => ((bld.maxCoeff corr).1, 0)
  | .sumThresh => (sumAbove corr thresh, 0)
  | _ => (corr.get 0, 0)

/-- `reduce_row_eigen`, for rows of any other length. -/
def reduceRowEigen (bld : KernelBuild K) (type : SCAMPProfileType) (corr : Vec (Dbl K)) (thresh : K) :
    Dbl K × ℕ :=
  match type with
  | .oneNNIndex => bld.maxCoeff corr
  | .oneNN => ((bld.maxCoeff corr).1, 0)
  | .sumThresh => (sumAbove corr thresh, 0)
  | _ => (corr.get 0, 0)

/-! ## One row of a block of diagonals -/

/-- `update_columnwise`. -/
def updateColumnwise (type : SCAMPProfileType) (a : KernelArgs K) (tileDiag row : ℕ)
    (corr : Vec (Dbl K)) (profile : Buffer (MpEntry K)) : Buffer (MpEntry K) :=
  (List.range corr.size).foldl
    (fun mp localDiag => updateMp type false a mp (corr.get localDiag) row (tileDiag + row + localDiag))
    profile

/-- `update_rowwise`: cell by cell for a matrix summary, else with the reduction of the row. -/
def updateRowwise (reduceRow : SCAMPProfileType → Vec (Dbl K) → K → Dbl K × ℕ)
    (type : SCAMPProfileType) (a : KernelArgs K) (tileDiag row : ℕ) (corr : Vec (Dbl K))
    (profile : Buffer (MpEntry K)) : Buffer (MpEntry K) :=
  if type = .matrixSummary then
    (List.range corr.size).foldl
      (fun mp localDiag => updateMp type true a mp (corr.get localDiag) row (tileDiag + row + localDiag))
      profile
  else
    let reduced := reduceRow type corr a.threshold
    updateMp type true a profile reduced.1 row (reduced.2 + tileDiag + row)

/-- A correlation as the kernel uses it: when the tile has NaN inputs, a non-finite one is replaced. -/
def dropNan (type : SCAMPProfileType) (a : KernelArgs K) (corr : Dbl K) : Dbl K :=
  if a.hasNanInput then (if corr.isFinite then corr else .num (initDist type)) else corr

/-- The correlations of the cells of a row. -/
def rowCorr (type : SCAMPProfileType) (a : KernelArgs K) (cov : Buffer K) (tileDiag row len : ℕ) :
    Vec (Dbl K) :=
  ⟨len, fun d => dropNan type a
    (((Dbl.num (cov (tileDiag + d))).mul (a.normsa (tileDiag + row + d))).mul (a.normsb row))⟩

/-- `handle_row` on the `len` diagonals from `tileDiag` on. -/
def handleRow (reduceRow : SCAMPProfileType → Vec (Dbl K) → K → Dbl K × ℕ) (type : SCAMPProfileType)
    (computingRows computingCols : Bool) (a : KernelArgs K) (tileDiag row len : ℕ)
    (s : KernelState K) : KernelState K :=
  let corr := rowCorr type a s.cov tileDiag row len
  { profileA :=
      if computingCols then updateColumnwise type a tileDiag row corr s.profileA else s.profileA
    profileB :=
      if computingRows then updateRowwise reduceRow type a tileDiag row corr s.profileB else s.profileB
    cov := fun d =>
      if tileDiag ≤ d ∧ d < tileDiag + len then
        s.cov d + a.dfa (d + row) * a.dgb row + a.dga (d + row) * a.dfb row
      else s.cov d }

/-- `handle_row_fast`. -/
def handleRowFast (bld : KernelBuild K) (type : SCAMPProfileType) (computingRows computingCols : Bool)
    (a : KernelArgs K) (tileDiag row : ℕ) (s : KernelState K) : KernelState K :=
  handleRow (reduceRowFast bld) type computingRows computingCols a tileDiag row bld.unrollWid s

/-- `handle_row_slow`. -/
def handleRowSlow (bld : KernelBuild K) (type : SCAMPProfileType) (computingRows computingCols : Bool)
    (a : KernelArgs K) (tileDiag row : ℕ) (s : KernelState K) : KernelState K :=
  handleRow (reduceRowEigen bld) type computingRows computingCols a tileDiag row
    (a.diagmax bld.unrollWid tileDiag row - tileDiag) s

/-! ## A whole pass -/

/-- `do_tile`. -/
def doTile (bld : KernelBuild K) (type : SCAMPProfileType) (computingRows computingCols : Bool)
    (a : KernelArgs K) (s : KernelState K) : KernelState K :=
  (Lib.forRange a.exclusionLower a.numDiags bld.unrollWid).foldl (fun s tileDiag =>
    let fullRowIters := a.fullRowIters bld.unrollWid tileDiag
    -- fast case where we can unroll fully
    let s := (List.range fullRowIters).foldl (fun s row =>
      handleRowFast bld type computingRows computingCols a tileDiag row s) s
    -- slow case where we are too close to the edge to unroll fully
    (List.range' fullRowIters (a.rowIters tileDiag - fullRowIters)).foldl (fun s row =>
      handleRowSlow bld type computingRows computingCols a tileDiag row s) s) s

/-- `LaunchDoTile`. -/
def launchDoTile (bld : Build K) (type : SCAMPProfileType) (fpType : SCAMPPrecisionType)
    (computingRows computingCols : Bool) (a : KernelArgs K) (s : KernelState K) :
    Except SCAMPError (KernelState K) :=
  if computingRows || computingCols then
    match fpType with
    | .ultra | .double => .ok (doTile bld type computingRows computingCols a s)
    | _ => .error .functionalityUnimplemented
  else .ok s

/-- `compute_cpu_resources_and_launch`. -/
def computeCpuResourcesAndLaunch (bld : Build K) (type : SCAMPProfileType)
    (fpType : SCAMPPrecisionType) (doRows doCols : Bool) (a : KernelArgs K) (s : KernelState K) :
    Except SCAMPError (KernelState K) :=
  if a.launches then
    match type with
    | .sumThresh | .oneNNIndex | .oneNN | .matrixSummary =>
        launchDoTile bld type fpType doRows doCols a s
    | _ => .error .functionalityUnimplemented
  else .ok s

end

/-! ## The cells a pass visits -/

/-- The rows of a block of diagonals that `do_tile` walks: the fast ones, then the slow ones, each with the
    number of its diagonals. -/
def blockRows (unrollWid : ℕ) (a : KernelDims) (tileDiag : ℕ) : List (ℕ × ℕ) :=
  let fullRowIters := a.fullRowIters unrollWid tileDiag
  (List.range fullRowIters).map (fun row => (row, unrollWid)) ++
  (List.range' fullRowIters (a.rowIters tileDiag - fullRowIters)).map fun row =>
    (row, a.diagmax unrollWid tileDiag row - tileDiag)

/-- The cells of one row of a block: `(row, column)`. -/
def rowCells (tileDiag row len : ℕ) : List (ℕ × ℕ) :=
  (List.range len).map fun localDiag => (row, tileDiag + row + localDiag)

/-- The cells `do_tile` visits, in order. -/
def doTileCells (unrollWid : ℕ) (a : KernelDims) : List (ℕ × ℕ) :=
  (Lib.forRange a.exclusionLower a.numDiags unrollWid).flatMap fun tileDiag =>
    (blockRows unrollWid a tileDiag).flatMap fun r => rowCells tileDiag r.1 r.2

/-- The cells a launch visits. -/
def launchCells (unrollWid : ℕ) (a : KernelDims) : List (ℕ × ℕ) :=
  if a.launches then doTileCells unrollWid a else []

/-- A cell of a pass as a cell of the distance matrix. -/
def globalCell (t : TileDims) (transpose : Bool) (cell : ℕ × ℕ) : ℕ × ℕ :=
  if transpose then (t.row + cell.2, t.col + cell.1) else (t.row + cell.1, t.col + cell.2)

section
variable {K : Type}

/-- The cells of the distance matrix that one pass over a tile compares. -/
def passCells (unrollWid : ℕ) (info : OpInfo K) (t : TilePos) (transpose : Bool) : List (ℕ × ℕ) :=
  (launchCells unrollWid (kernelDims info (tileDims info t) transpose (!info.selfJoin))).map
    (globalCell (tileDims info t) transpose)

/-- The cells that all passes over a tile compare. -/
def tileCells (unrollWid : ℕ) (info : OpInfo K) (t : TilePos) : List (ℕ × ℕ) :=
  (tilePasses info t).flatMap (passCells unrollWid info t)

/-- The cells that a whole operation compares: every pass of every tile of the work list. -/
def comparedCells (unrollWid : ℕ) (info : OpInfo K) : List (ℕ × ℕ) :=
  (getTiles info).flatMap (tileCells unrollWid info)

end

end Scamp
