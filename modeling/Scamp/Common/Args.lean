import Scamp.Common.Profile
import Mathlib.Data.Rat.Init

/-!
# `Common.Args` — the arguments of an operation and the sizes derived from them

`SCAMPArgs` with its `validate` and `InitProfileMemory` (`scamp_args.cpp`), and `OpInfo`, whose constructor
chooses the tile size (`common.cpp`). A `Join` is an operation that `do_SCAMP` accepts for CPU workers:
its fields carry the checks of `validate` and what every caller sets, so that no later statement repeats
them.

The switch for messages on standard output is left out.
-/

namespace Scamp

section
variable {K : Type} [Field K] [LinearOrder K]

/-! ## Arguments -/

/-- Arguments for a SCAMP operation. -/
structure SCAMPArgs (K : Type) where
  timeseriesA : Vec (Sample K)
  timeseriesB : Vec (Sample K)
  profileA : Profile K
  profileB : Profile K
  hasB : Bool
  window : ℕ
  maxTileSize : ℕ
  distributedStartRow : ℤ
  distributedStartCol : ℤ
  distanceThreshold : K
  precisionType : SCAMPPrecisionType
  profileType : SCAMPProfileType
  computingRows : Bool
  computingColumns : Bool
  keepRowsSeparate : Bool
  isAligned : Bool
  maxMatchesPerColumn : ℤ
  matrixHeight : ℤ
  matrixWidth : ℤ

/-- `GetDefaultSCAMPArgs` of the Python module, before it sets the series and the window. -/
def getDefaultSCAMPArgs (profileType : SCAMPProfileType) : SCAMPArgs K where
  timeseriesA := .replicate 0 .nan
  timeseriesB := .replicate 0 .nan
  profileA := ⟨profileType, .replicate 0 (.ofValue 0)⟩
  profileB := ⟨profileType, .replicate 0 (.ofValue 0)⟩
  hasB := false
  window := 0
  maxTileSize := 128000
  distributedStartRow := -1
  distributedStartCol := -1
  distanceThreshold := 0
  precisionType := .double
  profileType := profileType
  computingRows := true
  computingColumns := true
  keepRowsSeparate := false
  isAligned := false
  maxMatchesPerColumn := 5
  matrixHeight := 50
  matrixWidth := 50

/-- The arguments of the Python module's self-join of `a`. -/
def selfJoinArgs (profileType : SCAMPProfileType) (a : Vec (Sample K)) (m : ℕ) : SCAMPArgs K :=
  { getDefaultSCAMPArgs profileType with
    timeseriesA := a, timeseriesB := a, window := m, hasB := false, computingRows := true }

/-- The arguments of the Python module's join of `a` with `b`. -/
def abJoinArgs (profileType : SCAMPProfileType) (a b : Vec (Sample K)) (m : ℕ) : SCAMPArgs K :=
  { getDefaultSCAMPArgs profileType with
    timeseriesA := a, timeseriesB := b, window := m, hasB := true, computingRows := false }

namespace SCAMPArgs

/-- The number of subsequences of `A`. -/
def profileASize (args : SCAMPArgs K) : ℕ := args.timeseriesA.size - args.window + 1

/-- The number of subsequences of `B`, which is `A` in a self-join. -/
def profileBSize (args : SCAMPArgs K) : ℕ :=
  if args.hasB then args.timeseriesB.size - args.window + 1 else args.profileASize

/-- `SCAMPArgs::validate`. -/
def validate (args : SCAMPArgs K) : Except String Unit :=
  if args.precisionType = .mixed then
    .error "Error: PRECISION_MIXED is no longer supported. Use PRECISION_SINGLE or PRECISION_DOUBLE."
  else if args.window < 3 then .error "Error: Subsequence length must be at least 3"
  else if args.maxTileSize < 1024 then .error "Error: max tile size must be at least 1024"
  else if args.maxTileSize / 2 < args.window then
    .error "Error: Tile length and width must be at least 2x larger than the window size"
  else if args.timeseriesA.size < args.window ∨ (args.hasB ∧ args.timeseriesB.size < args.window) then
    .error "Error: Input time series must be at least 'subesequence window size' in length"
  else if args.profileType = .matrixSummary ∧ 0 < args.matrixWidth ∧
      (args.profileASize : ℤ) < args.matrixWidth then
    .error "Error: Output matrix must have smaller dimensions than the input time series."
  else if args.profileType = .matrixSummary ∧ 0 < args.matrixHeight ∧
      (args.profileBSize : ℤ) < args.matrixHeight then
    .error "Error: Output matrix must have smaller dimensions than the input time series."
  else .ok ()

/-- `SCAMPArgs::InitProfileMemory`, for arguments that `validate` accepts (its own size check then
    passes). -/
def initProfileMemory (args : SCAMPArgs K) : SCAMPArgs K :=
  { args with
    profileA := args.profileA.alloc args.profileASize args.matrixHeight args.matrixWidth
    profileB :=
      if args.keepRowsSeparate then
        args.profileB.alloc args.profileBSize args.matrixHeight args.matrixWidth
      else args.profileB }

omit [Field K] [LinearOrder K] in
/-- What `validate` checks of the sizes. -/
theorem sizes_of_validate {args : SCAMPArgs K} (h : args.validate = .ok ()) :
    3 ≤ args.window ∧ 2 * args.window ≤ args.maxTileSize ∧ args.window ≤ args.timeseriesA.size ∧
      (args.hasB = true → args.window ≤ args.timeseriesB.size) := by
  unfold validate at h
  split_ifs at h with h1 h2 h3 h4 h5 h6 h7
  refine ⟨by omega, by omega, by omega, fun hb => ?_⟩
  by_contra hlt
  exact h5 (Or.inr ⟨hb, by omega⟩)

end SCAMPArgs

/-! ## Derived sizes -/

/-- Information about a SCAMP operation. -/
structure OpInfo (K : Type) where
  fullTsLenA : ℕ
  fullTsLenB : ℕ
  maxTileTsSize : ℕ
  maxTileWidth : ℕ
  maxTileHeight : ℕ
  mpWindow : ℕ
  globalStartRowPosition : ℤ
  globalStartColPosition : ℤ
  threshold : K
  profileType : SCAMPProfileType
  fpType : SCAMPPrecisionType
  selfJoin : Bool
  computingRows : Bool
  computingCols : Bool
  isAligned : Bool
  keepRowsSeparate : Bool
  maxMatchesPerColumn : ℤ
  maxMatchesPerTile : ℤ
  matrixHeight : ℤ
  matrixWidth : ℤ
  colsPerCell : ℚ
  rowsPerCell : ℚ

/-- `PROFILE_MEMORY_BUDGET`, half a gigabyte. -/
def profileMemoryBudget : ℤ := 536870912

/-- `sizeof(SCAMPmatch)`. -/
def sizeofSCAMPmatch : ℤ := 12

/-- The length of the series under one tile: an equal share for each worker, cut to `max_tile_size`, and
    raised to twice the window so that no tile is smaller than the exclusion zone. -/
def tileTsSize (Asize Bsize windowSz maxTileSize numWorkers : ℕ) : ℕ :=
  let share := max Asize Bsize / numWorkers
  let capped := if maxTileSize < share then maxTileSize else share
  if capped < windowSz + windowSz then windowSz + windowSz else capped

/-- A tile's series holds two windows. -/
theorem two_windows_le_tileTsSize (Asize Bsize windowSz maxTileSize numWorkers : ℕ) :
    windowSz + windowSz ≤ tileTsSize Asize Bsize windowSz maxTileSize numWorkers := by
  unfold tileTsSize
  dsimp only
  split_ifs with h1 h2 h2
  · exact Nat.le_refl _
  · exact Nat.le_of_not_lt h2
  · exact Nat.le_refl _
  · exact Nat.le_of_not_lt h2

/-- `OpInfo::OpInfo`, with the arguments `do_SCAMP` passes it. -/
def OpInfo.ofArgs (args : SCAMPArgs K) (numWorkers : ℕ) : OpInfo K :=
  let tsSize :=
    tileTsSize args.timeseriesA.size args.timeseriesB.size args.window args.maxTileSize numWorkers
  let width := tsSize - args.window + 1
  let budget := profileMemoryBudget / numWorkers / sizeofSCAMPmatch
  let perTile := args.maxMatchesPerColumn * width
  let fullTsLenB := if args.hasB then args.timeseriesB.size else args.timeseriesA.size
  let summary := args.profileType = .matrixSummary
  { fullTsLenA := args.timeseriesA.size
    fullTsLenB := fullTsLenB
    maxTileTsSize := tsSize
    maxTileWidth := width
    maxTileHeight := width
    mpWindow := args.window
    globalStartRowPosition := args.distributedStartRow
    globalStartColPosition := args.distributedStartCol
    threshold := args.distanceThreshold
    profileType := args.profileType
    fpType := args.precisionType
    selfJoin := !args.hasB
    -- matrix summaries only need to reduce along the columns
    computingRows := if summary then false else args.computingRows
    computingCols := args.computingColumns
    isAligned := args.isAligned
    keepRowsSeparate := if summary then false else args.keepRowsSeparate
    maxMatchesPerColumn := args.maxMatchesPerColumn
    maxMatchesPerTile := if perTile < budget then budget else perTile
    matrixHeight := args.matrixHeight
    matrixWidth := args.matrixWidth
    colsPerCell :=
      if summary then ((args.timeseriesA.size - args.window + 1 : ℕ) : ℚ) / args.matrixWidth else 0
    rowsPerCell :=
      if summary then ((fullTsLenB - args.window + 1 : ℕ) : ℚ) / args.matrixHeight else 0 }

/-! ## Accepted joins -/

/-- A join that `do_SCAMP` runs on CPU workers: the arguments pass `validate`, there is a worker, and the
    fields that every caller (the command line, the Python module, the distributed worker) sets have the
    values these set. -/
structure Join (K : Type) [Field K] [LinearOrder K] where
  args : SCAMPArgs K
  numThreads : ℕ
  threads_pos : 0 < numThreads
  valid : args.validate = .ok ()
  columns : args.computingColumns = true
  rows_self : args.hasB = false → args.computingRows = true
  rows_ab : args.hasB = true → args.computingRows = args.keepRowsSeparate
  type_a : args.profileA.type = args.profileType
  type_b : args.keepRowsSeparate = true → args.profileB.type = args.profileType

namespace Join
variable (J : Join K)

/-- The operation's information. -/
def info : OpInfo K := .ofArgs J.args J.numThreads

/-- The first series handed to `do_join`. -/
def seriesA : Vec (Sample K) := J.args.timeseriesA

/-- The second series handed to `do_join`: `A` again in a self-join. -/
def seriesB : Vec (Sample K) := if J.args.hasB then J.args.timeseriesB else J.args.timeseriesA

theorem selfJoin_of_self (h : J.args.hasB = false) : J.info.selfJoin = true := by
  show (!J.args.hasB) = true
  rw [h]
  rfl

theorem selfJoin_of_ab (h : J.args.hasB = true) : J.info.selfJoin = false := by
  show (!J.args.hasB) = false
  rw [h]
  rfl

theorem three_le_window : 3 ≤ J.info.mpWindow := (SCAMPArgs.sizes_of_validate J.valid).1

theorem window_le_lenA : J.info.mpWindow ≤ J.info.fullTsLenA :=
  (SCAMPArgs.sizes_of_validate J.valid).2.2.1

theorem window_le_lenB : J.info.mpWindow ≤ J.info.fullTsLenB := by
  obtain ⟨_, _, hA, hB⟩ := SCAMPArgs.sizes_of_validate J.valid
  show J.args.window ≤ if J.args.hasB then _ else _
  split
  · next hb => exact hB hb
  · exact hA

theorem two_windows_le_tile : 2 * J.info.mpWindow ≤ J.info.maxTileTsSize := by
  have := two_windows_le_tileTsSize J.args.timeseriesA.size J.args.timeseriesB.size J.args.window
    J.args.maxTileSize J.numThreads
  show 2 * J.args.window ≤ tileTsSize _ _ _ _ _
  omega

theorem tileHeight_eq : J.info.maxTileHeight = J.info.maxTileWidth := rfl

theorem tileWidth_eq : J.info.maxTileWidth = J.info.maxTileTsSize - J.info.mpWindow + 1 := rfl

/-- A tile has more rows and columns than a window has samples. -/
theorem window_lt_tileWidth : J.info.mpWindow < J.info.maxTileWidth := by
  have := J.two_windows_le_tile
  have := J.three_le_window
  rw [tileWidth_eq]
  omega

end Join

end

end Scamp
