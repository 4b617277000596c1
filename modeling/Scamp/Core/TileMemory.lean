import Scamp.Core.Operation

/-!
# `Core.TileMemory` — the arrays of an operation and the ranges a tile touches

What `do_work` reads and writes for one tile of a profile type that keeps an entry for each subsequence
(`1NN_INDEX`, `1NN` and `SUM_THRESH`), as ranges of bytes: the copies of `InitTimeseries`, `InitStats` and
`InitProfile`, the loops of `compute_QT_CPU`, the copies of `CopyFromDevice` and the loops of
`MergeTileToProfile`. What the kernel passes touch between them is not listed.

The lengths of these ranges pass through `int` variables. A conversion to `int` that does not fit, a product
of two `int`s that overflows and a `size_t` difference that wraps are given no value.
-/

namespace Scamp

/-! ## Machine integers -/

/-- The largest `int`. -/
def maxInt : ℕ := 2147483647

/-- The `int` that holds `x`. -/
def toInt (x : ℕ) : Option ℕ := if x ≤ maxInt then some x else none

/-- `x - y` of two `size_t`. -/
def subSize (x y : ℕ) : Option ℕ := if y ≤ x then some (x - y) else none

theorem toInt_eq_some {x y : ℕ} : toInt x = some y ↔ x ≤ maxInt ∧ x = y := by
  unfold toInt
  split_ifs with h <;> simp [h]

theorem subSize_eq_some {x y z : ℕ} : subSize x y = some z ↔ y ≤ x ∧ x - y = z := by
  unfold subSize
  split_ifs with h <;> simp [h]

/-! ## Arrays -/

/-- The arrays of an operation (`series`, the statistics, `profile`) and those of a tile. -/
inductive Mem
  | series (side : Side)
  | norms (side : Side)
  | means (side : Side)
  | df (side : Side)
  | dg (side : Side)
  | dcFwd
  | dcBkwd
  | drFwd
  | drBkwd
  | profile (side : Side)
  | tileSeries (side : Side)
  | tileQT
  | tileNorms (side : Side)
  | tileMeans (side : Side)
  | tileDf (side : Side)
  | tileDg (side : Side)
  | profileTileDev (side : Side)
  | profileTile (side : Side)
deriving DecidableEq, Repr

/-- `sizeof(double)`. -/
def sizeofDouble : ℕ := 8

/-- `GetProfileTypeSize`; it throws for the other types. -/
def getProfileTypeSize : SCAMPProfileType → Option ℕ
  | .sumThresh => some sizeofDouble
  | .oneNNIndex => some 8
  | .oneNN | .matrixSummary => some 4
  | .approxAllNeighbors | .knn => some 12
  | _ => none

section
variable {K : Type} [Field K] [LinearOrder K]

/-- The lengths of the two series handed to `do_join`. -/
def OpInfo.fullTsLen (info : OpInfo K) : Side → ℕ
  | .a => info.fullTsLenA
  | .b => info.fullTsLenB

/-- The global profiles, as `InitProfileMemory` leaves them. -/
def SCAMPArgs.profile (args : SCAMPArgs K) : Side → Profile K
  | .a => args.initProfileMemory.profileA
  | .b => args.initProfileMemory.profileB

/-- The most columns, or rows, of a tile. -/
def OpInfo.maxTileExtent (info : OpInfo K) : Side → ℕ
  | .a => info.maxTileWidth
  | .b => info.maxTileHeight

/-- The bytes allocated for an array by the caller, by `do_join` and by the constructor of `Tile`.
    `profileSize` is the size of a profile entry. -/
def Mem.bytes (args : SCAMPArgs K) (info : OpInfo K) (profileSize : ℕ) : Mem → ℕ
  | .series s => sizeofDouble * info.fullTsLen s
  | .norms s | .means s | .df s | .dg s => sizeofDouble * (info.fullTsLen s - info.mpWindow + 1)
  | .dcFwd | .dcBkwd => sizeofDouble * (info.fullTsLenA - (info.mpWindow - 1) + 1)
  | .drFwd | .drBkwd => sizeofDouble * (info.fullTsLenB - (info.mpWindow - 1) + 1)
  | .profile s => profileSize * (args.profile s).data.size
  | .tileSeries _ => sizeofDouble * info.maxTileTsSize
  | .tileQT => sizeofDouble * info.maxTileWidth
  | .tileNorms s | .tileMeans s | .tileDf s | .tileDg s => sizeofDouble * info.maxTileExtent s
  | .profileTileDev s => profileSize * info.maxTileExtent s
  | .profileTile _ => profileSize * info.maxTileWidth

/-! ## Ranges -/

/-- A range of an array that is read or written, in bytes. -/
structure Access where
  mem : Mem
  start : ℕ
  length : ℕ
deriving DecidableEq, Repr

/-- `Memcopy` of `bytes` bytes of `src`, from `start` on, to the front of `dst`. -/
def memcopyRanges (dst src : Mem) (start bytes : ℕ) : List Access := [⟨src, start, bytes⟩, ⟨dst, 0, bytes⟩]

/-- The number of subsequences of a piece of series, `len - mp_window + 1`. -/
def subsequences (len window : ℕ) : Option ℕ := do return (← subSize len window) + 1

/-- `Tile::InitTimeseries`. -/
def initTimeseriesRanges (t : TileDims) : List Access :=
  memcopyRanges (.tileSeries .a) (.series .a) (sizeofDouble * t.col) (sizeofDouble * t.width) ++
  memcopyRanges (.tileSeries .b) (.series .b) (sizeofDouble * t.row) (sizeofDouble * t.height)

/-- `Tile::InitStats`. -/
def initStatsRanges (info : OpInfo K) (t : TileDims) : Option (List Access) := do
  let bytesA := (← subsequences t.width info.mpWindow) * sizeofDouble
  let bytesB := (← subsequences t.height info.mpWindow) * sizeofDouble
  let startA := sizeofDouble * t.col
  let startB := sizeofDouble * t.row
  let ultra := info.fpType = .ultra
  return memcopyRanges (.tileNorms .a) (.norms .a) startA bytesA ++
    memcopyRanges (.tileNorms .b) (.norms .b) startB bytesB ++
    memcopyRanges (.tileMeans .a) (.means .a) startA bytesA ++
    memcopyRanges (.tileMeans .b) (.means .b) startB bytesB ++
    memcopyRanges (.tileDf .a) (if ultra then .dcBkwd else .df .a) startA bytesA ++
    memcopyRanges (.tileDg .a) (if ultra then .dcFwd else .dg .a) startA bytesA ++
    memcopyRanges (.tileDf .b) (if ultra then .drFwd else .df .b) startB bytesB ++
    memcopyRanges (.tileDg .b) (if ultra then .drBkwd else .dg .b) startB bytesB

/-- What `InitProfile` does with a local profile of `length` entries of `profileSize` bytes. The length of
    the `memset` is a product of two `int`s, those of the copies are products of `size_t`s. -/
def ProfileInit.ranges (dst : Side) (profileSize length : ℕ) : ProfileInit → Option (List Access)
  | .zero => do return [⟨.profileTileDev dst, 0, ← toInt (profileSize * length)⟩]
  | .copy source start length =>
      some (memcopyRanges (.profileTileDev dst) (.profile source) (profileSize * start)
        (profileSize * length))
  | .leave => some []

/-- `Tile::InitProfile`. -/
def initProfileRanges (info : OpInfo K) (profileSize : ℕ) (t : TileDims) : Option (List Access) := do
  let width ← toInt (← subsequences t.width info.mpWindow)
  let height ← toInt (← subsequences t.height info.mpWindow)
  return (← (initProfileA info t 0).ranges .a profileSize width) ++
    (← (initProfileB info t).ranges .b profileSize height)

/-- `qt_compute_helper::compute_QT_CPU`, for a helper made for series of `size` samples: the counters `i`
    and `j` of its loops and their sum are `int`s. -/
def computeQTRanges (size windowSize : ℕ) (T Q : Side) : Option (List Access) := do
  let n ← toInt (← subsequences size windowSize)
  let j ← toInt windowSize
  let _ ← toInt (n - 1 + (j - 1))
  return [⟨.tileSeries T, 0, sizeofDouble * (n + (j - 1))⟩, ⟨.tileSeries Q, 0, sizeofDouble * j⟩,
    ⟨.tileQT, 0, sizeofDouble * n⟩]

/-- `Tile::execute`, but for the kernels: a tile is compared in two passes, on the diagonal of a self-join in
    one. -/
def executeRanges (info : OpInfo K) (type : SCAMPTileType) (t : TileDims) : Option (List Access) :=
  if info.mpWindow > t.width ∨ info.mpWindow > t.height then some []
  else if type = .selfJoinUpperTriangular then computeQTRanges info.maxTileTsSize info.mpWindow .a .b
  else do
    return (← computeQTRanges info.maxTileTsSize info.mpWindow .a .b) ++
      (← computeQTRanges info.maxTileTsSize info.mpWindow .b .a)

/-- `Profile::CopyFromDevice`. -/
def copyFromDeviceRanges (side : Side) (profileSize length : ℕ) : List Access :=
  memcopyRanges (.profileTile side) (.profileTileDev side) 0 (length * profileSize)

/-- `Profile::MergeTileToProfile`, of the local profile `source` into the global one `target`. -/
def mergeTileRanges (target source : Side) (profileSize position length : ℕ) : List Access :=
  [⟨.profile target, profileSize * position, profileSize * length⟩,
    ⟨.profileTile source, 0, profileSize * length⟩]

/-- `Tile::MergeProfile`. -/
def mergeProfileRanges (info : OpInfo K) (profileSize : ℕ) (t : TileDims) : Option (List Access) := do
  let width ← toInt (← subsequences t.width info.mpWindow)
  let height ← toInt (← subsequences t.height info.mpWindow)
  return copyFromDeviceRanges .a profileSize width ++
    (if info.computingRows then copyFromDeviceRanges .b profileSize height else []) ++
    mergeTileRanges .a .a profileSize t.col width ++
    match Tile.mergeTargetB info with
    | some side => mergeTileRanges side .b profileSize t.row height
    | none => []

/-- One iteration of `do_work`: the ranges touched for the tile at `t`. -/
def tileRanges (info : OpInfo K) (profileSize : ℕ) (t : TilePos) : Option (List Access) := do
  let _ ← subSize info.fullTsLenA (t.2 * info.maxTileWidth)
  let _ ← subSize info.fullTsLenB (t.1 * info.maxTileHeight)
  let dims := tileDims info t
  let stats ← initStatsRanges info dims
  let init ← initProfileRanges info profileSize dims
  let exec ← executeRanges info (tileType info t) dims
  let merge ← mergeProfileRanges info profileSize dims
  return initTimeseriesRanges dims ++ stats ++ init ++ exec ++ merge

/-- The sizes an operation keeps in `int`s: the smallest tile of `OpInfo`, and the lengths of the vectors
    `df` and `dg`, and of those of the alternative formula. -/
def operationInts (info : OpInfo K) : Option Unit := do
  let _ ← toInt info.mpWindow
  let _ ← toInt (← subsequences info.fullTsLenA info.mpWindow)
  let _ ← toInt (← subsequences info.fullTsLenB info.mpWindow)
  if info.fpType = .ultra then
    let _ ← toInt (← subsequences info.fullTsLenA (info.mpWindow - 1))
    let _ ← toInt (← subsequences info.fullTsLenB (info.mpWindow - 1))

/-! ## The cells of a summary -/

/-- The `int` that holds `x`. -/
def toInt32 (x : ℤ) : Option ℤ := if -2 ^ 31 ≤ x ∧ x < 2 ^ 31 then some x else none

/-- The `int64_t` that holds `x`. -/
def toInt64 (x : ℤ) : Option ℤ := if -2 ^ 63 ≤ x ∧ x < 2 ^ 63 then some x else none

theorem toInt32_eq_some {x y : ℤ} : toInt32 x = some y ↔ (-2 ^ 31 ≤ x ∧ x < 2 ^ 31) ∧ x = y := by
  unfold toInt32
  split_ifs with h
  · rw [Option.some.injEq]
    exact (and_iff_right h).symm
  · exact iff_of_false (by simp) fun h' => h h'.1

theorem toInt64_eq_some {x y : ℤ} : toInt64 x = some y ↔ (-2 ^ 63 ≤ x ∧ x < 2 ^ 63) ∧ x = y := by
  unfold toInt64
  split_ifs with h
  · rw [Option.some.injEq]
    exact (and_iff_right h).symm
  · exact iff_of_false (by simp) fun h' => h h'.1

/-- The number of entries of a summary, `matrix_height * matrix_width`. -/
def OpInfo.summaryEntries (info : OpInfo K) : Option ℤ := toInt64 (info.matrixHeight * info.matrixWidth)

/-- The `max_size` of a vector of `float`s. -/
def maxFloats : ℤ := 2 ^ 61 - 1

/-- `resize` throws `length_error`: a negative length is a `size_t` above `max_size`. -/
def resizeThrows (length : ℤ) : Prop := length < 0 ∨ maxFloats < length

/-- The last value of the `int` that `matrix_merge` counts the entries of a summary with: their number. -/
def OpInfo.matrixMergeCounter (info : OpInfo K) : Option ℤ := do toInt32 (← info.summaryEntries)

/-- `matrix_index` of `update_mp` for the cell `z` of a pass, in the `int`s the source computes it in.
    `matrix_width` is an `int32_t` of the kernel's arguments. -/
def updateMpIndex (a : KernelArgs K) (rowwise : Bool) (z : ℕ × ℕ) : Option ℤ := do
  let matrixWidth ← toInt32 a.matrixWidth
  let col := if rowwise then z.1 else z.2
  let row := if rowwise then z.2 else z.1
  let colIdx ← toInt32 ⌊((col + a.globalStartCol : ℕ) : ℚ) / a.colsPerCell⌋
  let rowIdx ← toInt32 ⌊((row + a.globalStartRow : ℕ) : ℚ) / a.rowsPerCell⌋
  toInt32 ((← toInt32 (rowIdx * matrixWidth)) + colIdx)

end

end Scamp
