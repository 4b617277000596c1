import Scamp.Common.Args

/-!
# `Core.Exclusion` — a tile's place in the distance matrix, its exclusion zones and its kernel passes

The part of `tile.cpp` and `kernel_common.cpp` that decides which cells of a tile a kernel pass compares.
A tile is compared in two passes: the upper triangle as it stands and the lower triangle *transposed as an
upper one*, so that the kernel only ever walks the diagonals `c - r ≥ 0` of the matrix it is handed.
-/

namespace Scamp

/-- `current_tile_width_`, `current_tile_height_`, `current_tile_col_` and `current_tile_row_`: the lengths
    of the two pieces of series under the tile, and the tile's first column and row. -/
structure TileDims where
  width : ℕ
  height : ℕ
  col : ℕ
  row : ℕ
deriving DecidableEq, Repr

/-- The size of a kernel pass: the columns and rows of the matrix it walks (already transposed for a lower
    pass), the number of diagonals it leaves out next to the main one, and at the far end. -/
structure KernelDims where
  nX : ℕ
  nY : ℕ
  exclusionLower : ℕ
  exclusionUpper : ℕ
deriving DecidableEq, Repr

/-- Gets the exclusion zone for a particular tile. The division rounds up so that a window of `3` excludes
    the main diagonal. -/
def getExclusion (windowSize : ℕ) (startRow startColumn : ℤ) : ℕ :=
  let exclusion := (windowSize + 3) / 4
  if startColumn ≥ startRow ∧ startColumn < startRow + exclusion then exclusion else 0

/-- The profile types that add up what they compare. -/
def addsUp (type : SCAMPProfileType) : Bool := type == .sumThresh || type == .frequencyThresh

section
variable {K : Type}

/-- `Tile::get_exclusion_for_self_join`. -/
def getExclusionForSelfJoin (info : OpInfo K) (t : TileDims) (upperTile : Bool) : ℕ × ℕ :=
  -- the main diagonal is omitted from one tile so that it is not counted twice
  let extraExclusion := if addsUp info.profileType then 1 else 0
  if upperTile then (getExclusion info.mpWindow t.row t.col, 0)
  else
    let height := t.height - info.mpWindow + 1
    (extraExclusion, getExclusion info.mpWindow t.col (t.row + height))

/-- `Tile::get_exclusion_for_ab_join`: an AB-join only needs exclusion zones when its inputs are aligned or
    it is part of a larger self-join. -/
def getExclusionForABJoin (info : OpInfo K) (t : TileDims) (upperTile : Bool) : ℕ × ℕ :=
  let alternativeExclusionLower := if upperTile && addsUp info.profileType then 1 else 0
  if !info.isAligned then (max 0 alternativeExclusionLower, 0)
  else
    let height := t.height - info.mpWindow + 1
    let width := t.width - info.mpWindow + 1
    let distributed := 0 ≤ info.globalStartColPosition ∧ 0 ≤ info.globalStartRowPosition
    let startCol : ℤ := if distributed then t.col + info.globalStartColPosition else t.col
    let startRow : ℤ := if distributed then t.row + info.globalStartRowPosition else t.row
    if upperTile then
      let exclusionLower := getExclusion info.mpWindow startRow startCol
      let exclusionUpper :=
        if startRow > startCol then getExclusion info.mpWindow startRow (startCol + width) else 0
      (max exclusionLower alternativeExclusionLower, exclusionUpper)
    else
      let exclusionLower := getExclusion info.mpWindow startCol startRow
      let exclusionUpper :=
        if startRow ≤ startCol then getExclusion info.mpWindow startCol (startRow + height) else 0
      (max exclusionLower alternativeExclusionLower, exclusionUpper)

/-- The sizes that `SCAMPKernelInputArgs` computes for a pass over the tile. -/
def kernelDims (info : OpInfo K) (t : TileDims) (transpose abJoin : Bool) : KernelDims :=
  let exclusion :=
    if abJoin then getExclusionForABJoin info t (!transpose)
    else getExclusionForSelfJoin info t (!transpose)
  { nX := (if transpose then t.height else t.width) - info.mpWindow + 1
    nY := (if transpose then t.width else t.height) - info.mpWindow + 1
    exclusionLower := exclusion.1
    exclusionUpper := exclusion.2 }

end

/-! ## Tiles -/

/-- The row and column of a tile in the grid of tiles. -/
abbrev TilePos := ℕ × ℕ

section
variable {K : Type}

/-- The number of subsequences of the first series: the columns of the distance matrix. -/
def OpInfo.numCols (info : OpInfo K) : ℕ := info.fullTsLenA - info.mpWindow + 1

/-- The number of subsequences of the second series: the rows of the distance matrix. -/
def OpInfo.numRows (info : OpInfo K) : ℕ := info.fullTsLenB - info.mpWindow + 1

/-- The position and the size `do_work` gives the tile it popped from the queue. -/
def tileDims (info : OpInfo K) (t : TilePos) : TileDims :=
  let row := t.1 * info.maxTileHeight
  let col := t.2 * info.maxTileWidth
  { width := min info.maxTileTsSize (info.fullTsLenA - col)
    height := min info.maxTileTsSize (info.fullTsLenB - row)
    col := col
    row := row }

/-- `num_tile_rows` of `get_tiles`, a division rounded up. -/
def OpInfo.numTileRows (info : OpInfo K) : ℕ :=
  (info.numRows + info.maxTileHeight - 1) / info.maxTileHeight

/-- `num_tile_cols` of `get_tiles`. -/
def OpInfo.numTileCols (info : OpInfo K) : ℕ :=
  (info.numCols + info.maxTileWidth - 1) / info.maxTileWidth

/-- The work list of a self-join: the diagonals of the upper triangle but for the last column, then the
    last column. -/
def selfJoinTiles (numTileRows numTileCols : ℕ) : List TilePos :=
  (List.range (numTileRows - 1)).flatMap (fun offset =>
    (List.range (numTileCols - 1 - offset)).map fun diag => (diag, diag + offset)) ++
  (List.range numTileRows).map fun i => (i, numTileCols - 1)

/-- The work list of an AB-join: upper and lower diagonals without the edge tiles, the corner, and the
    tiles of the last row and the last column, in turn as long as there are both. -/
def abJoinTiles (numTileRows numTileCols : ℕ) : List TilePos :=
  (List.range (numTileCols - 1)).flatMap (fun diag =>
    (List.range (min (numTileCols - 1 - diag) (numTileRows - 1))).map fun offset =>
      (offset, diag + offset)) ++
  (List.range' 1 (numTileRows - 1 - 1)).flatMap (fun diag =>
    (List.range (min (numTileRows - 1 - diag) (numTileCols - 1))).map fun offset =>
      (offset + diag, offset)) ++
  [(numTileRows - 1, numTileCols - 1)] ++
  (List.range (min (numTileCols - 1) (numTileRows - 1))).flatMap (fun x =>
    [(x, numTileCols - 1), (numTileRows - 1, x)]) ++
  (List.range' (numTileRows - 1) (numTileCols - 1 - (numTileRows - 1))).map (fun x =>
    (numTileRows - 1, x)) ++
  (List.range' (numTileCols - 1) (numTileRows - 1 - (numTileCols - 1))).map (fun y =>
    (y, numTileCols - 1))

/-- `SCAMP_Operation::get_tiles`: the tiles to execute, in the order they are pushed on the work queue. -/
def getTiles (info : OpInfo K) : List TilePos :=
  if info.selfJoin then selfJoinTiles info.numTileRows info.numTileCols
  else abJoinTiles info.numTileRows info.numTileCols

/-- The passes of a tile, by whether they are transposed: the tiles on the diagonal of a self-join only
    have the upper one. -/
def tilePasses (info : OpInfo K) (t : TilePos) : List Bool :=
  if info.selfJoin && t.1 == t.2 then [false] else [false, true]

end

end Scamp
