import Scamp.Core.Tile
import Scamp.Gpu.Kernel
import Scamp.Lib.Groups

/-!
# `Gpu.Neighbors` — joins that keep several neighbours

`PROFILE_TYPE_APPROX_ALL_NEIGHBORS`, which only GPU workers compute. A kernel reports, for each of its
block tiles, the best match of each column, when it is above the column's threshold (`write_back` of
`kernels_smem.h`). Its registers start with a correlation of `-2`, which is reported like that of a match when
the threshold is lower. The host sorts the reported matches and merges them into a queue for each column
(`match_merge` of `profile.cpp`). When a tile reports more than there is room for, only the thresholds are
raised (`threshold_merge`), and `do_work` runs the tile again.

Which of too many matches are available is up to the order in which the threads of the kernel got their
turn. So a run of the tile is a step that is handed the available ones.
-/

namespace Scamp

open Lib

/-! ## Matches -/

/-- A match of column `col`. -/
structure SCAMPmatch (K : Type) where
  corr : K
  row : ℕ
  col : ℕ
deriving DecidableEq, Repr

section
variable {K : Type} [LinearOrder K]

/-- `SCAMPmatch::operator<`: by column, and the better ones of a column first. -/
def SCAMPmatch.lt (x y : SCAMPmatch K) : Bool :=
  if x.col = y.col then decide (y.corr < x.corr) else decide (x.col < y.col)

/-- `x` is no better than `y`: the order of a queue (`compareMatch`). -/
def SCAMPmatch.NoBetter (x y : SCAMPmatch K) : Prop := x.corr ≤ y.corr

instance : DecidableRel (SCAMPmatch.NoBetter (K := K)) := fun x y =>
  inferInstanceAs (Decidable (x.corr ≤ y.corr))

instance : Std.Total (SCAMPmatch.NoBetter (K := K)) := ⟨fun x y => le_total x.corr y.corr⟩

instance : IsTrans (SCAMPmatch K) SCAMPmatch.NoBetter := ⟨fun _ _ _ h h' => le_trans h h'⟩

/-- The matches of a column: a `priority_queue` whose top is the worst of them. -/
structure MatchQueue (K : Type) [LinearOrder K] where
  entries : List (SCAMPmatch K)
  sorted : entries.Pairwise SCAMPmatch.NoBetter

namespace MatchQueue

def empty : MatchQueue K := ⟨[], .nil⟩

def size (q : MatchQueue K) : ℕ := q.entries.length

def top (q : MatchQueue K) : Option (SCAMPmatch K) := q.entries.head?

def pop (q : MatchQueue K) : MatchQueue K := ⟨q.entries.tail, q.sorted.tail⟩

/-- `emplace`. The positions are words of 32 bits. -/
def emplace (q : MatchQueue K) (corr : K) (row col : ℕ) : MatchQueue K where
  entries := q.entries.orderedInsert SCAMPmatch.NoBetter ⟨corr, row % 2 ^ 32, col % 2 ^ 32⟩
  sorted := q.sorted.orderedInsert _ _

end MatchQueue

/-! ## Merging matches into a profile -/

/-- A profile of match queues, with the threshold of each column. -/
structure NeighborProfile (K : Type) [LinearOrder K] where
  matchValue : Vec (MatchQueue K)
  thresholds : Vec K

/-- `Profile::Alloc`, for this profile type. -/
def NeighborProfile.alloc (size : ℕ) (defaultThresh : K) : NeighborProfile K where
  matchValue := .replicate size .empty
  thresholds := .replicate size defaultThresh

/-- One column of `threshold_merge`: the matches are those from the first one of the column on. -/
def thresholdMergeColumn (mergeStartCol maxMatches : ℕ) (p : NeighborProfile K) :
    List (SCAMPmatch K) → NeighborProfile K
  | [] => p
  | m :: rest =>
      let count := ((m :: rest).takeWhile fun x => x.col = m.col).length
      match (m :: rest)[maxMatches]? with
      | some x =>
          -- with more than `max_matches` results the threshold can be updated
          if maxMatches < count - 1 ∧ p.thresholds.get (m.col + mergeStartCol) < x.corr then
            { p with thresholds := p.thresholds.set (m.col + mergeStartCol) x.corr }
          else p
      | none => p

/-- `Profile::threshold_merge`. -/
def thresholdMerge (mergeStartCol maxMatches : ℕ) (p : NeighborProfile K) (ms : List (SCAMPmatch K)) :
    NeighborProfile K :=
  foldGroups SCAMPmatch.col (thresholdMergeColumn mergeStartCol maxMatches) p ms

/-- The loop of `match_merge` over the matches that may go into the queue of `currCol`, and the last
    correlation (`old_val`) that had to leave it. -/
def mergeMatches (mergeStartRow mergeStartCol maxMatches currCol : ℕ) :
    List (SCAMPmatch K) → ℕ → MatchQueue K → Option K → MatchQueue K × Option K
  | [], _, pq, oldVal => (pq, oldVal)
  | m :: rest, count, pq, oldVal =>
      if m.col = currCol ∧ count < maxMatches then
        if pq.size = maxMatches then
          match pq.top with
          | some worst =>
              if m.corr ≤ worst.corr then (pq, oldVal)
              else
                mergeMatches mergeStartRow mergeStartCol maxMatches currCol rest (count + 1)
                  (pq.pop.emplace m.corr (m.row + mergeStartRow) (m.col + mergeStartCol)) (some worst.corr)
          -- there is no match in a queue of no matches
          | none => (pq, oldVal)
        else
          mergeMatches mergeStartRow mergeStartCol maxMatches currCol rest (count + 1)
            (pq.emplace m.corr (m.row + mergeStartRow) (m.col + mergeStartCol)) oldVal
      else (pq, oldVal)

/-- One column of `match_merge`. -/
def matchMergeColumn (mergeStartRow mergeStartCol maxMatches : ℕ) (p : NeighborProfile K) :
    List (SCAMPmatch K) → NeighborProfile K
  | [] => p
  | m :: rest =>
      let pos := m.col + mergeStartCol
      let merged := mergeMatches mergeStartRow mergeStartCol maxMatches m.col (m :: rest) 0
        (p.matchValue.get pos) none
      { matchValue := p.matchValue.set pos merged.1
        thresholds :=
          match merged.2 with
          | some oldVal => p.thresholds.set pos oldVal
          | none => p.thresholds }

/-- `Profile::match_merge`. -/
def matchMerge (mergeStartRow mergeStartCol maxMatches : ℕ) (p : NeighborProfile K)
    (ms : List (SCAMPmatch K)) : NeighborProfile K :=
  foldGroups SCAMPmatch.col (matchMergeColumn mergeStartRow mergeStartCol maxMatches) p ms

/-- `Profile::MergeTileToProfile`, for this profile type. -/
def mergeTileMatches (info : OpInfo K) (p : NeighborProfile K) (ms : List (SCAMPmatch K))
    (position indexStart : ℕ) (overflowed : Bool) : NeighborProfile K :=
  if overflowed then thresholdMerge position info.maxMatchesPerColumn.toNat p ms
  else matchMerge indexStart position info.maxMatchesPerColumn.toNat p ms

/-! ## What a kernel reports -/

/-- The cells of tile `k` of a block. -/
def blockTileCells (cfg : KernelConfig) (a : KernelDims) (block k : ℕ) : List (ℕ × ℕ) :=
  ((List.range cfg.blocksz).flatMap fun thread => threadCells cfg a (fun _ => false) block thread).filter
    fun z => z.1 / cfg.tileHeight = k

/-- `MPatomicMax`: the better of the best cell so far and the next one. -/
def mergeBest (corr : ℕ × ℕ → Dbl K) (best : Option (K × ℕ × ℕ)) (z : ℕ × ℕ) : Option (K × ℕ × ℕ) :=
  match corr z, best with
  | .nan, best => best
  | .num x, none => some (x, z)
  | .num x, some b => if b.1 < x then some (x, z) else some b

/-- The indices with which the registers of a kernel start, beside a correlation of `-2`: for each pass over a
    tile, side of its kernel, block, tile of the block and position at which some thread merges a register as it
    has started. The sliding window kernels do not initialise the index, the shuffle kernels start it at `0`. -/
abbrev StartIndices := TilePos → Bool → Side → ℕ → ℕ → ℕ → Option ℕ

/-- The entry of position `i` at the end of a block tile: the best of its cells, or the start of its
    registers. -/
def entryMatch [Field K] (other : ℕ × ℕ → ℕ) (i : ℕ) (best : Option (K × ℕ × ℕ)) : Option ℕ → Option (SCAMPmatch K)
  | none => best.map fun b => ⟨b.1, other b.2, i⟩
  | some index =>
      match best with
      | some b => if -2 < b.1 then some ⟨b.1, other b.2, i⟩ else some ⟨-2, index, i⟩
      | none => some ⟨-2, index, i⟩

/-- What `write_back` of all block tiles may report for one side of a pass: for each position on that side
    its entry at the end of the block tile. `pos` is the position of a cell on that side and `other` the
    one on the other side. -/
def sideMatches [Field K] (cfg : KernelConfig) (a : KernelDims) (corr : ℕ × ℕ → Dbl K)
    (start : ℕ → ℕ → ℕ → Option ℕ) (pos other : ℕ × ℕ → ℕ) (extent : ℕ) : List (SCAMPmatch K) :=
  (List.range (numBlocks cfg a)).flatMap fun block =>
    (List.range (a.nY / cfg.tileHeight + 1)).flatMap fun k =>
      (List.range extent).filterMap fun i =>
        entryMatch other i (((blockTileCells cfg a block k).filter fun z => pos z = i).foldl (mergeBest corr) none)
          (start block k i)

/-- The matches of the columns and of the rows of a tile, in the tile's own positions. -/
structure TileMatches (K : Type) where
  cols : List (SCAMPmatch K)
  rows : List (SCAMPmatch K)

/-- What one pass over a tile may report. The columns of a transposed pass are the rows of the tile. `corr`
    is the correlation of a cell of the distance matrix. -/
def passMatches [Field K] (cfg : KernelConfig) (info : OpInfo K) (corr : ℕ × ℕ → Dbl K) (starts : StartIndices)
    (t : TilePos) (transpose : Bool) : TileMatches K :=
  let a := kernelDims info (tileDims info t) transpose (!info.selfJoin)
  if a.exclusionLower + a.exclusionUpper ≥ a.nX then ⟨[], []⟩
  else
    let cellCorr := fun z => corr (globalCell (tileDims info t) transpose z)
    let kernelCols := sideMatches cfg a cellCorr (starts t transpose .a) Prod.snd Prod.fst a.nX
    let kernelRows := sideMatches cfg a cellCorr (starts t transpose .b) Prod.fst Prod.snd a.nY
    if transpose then ⟨kernelRows, kernelCols⟩ else ⟨kernelCols, kernelRows⟩

/-- What all passes over a tile may report. -/
def tileMatches [Field K] (cfg : KernelConfig) (info : OpInfo K) (corr : ℕ × ℕ → Dbl K) (starts : StartIndices)
    (t : TilePos) : TileMatches K where
  cols := (tilePasses info t).flatMap fun transpose => (passMatches cfg info corr starts t transpose).cols
  rows := (tilePasses info t).flatMap fun transpose => (passMatches cfg info corr starts t transpose).rows

/-- `write_back_value`: what is reported of them, those above the threshold of their position. -/
def writeBack (thresholds : Buffer K) (ms : List (SCAMPmatch K)) : List (SCAMPmatch K) :=
  ms.filter fun m => thresholds m.col < m.corr

/-! ## The retry loop of `do_work` -/

/-- The two global profiles, the thresholds a worker has copied for its tile, the tile it works on, and the
    tiles it has merged. -/
structure NeighborState (K : Type) [LinearOrder K] where
  profileA : NeighborProfile K
  profileB : NeighborProfile K
  thresholdsA : Buffer K
  thresholdsB : Buffer K
  current : Option TilePos
  merged : List TilePos

namespace NeighborState

def profile (s : NeighborState K) : Side → NeighborProfile K
  | .a => s.profileA
  | .b => s.profileB

def setProfile (s : NeighborState K) (side : Side) (p : NeighborProfile K) : NeighborState K :=
  match side with
  | .a => { s with profileA := p }
  | .b => { s with profileB := p }

/-- `Tile::InitProfile`, for this profile type. -/
def initProfile (info : OpInfo K) (t : TileDims) (s : NeighborState K) : NeighborState K :=
  let width := t.width - info.mpWindow + 1
  let height := t.height - info.mpWindow + 1
  { s with
    thresholdsA := memcopy s.thresholdsA s.profileA.thresholds.get t.col width
    thresholdsB :=
      if info.selfJoin then memcopy s.thresholdsB s.profileA.thresholds.get t.row height
      else if info.computingRows && info.keepRowsSeparate then
        memcopy s.thresholdsB s.profileB.thresholds.get t.row height
      else s.thresholdsB }

/-- What the kernels report of a tile. -/
def reported (info : OpInfo K) (s : NeighborState K) (ms : TileMatches K) : TileMatches K where
  cols := writeBack s.thresholdsA ms.cols
  rows := if info.computingRows then writeBack s.thresholdsB ms.rows else []

/-- The merges of `Tile::MergeProfile`. -/
def mergeProfile (info : OpInfo K) (t : TileDims) (overflowed : Bool) (ms : TileMatches K)
    (s : NeighborState K) : NeighborState K :=
  let s := s.setProfile .a (mergeTileMatches info s.profileA ms.cols t.col t.row overflowed)
  match Tile.mergeTargetB info with
  | some side =>
      s.setProfile side (mergeTileMatches info (s.profile side) ms.rows t.row t.col overflowed)
  | none => s

end NeighborState

/-- `get_profile_dims_from_device`: the number of matches of a side, or `-1` when there is no room for
    them. -/
def profileDim (info : OpInfo K) (reported : List (SCAMPmatch K)) : ℤ :=
  if (reported.length : ℤ) > info.maxMatchesPerTile then -1 else reported.length

/-- The conversion of an `int64_t` to an `int`. -/
def narrowInt (x : ℤ) : ℤ := x.bmod (2 ^ 32)

/-- `width` and `height` of `MergeProfile`, which are `int`s. -/
def mergeDim (info : OpInfo K) (reported : List (SCAMPmatch K)) : ℤ := narrowInt (profileDim info reported)

/-- `overflowed` of `MergeProfile`. -/
def overflows (info : OpInfo K) (reported : TileMatches K) : Bool :=
  decide (mergeDim info reported.cols < 0) || decide (mergeDim info reported.rows < 0)

/-- The number of matches of a side that `MergeProfile` sorts and copies from the device. -/
def copyDim (info : OpInfo K) (reported : List (SCAMPmatch K)) : ℤ :=
  if mergeDim info reported < 0 then narrowInt info.maxMatchesPerTile else mergeDim info reported

/-- `ms` is what `MergeProfile` copies from the device: so many of the reported matches, sorted. A negative
    number cannot be copied. -/
def Copied (info : OpInfo K) (reported ms : List (SCAMPmatch K)) : Prop :=
  ms.Pairwise (fun x y => y.lt x = false) ∧ ms.Subperm reported ∧ ms.length = copyDim info reported

instance (info : OpInfo K) (reported ms : List (SCAMPmatch K)) : Decidable (Copied info reported ms) :=
  inferInstanceAs (Decidable (_ ∧ _ ∧ _))

/-- What the worker does next: take a tile, or execute its tile and merge the matches it gets. -/
inductive NeighborAction (K : Type)
  | pop (t : TilePos)
  | attempt (ms : TileMatches K)

/-- The matches that the kernels may report for each tile. They are within the tile. -/
structure Candidates (info : OpInfo K) where
  ofTile : TilePos → TileMatches K
  cols_lt : ∀ t, ∀ m ∈ (ofTile t).cols, m.col < (tileDims info t).width - info.mpWindow + 1
  rows_lt : ∀ t, ∀ m ∈ (ofTile t).rows, m.col < (tileDims info t).height - info.mpWindow + 1

/-- What is reported of a tile by kernels that are started in this state. -/
def NeighborState.reportedOf {info : OpInfo K} (s : NeighborState K) (candidates : Candidates info)
    (t : TilePos) : TileMatches K :=
  (s.initProfile info (tileDims info t)).reported info (candidates.ofTile t)

/-- One step of `do_work`. An attempt that overflows leaves the tile the current one. -/
def neighborStep {info : OpInfo K} (candidates : Candidates info) (act : NeighborAction K)
    (s : NeighborState K) : Option (NeighborState K) :=
  match act, s.current with
  | .pop t, none => some { s with current := some t }
  | .attempt ms, some t =>
      let reported := s.reportedOf candidates t
      if Copied info reported.cols ms.cols ∧ Copied info reported.rows ms.rows then
        let s := (s.initProfile info (tileDims info t)).mergeProfile info (tileDims info t)
          (overflows info reported) ms
        some (if overflows info reported then s else { s with current := none, merged := t :: s.merged })
      else none
  | _, _ => none

/-- The state in which a worker starts: the profiles as `InitProfileMemory` leaves them. -/
def NeighborState.init (args : SCAMPArgs K) (thresholdsA thresholdsB : Buffer K) : NeighborState K where
  profileA := .alloc args.profileASize args.distanceThreshold
  profileB := .alloc (if args.keepRowsSeparate then args.profileBSize else 0) args.distanceThreshold
  thresholdsA := thresholdsA
  thresholdsB := thresholdsB
  current := none
  merged := []

end

end Scamp
