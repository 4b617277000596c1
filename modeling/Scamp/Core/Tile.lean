import Scamp.Core.Kernel
import Scamp.Core.CpuStats

/-!
# `Core.Tile` — a tile and what a CPU worker does with it

`tile.cpp` for CPU workers, with the constructor of `SCAMPKernelInputArgs` and the four launchers of
`kernel_dispatcher.cpp`. A worker allocates one `Tile` and uses it for every tile position it pops, so that
each buffer starts out with whatever it held before.

`InitProfile` reads the global profiles without their lock. It is given here by what it copies
(`initProfileA`, `initProfileB`); `Core.Operation` copies entry by entry.
-/

namespace Scamp

section
variable {K : Type} [Field K] [LinearOrder K]

/-- A worker's tile: the position it works on, the pieces of series and statistics under it, and its two
    local profiles. -/
structure Tile (K : Type) where
  dims : TileDims
  tA : Buffer K
  tB : Buffer K
  qt : Buffer K
  meansA : Buffer K
  meansB : Buffer K
  normsA : Buffer (Dbl K)
  normsB : Buffer (Dbl K)
  dfA : Buffer K
  dfB : Buffer K
  dgA : Buffer K
  dgB : Buffer K
  hasNanInput : Bool
  profileATileDev : Buffer (MpEntry K)
  profileBTileDev : Buffer (MpEntry K)

namespace Tile

/-! ## Preparing a tile -/

/-- `Tile::InitTimeseries`. -/
def initTimeseries (t : Tile K) (Ta Tb : Vec K) : Tile K :=
  { t with
    tA := memcopy t.tA Ta.get t.dims.col t.dims.width
    tB := memcopy t.tB Tb.get t.dims.row t.dims.height }

/-- `Tile::InitStats`. -/
def initStats (info : OpInfo K) (t : Tile K) (a b : PrecomputedInfo K) (ab : CombinedStats K) : Tile K :=
  let lenA := t.dims.width - info.mpWindow + 1
  let lenB := t.dims.height - info.mpWindow + 1
  let ultra := info.fpType = .ultra
  { t with
    hasNanInput :=
      a.nanIdxs.any (fun idx => decide (t.dims.col ≤ idx ∧ idx < t.dims.col + t.dims.width)) ||
      b.nanIdxs.any fun idx => decide (t.dims.row ≤ idx ∧ idx < t.dims.row + t.dims.height)
    normsA := memcopy t.normsA a.norms.get t.dims.col lenA
    normsB := memcopy t.normsB b.norms.get t.dims.row lenB
    meansA := memcopy t.meansA a.means.get t.dims.col lenA
    meansB := memcopy t.meansB b.means.get t.dims.row lenB
    dfA := memcopy t.dfA (if ultra then ab.dcBkwd.get else a.df.get) t.dims.col lenA
    dgA := memcopy t.dgA (if ultra then ab.dcFwd.get else a.dg.get) t.dims.col lenA
    dfB := memcopy t.dfB (if ultra then ab.drFwd.get else b.df.get) t.dims.row lenB
    dgB := memcopy t.dgB (if ultra then ab.drBkwd.get else b.dg.get) t.dims.row lenB }

end Tile

/-- One of the two global profiles. -/
inductive Side
  | a
  | b
deriving DecidableEq, Repr

/-- What `InitProfile` does with one of the tile's profiles: fills it with zeros, copies a range of a global
    profile, or leaves it alone. -/
inductive ProfileInit
  | zero
  | copy (source : Side) (start length : ℕ)
  | leave
deriving DecidableEq, Repr

/-- `Tile::InitProfile`, what becomes of `profile_a_tile_dev_`. `summarySize` is the size of the global
    summary matrix. The number of bytes that are cleared is an `int`: `Core.TileMemory` says when it holds
    them. -/
def initProfileA (info : OpInfo K) (t : TileDims) (summarySize : ℕ) : ProfileInit :=
  let width := t.width - info.mpWindow + 1
  match info.profileType with
  | .sumThresh => .zero
  | .oneNNIndex => .copy .a t.col width
  | .oneNN => .copy .a t.col width
  | .matrixSummary => .copy .a 0 summarySize
  | _ => .leave

/-- `Tile::InitProfile`, what becomes of `profile_b_tile_dev_`. The two nearest neighbour types ask the
    same two questions in opposite orders. -/
def initProfileB (info : OpInfo K) (t : TileDims) : ProfileInit :=
  let height := t.height - info.mpWindow + 1
  match info.profileType with
  | .sumThresh => .zero
  | .oneNNIndex =>
      if info.computingRows && info.keepRowsSeparate then .copy .b t.row height
      else if info.selfJoin then .copy .a t.row height
      else .leave
  | .oneNN =>
      if info.selfJoin then .copy .a t.row height
      else if info.computingRows && info.keepRowsSeparate then .copy .b t.row height
      else .leave
  | _ => .leave

namespace Tile

/-! ## Executing a tile -/

/-- `SCAMPKernelInputArgs`: the inputs of a pass over the tile, with the roles of the two series exchanged
    when it is transposed. -/
def kernelArgs (info : OpInfo K) (t : Tile K) (transpose abJoin : Bool) : KernelArgs K :=
  { kernelDims info t.dims transpose abJoin with
    dfa := if transpose then t.dfB else t.dfA
    dfb := if transpose then t.dfA else t.dfB
    dga := if transpose then t.dgB else t.dgA
    dgb := if transpose then t.dgA else t.dgB
    normsa := if transpose then t.normsB else t.normsA
    normsb := if transpose then t.normsA else t.normsB
    matrixWidth := info.matrixWidth
    rowsPerCell := info.rowsPerCell
    colsPerCell := info.colsPerCell
    globalStartCol := t.dims.col
    globalStartRow := t.dims.row
    hasNanInput := t.hasNanInput
    threshold := info.threshold }

/-- `compute_QT_CPU` followed by one of `cpu_kernel_self_join_upper`, `cpu_kernel_self_join_lower`,
    `cpu_kernel_ab_join_upper` and `cpu_kernel_ab_join_lower`. A lower pass is launched with the two
    profiles, and the flags that say which of them to compute, exchanged. -/
def runPass (bld : Build K) (info : OpInfo K) (t : Tile K) (transpose abJoin : Bool) :
    Except SCAMPError (Tile K) :=
  let qt :=
    if transpose then computeQTCPU info.maxTileTsSize info.mpWindow t.qt t.tB t.tA
    else computeQTCPU info.maxTileTsSize info.mpWindow t.qt t.tA t.tB
  let args := t.kernelArgs info transpose abJoin
  let launch := computeCpuResourcesAndLaunch bld info.profileType info.fpType
  if transpose then
    match launch info.computingCols info.computingRows args
        ⟨qt, t.profileBTileDev, t.profileATileDev⟩ with
    | .ok s => .ok { t with qt := s.cov, profileBTileDev := s.profileA, profileATileDev := s.profileB }
    | .error e => .error e
  else
    match launch info.computingRows info.computingCols args
        ⟨qt, t.profileATileDev, t.profileBTileDev⟩ with
    | .ok s => .ok { t with qt := s.cov, profileATileDev := s.profileA, profileBTileDev := s.profileB }
    | .error e => .error e

/-- `Tile::do_self_join_half`: the upper triangle of the tile. -/
def doSelfJoinHalf (bld : Build K) (info : OpInfo K) (t : Tile K) : Except SCAMPError (Tile K) :=
  if info.mpWindow > t.dims.width then .error .dimIncompatible
  else if info.mpWindow > t.dims.height then .error .dimIncompatible
  else t.runPass bld info false false

/-- `Tile::do_self_join_full`: the upper, then the lower triangle. -/
def doSelfJoinFull (bld : Build K) (info : OpInfo K) (t : Tile K) : Except SCAMPError (Tile K) :=
  match t.doSelfJoinHalf bld info with
  | .ok t => t.runPass bld info true false
  | .error e => .error e

/-- `Tile::do_ab_join_full`. -/
def doABJoinFull (bld : Build K) (info : OpInfo K) (t : Tile K) : Except SCAMPError (Tile K) :=
  if info.mpWindow > t.dims.width then .error .dimIncompatible
  else if info.mpWindow > t.dims.height then .error .dimIncompatible
  else
    match t.runPass bld info false true with
    | .ok t => t.runPass bld info true true
    | .error e => .error e

/-- `Tile::execute`. -/
def execute (bld : Build K) (info : OpInfo K) (type : SCAMPTileType) (t : Tile K) :
    Except SCAMPError (Tile K) :=
  match type with
  | .selfJoinFullTile => t.doSelfJoinFull bld info
  | .selfJoinUpperTriangular => t.doSelfJoinHalf bld info
  | .abJoinFullTile => t.doABJoinFull bld info
  | .abFullJoinFullTile => t.doABJoinFull bld info

/-! ## Merging a tile -/

/-- The number of entries `Tile::MergeProfile` copies back from the column profile; the row profile of a
    summary has none. -/
def mergeWidth (info : OpInfo K) (t : Tile K) : Option ℕ :=
  match info.profileType with
  | .oneNN | .oneNNIndex | .sumThresh => some (t.dims.width - info.mpWindow + 1)
  | .matrixSummary => some (info.matrixWidth * info.matrixHeight).toNat
  | _ => none

/-- The number of entries `Tile::MergeProfile` copies back from the row profile. -/
def mergeHeight (info : OpInfo K) (t : Tile K) : ℕ :=
  match info.profileType with
  | .matrixSummary => 0
  | _ => t.dims.height - info.mpWindow + 1

/-- The first half of `Tile::MergeProfile`: the column profile goes into `profile_a`. -/
def mergeProfileA (info : OpInfo K) (t : Tile K) (profileA : Profile K) : Except String (Profile K) :=
  match t.mergeWidth info with
  | some width =>
      mergeTileToProfile profileA ⟨info.profileType, copyFromDevice t.profileATileDev width⟩
        t.dims.col width t.dims.row
  | none => .error "Functionality Unimplemented."

/-- Where the second half of `Tile::MergeProfile` puts the row profile. -/
def mergeTargetB (info : OpInfo K) : Option Side :=
  if info.computingRows && info.keepRowsSeparate then some .b
  else if info.selfJoin && info.computingRows then some .a
  else none

/-- The second half of `Tile::MergeProfile`: the row profile goes into the given global profile. -/
def mergeProfileB (info : OpInfo K) (t : Tile K) (target : Profile K) : Except String (Profile K) :=
  mergeTileToProfile target
    ⟨info.profileType, copyFromDevice t.profileBTileDev (t.mergeHeight info)⟩
    t.dims.row (t.mergeHeight info) t.dims.col

end Tile

end

end Scamp
