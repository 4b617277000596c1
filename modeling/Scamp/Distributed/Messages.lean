import Scamp.Common.Args

/-!
# `Distributed.Messages` — the messages of the distributed system

The messages of `scamp.proto` and the functions of `distributed/utils.cpp` that work on them: the
conversions from and to the arguments of the library, the allocation of a profile in a message, and the
merge of a tile's profile into the one of the whole job. Protocol buffers store and return the values of
their fields; a repeated field is a list. `none` stands for a failed `ASSERT`, whose exception ends the
call, and for an access outside an array.

`HostArgs` are the arguments of the library with their profiles as the program has them in memory, a
vector of blocks of data; `HostArgs.toArgs` is what the rest of the library sees of them.
-/

namespace Scamp

/-! ## Machine integers -/

/-- The conversion of an integer to `uint64_t`. -/
def uint64 (x : ℤ) : ℕ := (x % 2 ^ 64).toNat

/-- The conversion of an integer to `int64_t`. -/
def int64 (x : ℤ) : ℤ := Int.bmod x (2 ^ 64)

/-- The conversion of an integer to `int`. -/
def int32 (x : ℤ) : ℤ := Int.bmod x (2 ^ 32)

/-! ## Messages -/

namespace SCAMPProto

inductive SCAMPProfileType
  | invalid
  | oneNNIndex
  | sumThresh
  | frequencyThresh
  | knn
  | oneNNMultidim
  | oneNN
deriving DecidableEq, Repr

inductive SCAMPPrecisionType
  | invalid
  | single
  | mixed
  | double
deriving DecidableEq, Repr

inductive JobStatus
  | invalid
  | ready
  | running
  | finished
  | failed
deriving DecidableEq, Repr

/-- The `oneof` of a block of profile data. The words of `uint64_value` are profile entries. -/
inductive ProfileData (K : Type)
  | notSet
  | uint32 (value : List UInt32)
  | uint64 (value : List (MpEntry K))
  | float (value : List (Dbl K))
  | double (value : List (Dbl K))
deriving DecidableEq

namespace ProfileData
variable {K : Type}

/-- `uint64_value().value()`: empty when another member is set. -/
def uint64Value : ProfileData K → List (MpEntry K)
  | uint64 value => value
  | _ => []

def floatValue : ProfileData K → List (Dbl K)
  | float value => value
  | _ => []

def doubleValue : ProfileData K → List (Dbl K)
  | double value => value
  | _ => []

end ProfileData

structure Profile (K : Type) where
  data : List (ProfileData K)
  type : SCAMPProfileType
deriving DecidableEq

structure SCAMPArgs (K : Type) where
  timeseriesA : List (Sample K)
  timeseriesB : List (Sample K)
  profileA : Profile K
  profileB : Profile K
  hasB : Bool
  window : ℕ
  maxTileSize : ℕ
  distributedStartRow : ℤ
  distributedStartCol : ℤ
  distanceThreshold : K
  precisionType : SCAMPPrecisionType
  profileType : SCAMPProfileType
  computingRows : Bool
  computingColumns : Bool
  keepRowsSeparate : Bool
  isAligned : Bool
  timeseriesSizeA : ℤ
  timeseriesSizeB : ℤ
  jobId : ℤ
  tileId : ℤ
  distributedTileSize : ℤ
deriving DecidableEq

/-- A message none of whose fields is set. -/
def SCAMPArgs.unset {K : Type} [Zero K] : SCAMPArgs K where
  timeseriesA := []
  timeseriesB := []
  profileA := ⟨[], .invalid⟩
  profileB := ⟨[], .invalid⟩
  hasB := false
  window := 0
  maxTileSize := 0
  distributedStartRow := 0
  distributedStartCol := 0
  distanceThreshold := 0
  precisionType := .invalid
  profileType := .invalid
  computingRows := false
  computingColumns := false
  keepRowsSeparate := false
  isAligned := false
  timeseriesSizeA := 0
  timeseriesSizeB := 0
  jobId := 0
  tileId := 0
  distributedTileSize := 0

end SCAMPProto

/-! ## Arguments in memory -/

section
variable {K : Type}

/-- A block of profile data. Only one of its vectors should be set at once; those that no distributed
    profile uses are left out. -/
structure ProfileData (K : Type) where
  uint64Value : List (MpEntry K)
  floatValue : List (Dbl K)
  doubleValue : List (Dbl K)
deriving DecidableEq

/-- The block that `emplace_back` appends. -/
def ProfileData.empty : ProfileData K := ⟨[], [], []⟩

/-- A `Profile` with its blocks. -/
structure HostProfile (K : Type) where
  type : SCAMPProfileType
  data : List (ProfileData K)
deriving DecidableEq

/-- A `SCAMPArgs` in memory. -/
structure HostArgs (K : Type) where
  timeseriesA : List (Sample K)
  timeseriesB : List (Sample K)
  profileA : HostProfile K
  profileB : HostProfile K
  hasB : Bool
  window : ℕ
  maxTileSize : ℕ
  distributedStartRow : ℤ
  distributedStartCol : ℤ
  distanceThreshold : K
  precisionType : SCAMPPrecisionType
  profileType : SCAMPProfileType
  computingRows : Bool
  computingColumns : Bool
  keepRowsSeparate : Bool
  isAligned : Bool
  maxMatchesPerColumn : ℤ
  matrixHeight : ℤ
  matrixWidth : ℤ
deriving DecidableEq

/-- A vector with the elements of a list. -/
def Vec.ofList {α : Type} (default : α) (l : List α) : Vec α := ⟨l.length, fun i => l.getD i default⟩

/-- The elements of a vector. -/
def Vec.toList {α : Type} (v : Vec α) : List α := (List.range v.size).map v.get

variable [Field K] [LinearOrder K]

/-- The entries of the first block, of the vector that the type of the profile uses. -/
def HostProfile.entries (p : HostProfile K) : List (MpEntry K) :=
  match p.data with
  | [] => []
  | block :: _ =>
      match p.type with
      | .oneNNIndex => block.uint64Value
      | .oneNN => block.floatValue.map fun v => ⟨v, 0⟩
      | .sumThresh => block.doubleValue.map fun v => ⟨v, 0⟩
      | _ => []

/-- What the library sees of a profile in memory. -/
def HostProfile.toProfile (p : HostProfile K) : Profile K :=
  ⟨p.type, .ofList (.ofValue 0) p.entries⟩

/-- A profile of the library with its block of data. -/
def HostProfile.ofProfile (p : Profile K) : HostProfile K where
  type := p.type
  data :=
    match p.type with
    | .oneNNIndex => [{ ProfileData.empty with uint64Value := p.data.toList }]
    | .oneNN => [{ ProfileData.empty with floatValue := p.data.toList.map (·.value) }]
    | .sumThresh => [{ ProfileData.empty with doubleValue := p.data.toList.map (·.value) }]
    | _ => []

/-- What the library sees of the arguments in memory. -/
def HostArgs.toArgs (args : HostArgs K) : SCAMPArgs K where
  timeseriesA := .ofList .nan args.timeseriesA
  timeseriesB := .ofList .nan args.timeseriesB
  profileA := args.profileA.toProfile
  profileB := args.profileB.toProfile
  hasB := args.hasB
  window := args.window
  maxTileSize := args.maxTileSize
  distributedStartRow := args.distributedStartRow
  distributedStartCol := args.distributedStartCol
  distanceThreshold := args.distanceThreshold
  precisionType := args.precisionType
  profileType := args.profileType
  computingRows := args.computingRows
  computingColumns := args.computingColumns
  keepRowsSeparate := args.keepRowsSeparate
  isAligned := args.isAligned
  maxMatchesPerColumn := args.maxMatchesPerColumn
  matrixHeight := args.matrixHeight
  matrixWidth := args.matrixWidth

end

/-! ## Conversions -/

/-- `ConvertPrecisionType`, from the message. -/
def SCAMPProto.SCAMPPrecisionType.convert : SCAMPProto.SCAMPPrecisionType → Scamp.SCAMPPrecisionType
  | .double => .double
  | .mixed => .mixed
  | .single => .single
  | _ => .invalid

/-- `ConvertProfileType`, from the message. -/
def SCAMPProto.SCAMPProfileType.convert : SCAMPProto.SCAMPProfileType → Scamp.SCAMPProfileType
  | .oneNNIndex => .oneNNIndex
  | .oneNN => .oneNN
  | .sumThresh => .sumThresh
  | _ => .invalid

/-- `ConvertPrecisionType`, to the message. -/
def SCAMPPrecisionType.convert : SCAMPPrecisionType → SCAMPProto.SCAMPPrecisionType
  | .double => .double
  | .mixed => .mixed
  | .single => .single
  | _ => .invalid

/-- `ConvertProfileType`, to the message. -/
def SCAMPProfileType.convert : SCAMPProfileType → SCAMPProto.SCAMPProfileType
  | .oneNNIndex => .oneNNIndex
  | .oneNN => .oneNN
  | .sumThresh => .sumThresh
  | _ => .invalid

section
variable {K : Type}

/-- `ConvertProfile`, to the message. -/
def HostProfile.convert (p : HostProfile K) : Option (SCAMPProto.Profile K) :=
  let out (data : List (SCAMPProto.ProfileData K)) : SCAMPProto.Profile K := ⟨data, p.type.convert⟩
  match p.data with
  | [] => some (out [])
  | front :: _ =>
      match p.type with
      | .oneNNIndex =>
          if front.uint64Value.isEmpty then some (out [.notSet]) else some (out [.uint64 front.uint64Value])
      | .oneNN =>
          if front.floatValue.isEmpty then some (out [.notSet]) else some (out [.float front.floatValue])
      | .sumThresh =>
          if front.doubleValue.isEmpty then some (out [.notSet]) else some (out [.double front.doubleValue])
      | _ => none

/-- `ConvertProfile`, from the message. -/
def SCAMPProto.Profile.convert (profile : SCAMPProto.Profile K) : Option (HostProfile K) :=
  let out (data : List (Scamp.ProfileData K)) : HostProfile K := ⟨profile.type.convert, data⟩
  match profile.data with
  | [] => some (out [])
  | block :: _ =>
      match profile.type with
      | .oneNNIndex => some (out [{ Scamp.ProfileData.empty with uint64Value := block.uint64Value }])
      | .oneNN => some (out [{ Scamp.ProfileData.empty with floatValue := block.floatValue }])
      | .sumThresh => some (out [{ Scamp.ProfileData.empty with doubleValue := block.doubleValue }])
      | _ => none

/-- `ConvertSCAMPArgsToProtoArgs`. -/
def convertSCAMPArgsToProtoArgs [Zero K] (args : HostArgs K) : Option (SCAMPProto.SCAMPArgs K) := do
  let profileA ← args.profileA.convert
  let profileB ← args.profileB.convert
  return { (SCAMPProto.SCAMPArgs.unset : SCAMPProto.SCAMPArgs K) with
    timeseriesA := args.timeseriesA
    timeseriesB := args.timeseriesB
    profileA := profileA
    profileB := profileB
    hasB := args.hasB
    window := args.window
    maxTileSize := args.maxTileSize
    distributedStartRow := args.distributedStartRow
    distributedStartCol := args.distributedStartCol
    timeseriesSizeA := args.timeseriesA.length
    timeseriesSizeB := args.timeseriesB.length
    profileType := args.profileType.convert
    precisionType := args.precisionType.convert
    distanceThreshold := args.distanceThreshold
    computingRows := args.computingRows
    computingColumns := args.computingColumns
    keepRowsSeparate := args.keepRowsSeparate
    isAligned := args.isAligned }

/-- The loop of `push_back` that copies a series out of a message. -/
def copySeries (elems : List (Sample K)) : List (Sample K) :=
  elems.foldl (fun series elem => series ++ [elem]) []

/-- `ConvertProtoArgsToSCAMPArgs`, into `args`. -/
def convertProtoArgsToSCAMPArgs (protoArgs : SCAMPProto.SCAMPArgs K) (args : HostArgs K) :
    Option (HostArgs K) := do
  let profileA ← protoArgs.profileA.convert
  let profileB ← if protoArgs.keepRowsSeparate then protoArgs.profileB.convert else some args.profileB
  return { args with
    maxTileSize := protoArgs.maxTileSize
    distributedStartRow := protoArgs.distributedStartRow
    distributedStartCol := protoArgs.distributedStartCol
    distanceThreshold := protoArgs.distanceThreshold
    computingColumns := protoArgs.computingColumns
    computingRows := protoArgs.computingRows
    profileA := profileA
    profileB := profileB
    profileType := protoArgs.profileType.convert
    precisionType := protoArgs.precisionType.convert
    keepRowsSeparate := protoArgs.keepRowsSeparate
    isAligned := protoArgs.isAligned
    window := protoArgs.window
    hasB := protoArgs.hasB
    timeseriesA := copySeries protoArgs.timeseriesA
    timeseriesB := copySeries protoArgs.timeseriesB }

end

/-! ## Profiles in messages -/

section
variable {K : Type}

/-- `GetProfileSize`. -/
def getProfileSize (p : SCAMPProto.Profile K) : Option ℕ :=
  match p.data with
  | [] => some 0
  | block :: _ =>
      match p.type with
      | .oneNNIndex => some block.uint64Value.length
      | .oneNN => some block.floatValue.length
      | .sumThresh => some block.doubleValue.length
      | _ => none

/-- `ProfileAllocated`. -/
def profileAllocated (p : SCAMPProto.Profile K) : Bool :=
  match p.data with
  | [] => false
  | block :: _ =>
      match p.type with
      | .oneNNIndex => !block.uint64Value.isEmpty
      | .oneNN => !block.floatValue.isEmpty
      | .sumThresh => !block.doubleValue.isEmpty
      | _ => false

variable [Field K] [LinearOrder K]

/-- `InitProfile`: appends a block of initial entries. -/
def initProfile (p : SCAMPProto.Profile K) (type : SCAMPProto.SCAMPProfileType) (size : ℤ) :
    SCAMPProto.Profile K :=
  if size ≤ 0 then p
  else
    match type with
    | .oneNNIndex => ⟨p.data ++ [.uint64 (.replicate size.toNat (allocEntry .oneNNIndex))], type⟩
    | .oneNN => ⟨p.data ++ [.float (.replicate size.toNat (.num (-2)))], type⟩
    | .sumThresh => ⟨p.data ++ [.double (.replicate size.toNat (.num 0))], type⟩
    | _ => ⟨p.data, type⟩

/-! ## Merging -/

/-- The loop of an elementwise merge: combines `tileSz` elements of `toMerge` with those of `mpFull` from
    `mergeStart` on. -/
def mergeInto {α : Type} (op : α → α → α) (mpFull : List α) (mergeStart tileSz : ℕ) (toMerge : List α) :
    Option (List α) :=
  if mergeStart + tileSz ≤ mpFull.length ∧ tileSz ≤ toMerge.length then
    some (mpFull.mapIdx fun k e =>
      if mergeStart ≤ k ∧ k < mergeStart + tileSz then (toMerge[k - mergeStart]?).elim e (op e) else e)
  else none

/-- `MergeTileIntoFullProfile`, with `elementwise_sum` and the two forms of `elementwise_max`. -/
def mergeTileIntoFullProfile (tileProfile : SCAMPProto.Profile K) (position length : ℕ)
    (fullProfile : SCAMPProto.Profile K) (indexStart : ℕ) : Option (SCAMPProto.Profile K) :=
  match fullProfile.data, tileProfile.data with
  | full :: rest, tile :: _ =>
      let out (block : SCAMPProto.ProfileData K) : SCAMPProto.Profile K := ⟨block :: rest, fullProfile.type⟩
      match fullProfile.type with
      | .sumThresh =>
          (mergeInto Dbl.add full.doubleValue position length tile.doubleValue).map fun v => out (.double v)
      | .oneNNIndex =>
          (mergeInto (maxEntry indexStart) full.uint64Value position length tile.uint64Value).map fun v =>
            out (.uint64 v)
      | .oneNN =>
          (mergeInto (fun e x => if x.gt e then x else e) full.floatValue position length
            tile.floatValue).map fun v => out (.float v)
      | _ => none
  | _, _ => none

/-- `MergeProfile`: the profiles of a tile go into those of the job. -/
def mergeProfile (tileArgs jobArgs : SCAMPProto.SCAMPArgs K) (aTile : SCAMPProto.Profile K)
    (colPos width : ℕ) (bTile : SCAMPProto.Profile K) (rowPos height : ℕ) :
    Option (SCAMPProto.SCAMPArgs K) := do
  let profileA ← mergeTileIntoFullProfile aTile colPos width jobArgs.profileA rowPos
  let jobArgs := { jobArgs with profileA := profileA }
  if tileArgs.keepRowsSeparate then
    if jobArgs.computingRows && jobArgs.keepRowsSeparate then
      let profileB ← mergeTileIntoFullProfile bTile rowPos height jobArgs.profileB colPos
      return { jobArgs with profileB := profileB }
    else if !jobArgs.hasB then
      let profileA ← mergeTileIntoFullProfile bTile rowPos height jobArgs.profileA colPos
      return { jobArgs with profileA := profileA }
    else return jobArgs
  else return jobArgs

end

end Scamp
