import Scamp.Common.ScampUtils
import Scamp.Gpu.KernelConfig
import Scamp.Lib.Decimal

/-!
# `Gpu.AutotuneCache` — the file of tuned configurations

`autotune_cache.cpp` and the cache key of `device_props.cpp`: the configuration chosen for each device,
profile type and precision, as a map in memory and as a text file of one record a line.

A string is the list of its characters. The map is a function from keys; the order in which it is iterated is
an argument of what iterates it. `Save` is told which calls of the file system fail (`SaveEnv`).
-/

namespace Scamp.Autotune

open Lib

/-! ## Names -/

/-- `ProfileTypeName`. -/
def profileTypeName : SCAMPProfileType → List Char
  | .oneNN => "1NN".toList
  | .oneNNIndex => "1NN_INDEX".toList
  | .sumThresh => "SUM_THRESH".toList
  | .frequencyThresh => "FREQUENCY_THRESH".toList
  | .knn => "KNN".toList
  | .approxAllNeighbors => "APPROX_ALL_NEIGHBORS".toList
  | .matrixSummary => "MATRIX_SUMMARY".toList
  | .oneNNMultidim => "1NN_MULTIDIM".toList
  | .invalid => "INVALID".toList

/-- `PrecisionTypeName`. -/
def precisionTypeName : SCAMPPrecisionType → List Char
  | .single => "SINGLE".toList
  | .mixed => "MIXED".toList
  | .double => "DOUBLE".toList
  | .ultra => "ULTRA".toList
  | .invalid => "INVALID".toList

/-- The profile types, by their numbers. -/
def profileTypes : List SCAMPProfileType :=
  [.invalid, .oneNNIndex, .sumThresh, .frequencyThresh, .knn, .oneNNMultidim, .oneNN, .approxAllNeighbors,
    .matrixSummary]

/-- The precisions, by their numbers. -/
def precisionTypes : List SCAMPPrecisionType := [.invalid, .single, .mixed, .double, .ultra]

/-- `ParseProfileTypeName`. -/
def parseProfileTypeName (s : List Char) : Option SCAMPProfileType :=
  profileTypes.find? fun t => decide (s = profileTypeName t)

/-- `ParsePrecisionTypeName`. -/
def parsePrecisionTypeName (s : List Char) : Option SCAMPPrecisionType :=
  precisionTypes.find? fun t => decide (s = precisionTypeName t)

/-! ## Keys -/

/-- `SanitizeForCacheKey`. -/
def sanitizeForCacheKey (s : List Char) : List Char :=
  s.map fun c =>
    if c = ' ' ∨ c = '/' ∨ c = '|' ∨ c = '\t' ∨ c = '\n' ∨ c = '\r' then '_' else c

/-- The part of a device's properties that identifies its records. -/
structure GpuDeviceProps where
  name : List Char
  computeMajor : ℤ
  computeMinor : ℤ

/-- `GpuDeviceProps::CacheKey`. -/
def GpuDeviceProps.cacheKey (props : GpuDeviceProps) : List Char :=
  sanitizeForCacheKey props.name ++ "__sm_".toList ++ printInt props.computeMajor ++ printInt props.computeMinor

/-- What a configuration is stored under. -/
structure Key where
  deviceKey : List Char
  profileType : SCAMPProfileType
  precision : SCAMPPrecisionType
deriving DecidableEq

/-- The entries of a cache. -/
abbrev Entries := Key → Option KernelConfig

/-- A cache: where its file is, and its entries. -/
structure AutotuneCache where
  path : String
  entries : Entries

namespace AutotuneCache

/-- `AutotuneCache(path)`. -/
def new (path : String) : AutotuneCache := ⟨path, fun _ => none⟩

/-- `AutotuneCache::Lookup`. -/
def lookup (cache : AutotuneCache) (deviceKey : List Char) (profileType : SCAMPProfileType)
    (precision : SCAMPPrecisionType) : Option KernelConfig :=
  cache.entries ⟨deviceKey, profileType, precision⟩

/-- `AutotuneCache::Store`. -/
def store (cache : AutotuneCache) (deviceKey : List Char) (profileType : SCAMPProfileType)
    (precision : SCAMPPrecisionType) (cfg : KernelConfig) : AutotuneCache :=
  { cache with entries := Function.update cache.entries ⟨deviceKey, profileType, precision⟩ (some cfg) }

/-- `AutotuneCache::DefaultPath`, on a POSIX system. -/
def defaultPath (getenv : String → Option String) : String :=
  match getenv "SCAMP_AUTOTUNE_CACHE", getenv "XDG_CACHE_HOME", getenv "HOME" with
  | some override, _, _ => override
  | none, some xdg, _ => xdg ++ "/scamp/autotune.txt"
  | none, none, some home => home ++ "/.cache/scamp/autotune.txt"
  | none, none, none => "./scamp_autotune.txt"

end AutotuneCache

/-! ## Reading -/

def kHeader : List Char := "SCAMP_AUTOTUNE_V1".toList

def kFieldSep : Char := '|'

def kNumRecordFields : ℕ := 9

/-- `SplitN`: the fields of a line, if there are `n`. -/
def splitN (s : List Char) (delim : Char) (n : ℕ) : Option (List (List Char)) :=
  let fields := IStream.lines delim (.ofText s)
  if fields.length = n then some fields else none

/-- The values of an `int`. -/
def IntRange (n : ℤ) : Prop := -2147483648 ≤ n ∧ n ≤ 2147483647

instance (n : ℤ) : Decidable (IntRange n) := inferInstanceAs (Decidable (_ ≤ n ∧ n ≤ _))

/-- `std::stoi`, which throws if there is no integer at the front of its argument, after white space, or if
    it does not fit. What follows the integer is ignored. -/
def stoi (s : List Char) : Option ℤ :=
  match scanInt isSpace s with
  | some (n, _) => if IntRange n then some n else none
  | none => none

/-- `what()` of the exceptions of `std::stoi`. -/
def stoiWhat : String := "stoi"

/-- The six integers of a record. -/
def parseConfig (blocksz blocksPerSm diagsPerThread unrolledRows outerUnrolledRows kernelTileIters : List Char) :
    Option KernelConfig := do
  let blocksz ← stoi blocksz
  let blocksPerSm ← stoi blocksPerSm
  let diagsPerThread ← stoi diagsPerThread
  let unrolledRows ← stoi unrolledRows
  let outerUnrolledRows ← stoi outerUnrolledRows
  let kernelTileIters ← stoi kernelTileIters
  return ⟨blocksz, blocksPerSm, diagsPerThread, unrolledRows, outerUnrolledRows, kernelTileIters⟩

/-- Where an error is. -/
def atLine (sourceLabel : String) (lineno : ℕ) : String := sourceLabel ++ ":" ++ toString lineno

/-- A record line of `ParseStream`: its key and configuration, or the exception it throws. -/
def parseRecord (sourceLabel : String) (lineno : ℕ) (line : List Char) : Except String (Key × KernelConfig) :=
  match splitN line kFieldSep kNumRecordFields with
  | some [f0, f1, f2, f3, f4, f5, f6, f7, f8] =>
      match parseProfileTypeName f1 with
      | none =>
          .error ("Unknown profile type '" ++ String.ofList f1 ++ "' in autotune cache at " ++
            atLine sourceLabel lineno)
      | some profileType =>
          match parsePrecisionTypeName f2 with
          | none =>
              .error ("Unknown precision '" ++ String.ofList f2 ++ "' in autotune cache at " ++
                atLine sourceLabel lineno)
          | some precision =>
              match parseConfig f3 f4 f5 f6 f7 f8 with
              | none =>
                  .error ("Malformed integer in autotune cache at " ++ atLine sourceLabel lineno ++ " -- " ++
                    stoiWhat)
              | some cfg => .ok (⟨f0, profileType, precision⟩, cfg)
  | _ => .error ("Malformed autotune cache at " ++ atLine sourceLabel lineno)

/-- A blank or comment line. -/
def isSkipped (line : List Char) : Bool := line.isEmpty || line.head? == some '#'

/-- The loop of `ParseStream`: the entries so far are kept when a line throws, and dropped when the first line
    is not the header. -/
def parseLines (sourceLabel : String) : List (List Char) → ℕ → Bool → Entries → Entries × Except String Unit
  | [], _, _, entries => (entries, .ok ())
  | line :: rest, lineno, headerSeen, entries =>
      let lineno := lineno + 1
      if isSkipped line then parseLines sourceLabel rest lineno headerSeen entries
      else if !headerSeen then
        -- an unknown format is an empty cache
        if line ≠ kHeader then (fun _ => none, .ok ())
        else parseLines sourceLabel rest lineno true entries
      else
        match parseRecord sourceLabel lineno line with
        | .error message => (entries, .error message)
        | .ok (key, cfg) =>
            parseLines sourceLabel rest lineno headerSeen (Function.update entries key (some cfg))

/-- `AutotuneCache::ParseStream`. -/
def parseStream (sourceLabel : String) (text : List Char) (entries : Entries) : Entries × Except String Unit :=
  parseLines sourceLabel (IStream.lines '\n' (.ofText text)) 0 false entries

/-- The files of the machine, by their paths. -/
abbrev Disk := String → Option (List Char)

namespace AutotuneCache

/-- `AutotuneCache::LoadFromString`. -/
def loadFromString (cache : AutotuneCache) (contents : List Char) : AutotuneCache × Except String Unit :=
  let r := parseStream "<builtin>" contents fun _ => none
  ({ cache with entries := r.1 }, r.2)

/-- `AutotuneCache::Load`. A missing file is an empty cache. -/
def load (cache : AutotuneCache) (disk : Disk) : AutotuneCache × Except String Unit :=
  match disk cache.path with
  | none => ({ cache with entries := fun _ => none }, .ok ())
  | some text =>
      let r := parseStream cache.path text fun _ => none
      ({ cache with entries := r.1 }, r.2)

end AutotuneCache

/-! ## Writing -/

/-- The fields of a record but the last. -/
def recordFields (k : Key) (c : KernelConfig) : List (List Char) :=
  [k.deviceKey, profileTypeName k.profileType, precisionTypeName k.precision, printInt c.blocksz,
    printInt c.blocksPerSm, printInt c.diagsPerThread, printInt c.unrolledRows, printInt c.outerUnrolledRows]

/-- The line of a record. -/
def recordLine (k : Key) (c : KernelConfig) : List Char :=
  (recordFields k c).flatMap (fun field => field ++ [kFieldSep]) ++ printInt c.kernelTileIters

/-- The lines in front of the records. -/
def headerLines : List (List Char) :=
  [kHeader,
   ("# device_key|profile_type|precision|blocksz|blocks_per_sm|" ++
     "diags_per_thread|unrolled_rows|outer_unrolled_rows|" ++ "kernel_tile_iters").toList,
   "# (tile_height = kernel_tile_iters * outer_unrolled_rows)".toList]

/-- The lines of the file of a map that is iterated in the given order. -/
def fileLines (order : List Key) (entries : Entries) : List (List Char) :=
  headerLines ++ order.filterMap fun k => (entries k).map (recordLine k)

/-- The text of the file. -/
def fileText (order : List Key) (entries : Entries) : List Char :=
  (fileLines order entries).flatMap fun line => line ++ ['\n']

/-- What the calls of `Save` meet: the parent directory of the file (empty if there is none), the error of
    `create_directories`, whether the temporary file cannot be opened, what a failed write leaves in it, and
    the error of `rename`. -/
structure SaveEnv where
  parent : String
  createError : Option String
  openFails : Bool
  partialWrite : Option (List Char)
  renameError : Option String

/-- `AutotuneCache::Save`: the files afterwards, and the exception it throws, if any. The file is written
    under another name and renamed, which replaces the old one at once. -/
def AutotuneCache.save (cache : AutotuneCache) (order : List Key) (env : SaveEnv) (disk : Disk) :
    Disk × Except String Unit :=
  let tmp := cache.path ++ ".tmp"
  match (if env.parent = "" then none else env.createError) with
  | some message =>
      (disk, .error ("Cannot create autotune cache directory '" ++ env.parent ++ "': " ++ message))
  | none =>
      if env.openFails then (disk, .error ("Cannot open autotune cache for writing: " ++ tmp))
      else
        match env.partialWrite with
        | some written =>
            (Function.update disk tmp (some written), .error ("Write to autotune cache failed: " ++ tmp))
        | none =>
            let text := fileText order cache.entries
            match env.renameError with
            | some message =>
                (Function.update disk tmp (some text),
                  .error ("Cannot rename " ++ tmp ++ " to " ++ cache.path ++ ": " ++ message))
            | none => (Function.update (Function.update disk tmp none) cache.path (some text), .ok ())

end Scamp.Autotune
