import Scamp.Gpu.AutotuneCache

/-!
# `Gpu.Autotune` — choosing launch parameters, and finding them again

`autotune.cpp`: a sweep times every variant of the kernel for every target and stores the winners in the cache
file; a launch looks its configuration up in that file, through a copy that the process keeps of it. What a
function finds around it (the environment variables, the files, the devices, an override) is a `Machine`; what
it may change is returned.

The benchmark is called once for each target and configuration, so a function of these stands for one that
answers differently on every call. Messages on the console, and the scores only they show, are left out.
-/

namespace Scamp

/-- `x < y` of doubles: false when one side is NaN. -/
def Sample.less {K : Type} [LT K] [DecidableLT K] : Sample K → Sample K → Bool
  | .nan, _ | _, .nan | .posInf, _ | _, .negInf => false
  | .negInf, _ | _, .posInf => true
  | .finite x, .finite y => decide (x < y)

end Scamp

namespace Scamp.Autotune

/-! ## Looking a configuration up -/

/-- What the functions of `autotune.cpp` find around them. -/
structure Machine where
  getenv : String → Option String
  disk : Disk
  queryDeviceProps : ℤ → Except String GpuDeviceProps
  cfgOverride : Option KernelConfig

/-- The path of a cache: the given one, or the default. -/
def resolvedPath (getenv : String → Option String) (cachePath : String) : String :=
  if cachePath = "" then AutotuneCache.defaultPath getenv else cachePath

/-- `CacheState`. -/
structure CacheState where
  userCache : Option AutotuneCache
  loadedUserPath : String

/-- The state of a process before its first lookup. -/
def CacheState.initial : CacheState := ⟨none, ""⟩

/-- `GetOrLoadUserCache`. -/
def getOrLoadUserCache (machine : Machine) (cachePath : String) (state : CacheState) :
    CacheState × Except String AutotuneCache :=
  let resolved := resolvedPath machine.getenv cachePath
  -- the pointer and the path are set before the file is read
  let loaded := (AutotuneCache.new resolved).load machine.disk
  let reload : CacheState × Except String AutotuneCache :=
    (⟨some loaded.1, resolved⟩, loaded.2.map fun _ => loaded.1)
  match state.userCache with
  | some cache => if state.loadedUserPath = resolved then (state, .ok cache) else reload
  | none => reload

/-- `LookupKernelConfigForDeviceKey`. -/
def lookupKernelConfigForDeviceKey (deviceKey : List Char) (profileType : SCAMPProfileType)
    (precision : SCAMPPrecisionType) (userCache : Option AutotuneCache) (fallback : KernelConfig) : KernelConfig :=
  match userCache with
  | some cache =>
      match cache.lookup deviceKey profileType precision with
      | some userHit => if isSupportedKernelConfig userHit precision then userHit else fallback
      | none => fallback
  | none => fallback

/-- `kForcedVariant`: the variant that `SCAMP_FORCE_VARIANT` asks for, read once. -/
def kForcedVariant (getenv : String → Option String) : Option ℕ :=
  match getenv "SCAMP_FORCE_VARIANT" with
  | none => none
  | some fv =>
      if fv = "" then none
      else
        match stoi fv.toList with
        | some parsed => if 0 ≤ parsed ∧ parsed < kNumKernelVariants then some parsed.toNat else none
        | none => none

/-- The arguments of a lookup. -/
structure LookupArgs where
  deviceId : ℤ
  profileType : SCAMPProfileType
  precision : SCAMPPrecisionType
  cachePath : String

/-- `GetKernelConfigForDevice`. -/
def getKernelConfigForDevice (machine : Machine) (a : LookupArgs) (state : CacheState) :
    CacheState × KernelConfig :=
  match machine.cfgOverride, kForcedVariant machine.getenv with
  | some cfg, _ => (state, cfg)
  | none, some variant => (state, getKernelConfigForVariant variant a.precision)
  | none, none =>
      let fallback := getDefaultKernelConfig a.profileType a.precision
      match machine.queryDeviceProps a.deviceId with
      | .error _ => (state, fallback)
      | .ok props =>
          match getOrLoadUserCache machine a.cachePath state with
          | (state, .ok user) =>
              (state, lookupKernelConfigForDeviceKey props.cacheKey a.profileType a.precision (some user) fallback)
          -- the exception is caught, the state stays as it was left
          | (state, .error _) => (state, fallback)

/-! ## The sweep -/

/-- `kAutotuneTargets`. -/
def kAutotuneTargets : List (SCAMPProfileType × SCAMPPrecisionType) :=
  [(.oneNNIndex, .double), (.oneNNIndex, .single), (.oneNN, .double), (.oneNN, .single), (.sumThresh, .double),
    (.sumThresh, .single), (.matrixSummary, .double), (.matrixSummary, .single), (.approxAllNeighbors, .double),
    (.approxAllNeighbors, .single)]

/-- `AsciiLower`. -/
def asciiLower (s : Option String) : List Char := (s.getD "").toList.map Char.toLower

/-- `AutotuneTargetEnabled`. -/
def autotuneTargetEnabled (getenv : String → Option String) (precision : SCAMPPrecisionType) : Bool :=
  let filt := asciiLower (getenv "SCAMP_AUTOTUNE_PRECISION_FILTER")
  if filt.isEmpty || filt == "all".toList then true
  else if filt == "single".toList then decide (precision = .single)
  else if filt == "double".toList then decide (precision = .double) || decide (precision = .ultra)
  else true

/-- `AutotuneVariantEnabled`. -/
def autotuneVariantEnabled (getenv : String → Option String) (variantIdx : ℕ) : Bool :=
  let filt := asciiLower (getenv "SCAMP_AUTOTUNE_VARIANT_FILTER")
  if filt.isEmpty || filt == "all".toList then true
  else
    let geom := getKernelVariantGeometry variantIdx
    if filt == "shfl".toList then decide (geom.unrolledRows = 0)
    else if filt == "sliding-window".toList || filt == "smem".toList || filt == "sw".toList then
      decide (geom.unrolledRows ≠ 0)
    else true

/-- `kSweepBlocksizes`. -/
def kSweepBlocksizes : List ℤ := [64, 128, 256, 512]

/-- The trials of a target, in the order of the sweep: the supported block sizes of every enabled variant. -/
def trials (getenv : String → Option String) (precision : SCAMPPrecisionType) : List KernelConfig :=
  ((List.range kNumKernelVariants).filter (autotuneVariantEnabled getenv)).flatMap fun i =>
    (kSweepBlocksizes.map fun bsz => { getKernelConfigForVariant i precision with blocksz := bsz }).filter
      fun cfg => isSupportedKernelConfig cfg precision

/-- What a trial comes to: a time, an exception that the sweep skips, or another one, that leaves it. -/
inductive BenchOutcome (K : Type)
  | seconds (s : Sample K)
  | stdException
  | otherException

/-- `BenchmarkFn`, for one device. -/
abbrev BenchmarkFn (K : Type) := SCAMPProfileType → SCAMPPrecisionType → KernelConfig → BenchOutcome K

variable {K : Type} [LT K] [DecidableLT K]

/-- One trial, by the best time so far and the configuration that took it. -/
def tryTrial (bench : KernelConfig → BenchOutcome K) (best : Sample K × KernelConfig) (cfg : KernelConfig) :
    Option (Sample K × KernelConfig) :=
  match bench cfg with
  | .stdException => some best
  | .otherException => none
  | .seconds seconds => some (if seconds.less best.1 then (seconds, cfg) else best)

/-- The trials of a target, and the configuration that wins. -/
def sweepTarget (getenv : String → Option String) (bench : BenchmarkFn K)
    (t : SCAMPProfileType × SCAMPPrecisionType) : Option (Sample K × KernelConfig) :=
  (trials getenv t.2).foldlM (tryTrial (bench t.1 t.2)) (.posInf, getDefaultKernelConfig t.1 t.2)

/-- One target of the sweep, by the cache and the configuration chosen last. -/
def sweepStep (getenv : String → Option String) (bench : BenchmarkFn K) (deviceKey : List Char)
    (s : AutotuneCache × KernelConfig) (t : SCAMPProfileType × SCAMPPrecisionType) :
    Option (AutotuneCache × KernelConfig) :=
  if !autotuneTargetEnabled getenv t.2 then some s
  else
    match sweepTarget getenv bench t with
    | none => none
    | some best => some (s.1.store deviceKey t.1 t.2 best.2, best.2)

/-- `AutotuneResult`. -/
structure AutotuneResult where
  deviceName : List Char
  cachePath : String
  chosen : KernelConfig
  wroteCache : Bool

/-- What a sweep throws: an exception of the cache, or one of the benchmark. -/
inductive SweepError
  | cache (message : String)
  | bench

/-- `RunAutotuneWithBenchmarkForDeviceKey`: the files and the process's copy of the cache afterwards, and the
    result. The map of the cache is written in the order `iterate` finds in it. -/
def runAutotuneWithBenchmarkForDeviceKey (machine : Machine) (iterate : Entries → List Key) (env : SaveEnv)
    (bench : BenchmarkFn K) (deviceKey : List Char) (cachePath : String) (state : CacheState) :
    Disk × CacheState × Except SweepError AutotuneResult :=
  let resolved := resolvedPath machine.getenv cachePath
  match (AutotuneCache.new resolved).load machine.disk with
  | (_, .error message) => (machine.disk, state, .error (.cache message))
  | (loaded, .ok ()) =>
      match kAutotuneTargets.foldlM (sweepStep machine.getenv bench deviceKey) (loaded, ⟨0, 0, 0, 0, 0, 0⟩) with
      | none => (machine.disk, state, .error .bench)
      | some (diskCache, lastChosen) =>
          match diskCache.save (iterate diskCache.entries) env machine.disk with
          | (disk, .error message) => (disk, state, .error (.cache message))
          -- later lookups of the process read the new file
          | (disk, .ok ()) => (disk, .initial, .ok ⟨deviceKey, resolved, lastChosen, true⟩)

end Scamp.Autotune
