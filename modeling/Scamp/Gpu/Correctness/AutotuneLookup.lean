import Scamp.Gpu.Autotune
import Scamp.Gpu.Correctness.AutotuneFormat

/-!
# `Gpu.Correctness.AutotuneLookup` — what lookups find in a file that cannot be loaded

`GetOrLoadUserCache` sets the process's copy of the cache before it reads the file, so a file that throws half
way leaves a copy with the records in front of the bad line. The lookup that meets the exception falls back, and
every later one takes the copy for loaded (`answer_again`). That shows exactly when the copy has a usable record
for the lookup (`lookups_consistent_iff`).
-/

namespace Scamp.Autotune

open Lib

/-! ## Histories of lookups -/

/-- The state of a process after some lookups. -/
def afterLookups (machine : Machine) (history : List LookupArgs) : CacheState :=
  history.foldl (fun state a => (getKernelConfigForDevice machine a state).1) .initial

/-- The answer to a lookup after others. -/
def answer (machine : Machine) (history : List LookupArgs) (a : LookupArgs) : KernelConfig :=
  (getKernelConfigForDevice machine a (afterLookups machine history)).2

/-- What `Load` reads for a lookup. -/
def loadFor (machine : Machine) (a : LookupArgs) : AutotuneCache × Except String Unit :=
  (AutotuneCache.new (resolvedPath machine.getenv a.cachePath)).load machine.disk

/-- The compile-time configuration of a lookup. -/
def fallbackFor (a : LookupArgs) : KernelConfig := getDefaultKernelConfig a.profileType a.precision

/-- Lookups with the same arguments are answered alike, however many there have been and whatever else was
    looked up before, and other than by the fallback only when the whole file can be loaded. -/
def LookupsConsistent (machine : Machine) (a : LookupArgs) : Prop :=
  (∀ history i j, answer machine (history ++ List.replicate i a) a =
      answer machine (history ++ List.replicate j a) a) ∧
    ∀ history, answer machine history a ≠ fallbackFor a → (loadFor machine a).2 = .ok ()

/-! ## The process's copy -/

/-- The process's copy of the cache is what `Load` leaves of the file of its path. -/
def CopyOfFile (machine : Machine) (state : CacheState) : Prop :=
  ∀ cache, state.userCache = some cache →
    cache = ((AutotuneCache.new state.loadedUserPath).load machine.disk).1

variable {machine : Machine} {a : LookupArgs} {state : CacheState}

/-- **One lookup of the copy**: it is taken as it is, or installed and its exception thrown. -/
theorem getOrLoad_cases (hcopy : CopyOfFile machine state) :
    getOrLoadUserCache machine a.cachePath state = (state, .ok (loadFor machine a).1) ∨
      getOrLoadUserCache machine a.cachePath state =
        (⟨some (loadFor machine a).1, resolvedPath machine.getenv a.cachePath⟩,
          (loadFor machine a).2.map fun _ => (loadFor machine a).1) := by
  unfold getOrLoadUserCache
  dsimp only
  cases hcache : state.userCache with
  | none => exact Or.inr rfl
  | some cache =>
      dsimp only
      split_ifs with hpath
      · refine Or.inl ?_
        rw [hcopy cache hcache, hpath]
        rfl
      · exact Or.inr rfl

/-- The next lookup takes the copy as it is. -/
theorem getOrLoad_again (hcopy : CopyOfFile machine state) :
    (getOrLoadUserCache machine a.cachePath (getOrLoadUserCache machine a.cachePath state).1).2 =
      .ok (loadFor machine a).1 := by
  rcases getOrLoad_cases (a := a) hcopy with hkept | hloaded
  · rw [hkept]
    exact congrArg Prod.snd hkept
  · rw [hloaded]
    unfold getOrLoadUserCache
    dsimp only
    rw [if_pos rfl]

theorem copyOfFile_getOrLoad (hcopy : CopyOfFile machine state) :
    CopyOfFile machine (getOrLoadUserCache machine a.cachePath state).1 := by
  rcases getOrLoad_cases (a := a) hcopy with hkept | hloaded
  · rwa [hkept]
  · rw [hloaded]
    intro cache hcache
    exact (Option.some.inj hcache).symm

/-! ## One lookup -/

/-- What a lookup finds in the copy, even if the file could not be loaded. -/
def found (machine : Machine) (props : GpuDeviceProps) (a : LookupArgs) : KernelConfig :=
  lookupKernelConfigForDeviceKey props.cacheKey a.profileType a.precision (some (loadFor machine a).1)
    (fallbackFor a)

section
variable (hoverride : machine.cfgOverride = none) (hforced : kForcedVariant machine.getenv = none)
include hoverride hforced

/-- A lookup without an override: the state that reading the cache leaves, and its answer. -/
theorem getKernelConfig_eq {props : GpuDeviceProps} (hprops : machine.queryDeviceProps a.deviceId = .ok props) :
    getKernelConfigForDevice machine a state =
      ((getOrLoadUserCache machine a.cachePath state).1,
        match (getOrLoadUserCache machine a.cachePath state).2 with
        | .ok user =>
            lookupKernelConfigForDeviceKey props.cacheKey a.profileType a.precision (some user) (fallbackFor a)
        | .error _ => fallbackFor a) := by
  unfold getKernelConfigForDevice
  rw [hoverride, hforced]
  dsimp only
  rw [hprops]
  dsimp only
  split
  · next heq => rw [heq]; rfl
  · next heq => rw [heq]; rfl

theorem getKernelConfig_error {message : String} (hprops : machine.queryDeviceProps a.deviceId = .error message) :
    getKernelConfigForDevice machine a state = (state, fallbackFor a) := by
  unfold getKernelConfigForDevice
  rw [hoverride, hforced]
  dsimp only
  rw [hprops]
  rfl

/-- **Every process** has a copy of a file, or none. -/
theorem copyOfFile_afterLookups (history : List LookupArgs) : CopyOfFile machine (afterLookups machine history) := by
  induction history using List.reverseRecOn with
  | nil => exact fun _ h => by cases h
  | append_singleton history a ih =>
      unfold afterLookups
      rw [List.foldl_append]
      show CopyOfFile machine (getKernelConfigForDevice machine a (afterLookups machine history)).1
      cases hprops : machine.queryDeviceProps a.deviceId with
      | error message =>
          rw [getKernelConfig_error hoverride hforced hprops]
          exact ih
      | ok props =>
          rw [getKernelConfig_eq hoverride hforced hprops]
          exact copyOfFile_getOrLoad ih

/-- A lookup is answered from the copy, or falls back because the file cannot be loaded. -/
theorem answer_cases {props : GpuDeviceProps} (hprops : machine.queryDeviceProps a.deviceId = .ok props)
    (history : List LookupArgs) :
    answer machine history a = found machine props a ∨
      (answer machine history a = fallbackFor a ∧ (loadFor machine a).2 ≠ .ok ()) := by
  unfold answer
  rw [getKernelConfig_eq hoverride hforced hprops]
  rcases getOrLoad_cases (a := a) (copyOfFile_afterLookups hoverride hforced history) with hkept | hloaded
  · rw [hkept]
    exact Or.inl rfl
  · rw [hloaded]
    dsimp only
    cases hresult : (loadFor machine a).2 with
    | ok u => exact Or.inl rfl
    | error message => exact Or.inr ⟨rfl, fun h => by cases h⟩

/-- **The second lookup** is answered from the copy, whatever the first one met. -/
theorem answer_again {props : GpuDeviceProps} (hprops : machine.queryDeviceProps a.deviceId = .ok props)
    (history : List LookupArgs) : answer machine (history ++ [a]) a = found machine props a := by
  have hcopy := copyOfFile_afterLookups hoverride hforced history
  have hstate : afterLookups machine (history ++ [a]) =
      (getOrLoadUserCache machine a.cachePath (afterLookups machine history)).1 := by
    unfold afterLookups
    rw [List.foldl_append]
    show (getKernelConfigForDevice machine a _).1 = _
    rw [getKernelConfig_eq hoverride hforced hprops]
  unfold answer
  rw [getKernelConfig_eq hoverride hforced hprops, hstate, getOrLoad_again hcopy]
  rfl

/-- Lookups are consistent when the file loads, or its remains answer like the fallback. -/
theorem consistent_iff_found {props : GpuDeviceProps} (hprops : machine.queryDeviceProps a.deviceId = .ok props) :
    LookupsConsistent machine a ↔ (loadFor machine a).2 = .ok () ∨ found machine props a = fallbackFor a := by
  constructor
  · rintro ⟨-, hwhole⟩
    by_cases hfound : found machine props a = fallbackFor a
    · exact Or.inr hfound
    · refine Or.inl (hwhole [a] ?_)
      rw [← List.nil_append [a], answer_again hoverride hforced hprops]
      exact hfound
  · intro h
    have hall : ∀ history, answer machine history a = found machine props a := by
      intro history
      rcases answer_cases hoverride hforced hprops history with hanswer | ⟨hanswer, hfails⟩
      · exact hanswer
      · rcases h with hok | hfound
        · exact absurd hok hfails
        · rw [hanswer, hfound]
    refine ⟨fun history i j => by rw [hall, hall], fun history hne => ?_⟩
    rw [hall] at hne
    rcases h with hok | hfound
    · exact hok
    · exact absurd hfound hne

end

/-! ## The file -/

/-- **What `Load` leaves** of a file with a header: the records in front of the first line without one, which is
    also where it throws. -/
theorem load_header {disk : Disk} {path : String} {text : List Char} {rest : List (List Char)}
    (hdisk : disk path = some text) (hrest : contentLines text = kHeader :: rest) :
    (((AutotuneCache.new path).load disk).2 = .ok () ↔ ∀ line ∈ rest, (acceptedRecord line).isSome) ∧
      ((AutotuneCache.new path).load disk).1.entries = lastRecord (recordsBefore rest) := by
  unfold AutotuneCache.load
  simp only [AutotuneCache.new, hdisk]
  obtain ⟨hentries, hok⟩ := parseStream_header path hrest
  refine ⟨hok, hentries.trans ?_⟩
  rw [storeRecords_eq]
  funext k
  exact Option.or_none

/-- Anything else is an empty cache. -/
theorem load_noHeader {disk : Disk} {path : String}
    (h : ∀ text, disk path = some text → (contentLines text).head? ≠ some kHeader) :
    ((AutotuneCache.new path).load disk).2 = .ok () := by
  unfold AutotuneCache.load
  cases hdisk : disk path with
  | none => simp only [AutotuneCache.new, hdisk]
  | some text =>
      simp only [AutotuneCache.new, hdisk]
      rw [parseStream_noHeader path (h text hdisk)]

/-- No file that cannot be loaded has, in front of its first bad line, a record that a lookup would use and that
    differs from the fallback. -/
def NoPartialRecord (machine : Machine) (a : LookupArgs) : Prop :=
  ∀ props text rest, machine.queryDeviceProps a.deviceId = .ok props →
    machine.disk (resolvedPath machine.getenv a.cachePath) = some text → contentLines text = kHeader :: rest →
    (∃ line ∈ rest, acceptedRecord line = none) →
    ∀ cfg, lastRecord (recordsBefore rest) ⟨props.cacheKey, a.profileType, a.precision⟩ = some cfg →
      isSupportedKernelConfig cfg a.precision = true → cfg = fallbackFor a

/-- What a lookup finds is the fallback unless the copy has a usable record. -/
theorem found_eq_fallback_iff {props : GpuDeviceProps} : found machine props a = fallbackFor a ↔
    ∀ cfg, (loadFor machine a).1.entries ⟨props.cacheKey, a.profileType, a.precision⟩ = some cfg →
      isSupportedKernelConfig cfg a.precision = true → cfg = fallbackFor a := by
  unfold found lookupKernelConfigForDeviceKey AutotuneCache.lookup
  dsimp only
  cases hhit : (loadFor machine a).1.entries ⟨props.cacheKey, a.profileType, a.precision⟩ with
  | none => exact iff_of_true rfl fun _ h => by cases h
  | some cfg =>
      dsimp only
      split_ifs with hsupported
      · exact ⟨fun h cfg' hcfg' _ => Option.some.inj hcfg' ▸ h, fun h => h cfg rfl hsupported⟩
      · refine iff_of_true rfl fun cfg' hcfg' hsup => ?_
        cases hcfg'
        exact absurd hsup hsupported

/-- **Lookups are consistent** exactly when no file that cannot be loaded has a usable record in front of its first
    bad line. -/
theorem lookups_consistent_iff (machine : Machine) (a : LookupArgs) (hoverride : machine.cfgOverride = none)
    (hforced : kForcedVariant machine.getenv = none) : LookupsConsistent machine a ↔ NoPartialRecord machine a := by
  cases hprops : machine.queryDeviceProps a.deviceId with
  | error message =>
      have hall : ∀ history, answer machine history a = fallbackFor a := fun history =>
        congrArg Prod.snd (getKernelConfig_error hoverride hforced hprops)
      refine iff_of_true ⟨fun _ _ _ => by rw [hall, hall], fun _ hne => absurd (hall _) hne⟩ ?_
      intro props _ _ hok
      rw [hprops] at hok
      cases hok
  | ok props =>
      rw [consistent_iff_found hoverride hforced hprops, found_eq_fallback_iff]
      constructor
      · intro h props' text rest hprops' htext hrest hbad
        rw [hprops] at hprops'
        cases hprops'
        obtain ⟨hok, hentries⟩ := load_header htext hrest
        obtain ⟨line, hline, hnone⟩ := hbad
        rcases h with hloads | hfound
        · have hsome := hok.mp hloads line hline
          rw [hnone] at hsome
          cases hsome
        · unfold loadFor at hfound
          rwa [hentries] at hfound
      · intro h
        by_cases hfile : ∃ text, machine.disk (resolvedPath machine.getenv a.cachePath) = some text ∧
            (contentLines text).head? = some kHeader
        · obtain ⟨text, htext, hhead⟩ := hfile
          obtain ⟨rest, hrest⟩ := List.head?_eq_some_iff.mp hhead
          obtain ⟨hok, hentries⟩ := load_header htext hrest
          by_cases hall : ∀ line ∈ rest, (acceptedRecord line).isSome
          · exact Or.inl (hok.mpr hall)
          · refine Or.inr ?_
            unfold loadFor
            rw [hentries]
            simp only [not_forall, Bool.not_eq_true, Option.isSome_eq_false_iff, Option.isNone_iff_eq_none] at hall
            obtain ⟨line, hline, hnone⟩ := hall
            exact h props text rest hprops htext hrest ⟨line, hline, hnone⟩
        · exact Or.inl (load_noHeader fun text htext hhead => hfile ⟨text, htext, hhead⟩)

/-- A machine with one device, named `A`, and the given cache file. -/
def machineWith (text : List Char) : Machine where
  getenv := fun _ => none
  disk := fun _ => some text
  queryDeviceProps := fun _ => .ok ⟨['A'], 8, 6⟩
  cfgOverride := none

/-- A lookup of that device. -/
def lookupA : LookupArgs := ⟨0, .oneNN, .single, "cache.txt"⟩

/-- A line with a record of that device, of the shuffle kernel, which is not the default for `1NN`. -/
def tunedLine : List Char :=
  ['A', '_', '_', 's', 'm', '_', '8', '6', '|', '1', 'N', 'N', '|', 'S', 'I', 'N', 'G', 'L', 'E', '|', '6', '4', '|',
    '5', '|', '8', '|', '0', '|', '8', '|', '3', '2']

/-- A file that ends in a line which is no record. -/
def tornFile : List Char := kHeader ++ '\n' :: tunedLine ++ ['\n', '?']

/-- A file that is read whole is looked up consistently. -/
theorem lookups_consistent_whole : LookupsConsistent (machineWith (kHeader ++ '\n' :: tunedLine)) lookupA := by
  refine (lookups_consistent_iff _ _ rfl rfl).mpr fun props text rest _ htext hrest hbad => ?_
  obtain ⟨line, hline, hnone⟩ := hbad
  cases htext
  have hcontent : contentLines (kHeader ++ '\n' :: tunedLine) = [kHeader, tunedLine] := by decide
  rw [hcontent] at hrest
  obtain rfl : [tunedLine] = rest := (List.cons.inj hrest).2
  rw [List.mem_singleton.mp hline] at hnone
  exact absurd hnone (by decide)

/-- The record in front of a bad line is used from the second lookup on. -/
theorem lookups_inconsistent : ¬∀ (machine : Machine) (a : LookupArgs), machine.cfgOverride = none →
    kForcedVariant machine.getenv = none → LookupsConsistent machine a := by
  intro hall
  have hconsistent := (consistent_iff_found rfl rfl rfl).mp (hall (machineWith tornFile) lookupA rfl rfl)
  have hcontent : contentLines tornFile = [kHeader, tunedLine, ['?']] := by decide
  have hdisk : (machineWith tornFile).disk (resolvedPath (machineWith tornFile).getenv lookupA.cachePath) =
      some tornFile := rfl
  obtain ⟨hok, hentries⟩ := load_header hdisk hcontent
  rcases hconsistent with hloads | hfound
  · exact absurd (hok.mp hloads ['?'] (by decide)) (by decide)
  · have hrecord : lastRecord (recordsBefore [tunedLine, ['?']])
        ⟨GpuDeviceProps.cacheKey ⟨['A'], 8, 6⟩, .oneNN, .single⟩ = some ⟨64, 5, 8, 0, 8, 32⟩ := by decide
    rw [found_eq_fallback_iff] at hfound
    refine absurd (hfound ⟨64, 5, 8, 0, 8, 32⟩ ?_ (by decide)) (by decide)
    exact (congrFun hentries _).trans hrecord

end Scamp.Autotune
