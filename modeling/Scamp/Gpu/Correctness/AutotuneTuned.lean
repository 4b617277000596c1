import Scamp.Gpu.Correctness.AutotuneRoundTrip
import Scamp.Gpu.Correctness.AutotuneSweep

/-!
# `Gpu.Correctness.AutotuneTuned` — what a sweep leaves in the cache file

What `Load` reads can be written again: its keys are storable and its integers fit (`WritableEntries`). So after a
sweep the file is loaded as the old entries under the winners, when the key of the device is storable as well
(`load_swept`). That is what a sweep is for exactly when besides no trial of `-inf` wins
(`sweep_tunes_iff`).
-/

namespace Scamp.Autotune

open Lib

/-! ## Entries that can be written -/

/-- A key whose records are read back. -/
structure Storable (deviceKey : List Char) : Prop extends Printable deviceKey where
  noComment : ¬LooksLikeComment deviceKey

/-- Entries that `Save` can write and `Load` reads back. -/
structure WritableEntries (entries : Entries) : Prop where
  storable : ∀ k, entries k ≠ none → Storable k.deviceKey
  inRange : ∀ k c, entries k = some c → c.InRange
  ordered : ∃ order, Enumerates order entries

theorem writable_empty : WritableEntries fun _ => none := by
  refine ⟨fun _ h => absurd rfl h, fun _ _ h => ?_, [], List.nodup_nil, fun _ => ?_⟩
  · cases h
  · exact iff_of_false List.not_mem_nil fun h => h rfl

variable {entries : Entries} {k : Key} {c : KernelConfig}

/-- None of their records is taken for a comment. -/
theorem WritableEntries.kept (h : WritableEntries entries) : keptEntries entries = entries := by
  funext k
  unfold keptEntries
  split_ifs with hcomment
  · by_contra hne
    exact (h.storable k fun hnone => hne hnone.symm).noComment hcomment
  · rfl

/-- One more entry is one more key, or one of those there are. -/
theorem ordered_update {order : List Key} (h : Enumerates order entries) :
    ∃ order', Enumerates order' (Function.update entries k (some c)) := by
  by_cases hk : k ∈ order
  · refine ⟨order, h.nodup, fun k' => ?_⟩
    by_cases heq : k' = k
    · subst heq
      rw [Function.update_self]
      exact iff_of_true hk (Option.some_ne_none c)
    · rw [Function.update_of_ne heq]
      exact h.mem_iff k'
  · refine ⟨k :: order, List.nodup_cons.mpr ⟨hk, h.nodup⟩, fun k' => ?_⟩
    by_cases heq : k' = k
    · subst heq
      rw [Function.update_self]
      exact iff_of_true List.mem_cons_self (Option.some_ne_none c)
    · rw [Function.update_of_ne heq, List.mem_cons, ← h.mem_iff k']
      exact ⟨fun hmem => hmem.resolve_left heq, Or.inr⟩

theorem WritableEntries.update (h : WritableEntries entries) (hk : Storable k.deviceKey) (hc : c.InRange) :
    WritableEntries (Function.update entries k (some c)) := by
  refine ⟨fun k' hne => ?_, fun k' c' hc' => ?_, ?_⟩
  · by_cases heq : k' = k
    · rwa [heq]
    · rw [Function.update_of_ne heq] at hne
      exact h.storable k' hne
  · by_cases heq : k' = k
    · rw [heq, Function.update_self] at hc'
      cases hc'
      exact hc
    · rw [Function.update_of_ne heq] at hc'
      exact h.inRange k' c' hc'
  · obtain ⟨order, horder⟩ := h.ordered
    exact ordered_update horder

/-! ## Entries that were read -/

theorem intRange_of_stoi {s : List Char} {n : ℤ} (h : stoi s = some n) : IntRange n := by
  unfold stoi at h
  split at h
  · split_ifs at h with hrange
    cases h
    exact hrange
  · cases h

variable {line : List Char} {r : Key × KernelConfig}

theorem inRange_of_accepted (h : acceptedRecord line = some r) : r.2.InRange := by
  obtain ⟨f1, f2, f3, f4, f5, f6, f7, f8, -, -, -, hc⟩ := recordOf_eq_some.mp h
  obtain ⟨h3, h4, h5, h6, h7, h8⟩ := configOf_eq_some.mp hc
  exact ⟨intRange_of_stoi h3, intRange_of_stoi h4, intRange_of_stoi h5, intRange_of_stoi h6, intRange_of_stoi h7,
    intRange_of_stoi h8⟩

/-- **The key of a line** that is read is storable: it is what stands in front of the first separator. -/
theorem storable_of_accepted (h : acceptedRecord line = some r) (hnewline : '\n' ∉ line)
    (hskip : isSkipped line = false) : Storable r.1.deviceKey := by
  obtain ⟨f1, f2, f3, f4, f5, f6, f7, f8, hfields, -, -, -⟩ := recordOf_eq_some.mp h
  have hmem : r.1.deviceKey ∈ pieces kFieldSep line := by
    rw [hfields]
    exact List.mem_cons_self
  obtain ⟨hsep, hsub⟩ := of_mem_pieces hmem
  refine ⟨⟨hsep, fun hmem => hnewline (hsub _ hmem)⟩, fun hcomment => ?_⟩
  rcases piece_cases kFieldSep line with rfl | ⟨hne, hno⟩ | ⟨first, rest, rfl, hfirst⟩
  · exact absurd hfields (List.cons_ne_nil _ _).symm
  · rw [pieces_of_notMem hno hne] at hfields
    cases hfields
  · rw [pieces_append hfirst] at hfields
    -- the line starts as its key does
    have hhead : (first ++ kFieldSep :: rest).head? = some '#' := by
      rw [(List.cons.inj hfields).1]
      unfold LooksLikeComment at hcomment
      rw [List.head?_append, hcomment]
      rfl
    unfold isSkipped at hskip
    rw [hhead] at hskip
    exact absurd hskip (by simp)

/-- Records of lines with content keep entries writable. -/
theorem writable_storeRecords (lines : List (List Char)) : ∀ entries : Entries, WritableEntries entries →
    (∀ line ∈ lines, '\n' ∉ line ∧ isSkipped line = false) → WritableEntries (storeRecords lines entries) := by
  induction lines with
  | nil => exact fun _ h _ => h
  | cons line lines ih =>
      intro entries h hlines
      obtain ⟨hnewline, hskip⟩ := hlines line List.mem_cons_self
      unfold storeRecords
      cases hr : acceptedRecord line with
      | none => exact h
      | some r =>
          exact ih _ (h.update (storable_of_accepted hr hnewline hskip) (inRange_of_accepted hr))
            fun l hl => hlines l (List.mem_cons_of_mem _ hl)

/-- **What is read can be written.** -/
theorem writable_load (path : String) (disk : Disk) :
    WritableEntries ((AutotuneCache.new path).load disk).1.entries := by
  unfold AutotuneCache.load
  cases hdisk : disk path with
  | none =>
      simp only [AutotuneCache.new, hdisk]
      exact writable_empty
  | some text =>
      simp only [AutotuneCache.new, hdisk]
      by_cases hhead : (contentLines text).head? = some kHeader
      · obtain ⟨rest, hrest⟩ := List.head?_eq_some_iff.mp hhead
        rw [(parseStream_header path hrest).1]
        refine writable_storeRecords rest _ writable_empty fun line hline => ?_
        have hcontent : line ∈ contentLines text := by
          rw [hrest]
          exact List.mem_cons_of_mem _ hline
        obtain ⟨hpiece, hskip⟩ := List.mem_filter.mp hcontent
        exact ⟨(of_mem_pieces hpiece).1, by simpa using hskip⟩
      · rw [parseStream_noHeader path hhead]
        exact writable_empty

/-! ## Saving -/

/-- No call of `Save` fails. -/
structure SaveSucceeds (env : SaveEnv) : Prop where
  created : env.parent = "" ∨ env.createError = none
  opened : env.openFails = false
  written : env.partialWrite = none
  renamed : env.renameError = none

variable {env : SaveEnv}

theorem save_succeeds (cache : AutotuneCache) (order : List Key) (disk : Disk) (h : SaveSucceeds env) : (cache.save order env disk).2 = .ok () := by
  have hcreated : (if env.parent = "" then none else env.createError) = none := by
    rcases h.created with hparent | hcreate
    · exact if_pos hparent
    · rw [hcreate]
      exact ite_self _
  unfold AutotuneCache.save
  dsimp only
  rw [hcreated, h.opened, h.written, h.renamed]
  rfl

/-- **A failed `Save`** leaves the file as it is. -/
theorem save_fails (cache : AutotuneCache) (order : List Key) (disk : Disk) (h : ¬SaveSucceeds env) :
    (∃ message, (cache.save order env disk).2 = .error message) ∧
      (cache.save order env disk).1 cache.path = disk cache.path := by
  have htmp : cache.path ≠ cache.path ++ ".tmp" := by
    intro heq
    have hlength := congrArg String.length heq
    rw [String.length_append] at hlength
    exact absurd hlength (by simp)
  unfold AutotuneCache.save
  dsimp only
  cases hcreate : (if env.parent = "" then none else env.createError) with
  | some message => exact ⟨⟨_, rfl⟩, rfl⟩
  | none =>
      dsimp only
      cases hopen : env.openFails with
      | true => exact ⟨⟨_, rfl⟩, rfl⟩
      | false =>
          cases hwrite : env.partialWrite with
          | some written => exact ⟨⟨_, rfl⟩, Function.update_of_ne htmp _ _⟩
          | none =>
              cases hrename : env.renameError with
              | some message => exact ⟨⟨_, rfl⟩, Function.update_of_ne htmp _ _⟩
              | none =>
                  refine absurd ⟨?_, hopen, hwrite, hrename⟩ h
                  by_cases hparent : env.parent = ""
                  · exact Or.inl hparent
                  · exact Or.inr (by rwa [if_neg hparent] at hcreate)

/-! ## The winners -/

variable {K : Type} [LinearOrder K] {getenv : String → Option String} {bench : BenchmarkFn K}

/-- The configurations of a sweep fit. -/
theorem inRange_sweep (p : SCAMPPrecisionType) : ∀ i ∈ List.range kNumKernelVariants, ∀ bsz ∈ kSweepBlocksizes,
    KernelConfig.InRange { getKernelConfigForVariant i p with blocksz := bsz } := by
  intro i hi bsz hbsz
  have hgeom : ∀ i ∈ List.range kNumKernelVariants, let v := getKernelVariantGeometry i
      IntRange v.blocksPerSm ∧ IntRange v.diagsPerThread ∧ IntRange v.unrolledRows ∧
        IntRange v.outerUnrolledRows ∧ IntRange v.kernelTileIters := by decide
  have hbsz' : IntRange bsz := by
    revert bsz
    decide
  obtain ⟨hbps, hdpt, hur, hour, hkti⟩ := hgeom i hi
  exact ⟨hbsz', hbps, hdpt, hur, hour, hkti⟩

theorem inRange_default (t : SCAMPProfileType) (p : SCAMPPrecisionType) :
    (getDefaultKernelConfig t p).InRange := by
  cases t <;> cases p <;> constructor <;> decide

theorem inRange_chosen (t : SCAMPProfileType × SCAMPPrecisionType) : (chosen getenv bench t).InRange := by
  unfold chosen
  dsimp only
  cases hbest : ((trials getenv t.2).filter fun cfg => (bench t.1 t.2 cfg).time.rank < ⊤).argmin
      fun cfg => (bench t.1 t.2 cfg).time.rank with
  | none => exact inRange_default t.1 t.2
  | some cfg =>
      have htrial := List.mem_of_mem_filter (List.argmin_mem hbest)
      obtain ⟨i, hi, hcfg⟩ := List.mem_flatMap.mp htrial
      obtain ⟨bsz, hbsz, rfl⟩ := List.mem_map.mp (List.mem_of_mem_filter hcfg)
      exact inRange_sweep t.2 i (List.mem_of_mem_filter hi) bsz hbsz

/-- The entries after a sweep can be written if the key of the device can. -/
theorem writable_tuned {deviceKey : List Char} (hkey : Storable deviceKey)
    (targets : List (SCAMPProfileType × SCAMPPrecisionType)) (h : WritableEntries entries) :
    WritableEntries (tuned getenv (chosen getenv bench) deviceKey targets entries) := by
  have hfold : ∀ (targets : List (SCAMPProfileType × SCAMPPrecisionType)) (s : AutotuneCache × KernelConfig),
      WritableEntries s.1.entries →
      WritableEntries (targets.foldl (storeChosen getenv bench deviceKey) s).1.entries := by
    intro targets
    induction targets with
    | nil => exact fun _ hs => hs
    | cons t targets ih =>
        intro s hs
        refine ih _ ?_
        cases henabled : autotuneTargetEnabled getenv t.2 with
        | false => rwa [storeChosen_disabled henabled]
        | true =>
            rw [storeChosen_enabled henabled]
            exact hs.update hkey (inRange_chosen t)
  have := hfold targets (⟨"", entries⟩, ⟨0, 0, 0, 0, 0, 0⟩) h
  rwa [foldl_storeChosen] at this

/-! ## The file after a sweep -/

/-- Nothing ends the sweep early: the file loads, the exceptions of the trials are caught, and it can be saved. -/
structure Completes (machine : Machine) (env : SaveEnv) (bench : BenchmarkFn K) (cachePath : String) : Prop where
  loads : ((AutotuneCache.new (resolvedPath machine.getenv cachePath)).load machine.disk).2 = .ok ()
  caught : NoOtherException machine.getenv bench
  saves : SaveSucceeds env

/-- The entries of the file a sweep starts with. -/
def priorEntries (machine : Machine) (cachePath : String) : Entries :=
  ((AutotuneCache.new (resolvedPath machine.getenv cachePath)).load machine.disk).1.entries

/-- The cache with a configuration for each enabled target over the entries a sweep starts with. -/
def tunedCache (machine : Machine) (config : SCAMPProfileType × SCAMPPrecisionType → KernelConfig)
    (deviceKey : List Char) (cachePath : String) : AutotuneCache where
  path := resolvedPath machine.getenv cachePath
  entries := tuned machine.getenv config deviceKey kAutotuneTargets (priorEntries machine cachePath)

/-- What a sweep is for: the file has the entries it had, under a configuration for each enabled target of the
    device, that of the first trial with the smallest finite time, or the default; and it is left alone if the
    sweep throws. -/
def SweepTunes (machine : Machine) (iterate : Entries → List Key) (env : SaveEnv) (bench : BenchmarkFn K)
    (deviceKey : List Char) (cachePath : String) (state : CacheState) : Prop :=
  let path := resolvedPath machine.getenv cachePath
  let swept := runAutotuneWithBenchmarkForDeviceKey machine iterate env bench deviceKey cachePath state
  (Completes machine env bench cachePath → (∃ result, swept.2.2 = .ok result) ∧
      (AutotuneCache.new path).load swept.1 =
        (tunedCache machine (fastest machine.getenv bench) deviceKey cachePath, .ok ())) ∧
    (¬Completes machine env bench cachePath → (∃ e, swept.2.2 = .error e) ∧ swept.1 path = machine.disk path)

theorem load_path (path : String) (disk : Disk) : ((AutotuneCache.new path).load disk).1.path = path := by
  unfold AutotuneCache.load
  split <;> rfl

variable {machine : Machine} {deviceKey : List Char} {cachePath : String}

/-- **A sweep of a file that loads**, when all exceptions are caught, comes down to saving the winners over the
    entries that were loaded. -/
theorem sweep_saves (iterate : Entries → List Key) (env : SaveEnv) (deviceKey : List Char) (state : CacheState)
    (hloads : ((AutotuneCache.new (resolvedPath machine.getenv cachePath)).load machine.disk).2 = .ok ())
    (hcaught : NoOtherException machine.getenv bench) :
    let cache := tunedCache machine (chosen machine.getenv bench) deviceKey cachePath
    let swept := runAutotuneWithBenchmarkForDeviceKey machine iterate env bench deviceKey cachePath state
    let saved := cache.save (iterate cache.entries) env machine.disk
    swept.1 = saved.1 ∧ (saved.2 = .ok () → ∃ result, swept.2.2 = .ok result) ∧
      ∀ message, saved.2 = .error message → swept.2.2 = .error (.cache message) := by
  have hpath := load_path (resolvedPath machine.getenv cachePath) machine.disk
  unfold runAutotuneWithBenchmarkForDeviceKey tunedCache priorEntries
  dsimp only
  cases hload : (AutotuneCache.new (resolvedPath machine.getenv cachePath)).load machine.disk with
  | mk loaded result =>
      rw [hload] at hloads hpath
      obtain rfl : result = .ok () := hloads
      dsimp only at hpath ⊢
      have hfold := @foldl_storeChosen K _ machine.getenv bench deviceKey kAutotuneTargets
        (loaded, ⟨0, 0, 0, 0, 0, 0⟩)
      rw [sweep_eq deviceKey hcaught]
      cases hswept : kAutotuneTargets.foldl (storeChosen machine.getenv bench deviceKey)
          (loaded, ⟨0, 0, 0, 0, 0, 0⟩) with
      | mk diskCache lastChosen =>
          rw [hswept] at hfold
          dsimp only at hfold ⊢
          rw [hpath] at hfold
          subst hfold
          dsimp only
          cases AutotuneCache.save _ _ env machine.disk with
          | mk disk result =>
              cases result with
              | ok _ => exact ⟨rfl, fun _ => ⟨_, rfl⟩, fun _ h => by cases h⟩
              | error message =>
                  refine ⟨rfl, fun h => ?_, fun _ h => ?_⟩
                  · cases h
                  · cases h
                    rfl

/-- **A sweep that is ended** leaves the file as it is. -/
theorem sweep_ended (iterate : Entries → List Key) (deviceKey : List Char) (state : CacheState)
    (h : ¬Completes machine env bench cachePath) :
    let swept := runAutotuneWithBenchmarkForDeviceKey machine iterate env bench deviceKey cachePath state
    (∃ e, swept.2.2 = .error e) ∧
      swept.1 (resolvedPath machine.getenv cachePath) = machine.disk (resolvedPath machine.getenv cachePath) := by
  intro swept
  by_cases hloads : ((AutotuneCache.new (resolvedPath machine.getenv cachePath)).load machine.disk).2 = .ok ()
  · by_cases hcaught : NoOtherException machine.getenv bench
    · -- `Save` fails
      have hsave : ¬SaveSucceeds env := fun hsave => h ⟨hloads, hcaught, hsave⟩
      obtain ⟨hdisk, -, herror⟩ := sweep_saves iterate env deviceKey state hloads hcaught
      obtain ⟨⟨message, hmessage⟩, hsame⟩ :=
        save_fails (tunedCache machine (chosen machine.getenv bench) deviceKey cachePath) _ _ hsave
      exact ⟨⟨_, herror message hmessage⟩, (congrFun hdisk _).trans hsame⟩
    · -- a trial throws
      unfold swept runAutotuneWithBenchmarkForDeviceKey
      dsimp only
      cases hload : (AutotuneCache.new (resolvedPath machine.getenv cachePath)).load machine.disk with
      | mk loaded result =>
          rw [hload] at hloads
          obtain rfl : result = .ok () := hloads
          dsimp only
          rw [sweep_none deviceKey hcaught]
          exact ⟨⟨_, rfl⟩, rfl⟩
  · -- `Load` fails
    unfold swept runAutotuneWithBenchmarkForDeviceKey
    dsimp only
    cases hload : (AutotuneCache.new (resolvedPath machine.getenv cachePath)).load machine.disk with
    | mk loaded result =>
        rw [hload] at hloads
        cases result with
        | ok _ => exact absurd rfl hloads
        | error message => exact ⟨⟨_, rfl⟩, rfl⟩

/-- **A sweep that completes**, for a storable key: the file is loaded as the winners over what there was. -/
theorem load_swept {iterate : Entries → List Key} (state : CacheState) (hkey : Storable deviceKey)
    (h : Completes machine env bench cachePath)
    (hiterate : ∀ entries order, Enumerates order entries → Enumerates (iterate entries) entries) :
    let swept := runAutotuneWithBenchmarkForDeviceKey machine iterate env bench deviceKey cachePath state
    (∃ result, swept.2.2 = .ok result) ∧ (AutotuneCache.new (resolvedPath machine.getenv cachePath)).load swept.1 =
      (tunedCache machine (chosen machine.getenv bench) deviceKey cachePath, .ok ()) := by
  intro swept
  obtain ⟨hdisk, hok, -⟩ := sweep_saves iterate env deviceKey state h.loads h.caught
  have hwritable : WritableEntries (tunedCache machine (chosen machine.getenv bench) deviceKey cachePath).entries :=
    writable_tuned hkey kAutotuneTargets (writable_load _ _)
  obtain ⟨order, horder⟩ := hwritable.ordered
  refine ⟨hok (save_succeeds _ _ _ h.saves), ?_⟩
  have hload := load_save (hiterate _ order horder) (fun k hk => (hwritable.storable k hk).toPrintable)
    hwritable.inRange (save_succeeds _ _ machine.disk h.saves)
  rw [hwritable.kept] at hload
  exact (congrArg _ hdisk).trans hload

/-- Some target is enabled, whatever the filter. -/
theorem exists_enabled (getenv : String → Option String) :
    ∃ t ∈ kAutotuneTargets, autotuneTargetEnabled getenv t.2 = true := by
  by_cases hsingle : autotuneTargetEnabled getenv .single = true
  · exact ⟨(.oneNN, .single), by decide, hsingle⟩
  · refine ⟨(.oneNN, .double), by decide, ?_⟩
    unfold autotuneTargetEnabled at hsingle ⊢
    dsimp only at hsingle ⊢
    split_ifs at hsingle ⊢ <;> simp_all

theorem tuned_target {config : SCAMPProfileType × SCAMPPrecisionType → KernelConfig}
    {t : SCAMPProfileType × SCAMPPrecisionType} (ht : t ∈ kAutotuneTargets)
    (henabled : autotuneTargetEnabled machine.getenv t.2 = true) :
    (tunedCache machine config deviceKey cachePath).entries ⟨deviceKey, t.1, t.2⟩ = some (config t) :=
  if_pos ⟨rfl, ht, henabled⟩

/-- **A sweep does what it is for** exactly when, if nothing ends it, the key of the device is storable and no trial
    of `-inf` wins at an enabled target. -/
theorem sweep_tunes_iff (machine : Machine) (iterate : Entries → List Key) (env : SaveEnv) (bench : BenchmarkFn K)
    (deviceKey : List Char) (cachePath : String) (state : CacheState)
    (hiterate : ∀ entries order, Enumerates order entries → Enumerates (iterate entries) entries) :
    SweepTunes machine iterate env bench deviceKey cachePath state ↔
      (Completes machine env bench cachePath → Storable deviceKey ∧
        ∀ t ∈ kAutotuneTargets, autotuneTargetEnabled machine.getenv t.2 = true →
          NoNegInfWin machine.getenv bench t) := by
  constructor
  · rintro ⟨htunes, -⟩ hcompletes
    obtain ⟨-, hload⟩ := htunes hcompletes
    have hkey : Storable deviceKey := by
      obtain ⟨t, ht, henabled⟩ := exists_enabled machine.getenv
      have hwritable := writable_load (resolvedPath machine.getenv cachePath)
        (runAutotuneWithBenchmarkForDeviceKey machine iterate env bench deviceKey cachePath state).1
      rw [hload] at hwritable
      refine hwritable.storable ⟨deviceKey, t.1, t.2⟩ ?_
      rw [tuned_target ht henabled]
      exact Option.some_ne_none _
    refine ⟨hkey, fun t ht henabled => chosen_eq_fastest_iff.mp ?_⟩
    have hsame := hload.symm.trans (load_swept state hkey hcompletes hiterate).2
    have hentry := congrArg (fun r => r.1.entries ⟨deviceKey, t.1, t.2⟩) hsame
    dsimp only at hentry
    rw [tuned_target ht henabled, tuned_target ht henabled] at hentry
    exact (Option.some.inj hentry).symm
  · intro hcond
    refine ⟨fun hcompletes => ?_, fun hended => sweep_ended iterate deviceKey state hended⟩
    obtain ⟨hkey, hwins⟩ := hcond hcompletes
    obtain ⟨hok, hload⟩ := load_swept state hkey hcompletes hiterate
    refine ⟨hok, hload.trans ?_⟩
    have hsame : tunedCache machine (chosen machine.getenv bench) deviceKey cachePath =
        tunedCache machine (fastest machine.getenv bench) deviceKey cachePath := by
      unfold tunedCache tuned
      congr 1
      funext k
      split_ifs with hk
      · rw [chosen_eq_fastest_iff.mpr (hwins _ hk.2.1 hk.2.2)]
      · rfl
    rw [hsame]

/-- Some order of a map that has one. -/
noncomputable def someOrder (entries : Entries) : List Key :=
  open Classical in if h : ∃ order, Enumerates order entries then h.choose else []

theorem enumerates_someOrder (entries : Entries) (order : List Key) (h : Enumerates order entries) :
    Enumerates (someOrder entries) entries := by
  have hex : ∃ order, Enumerates order entries := ⟨order, h⟩
  unfold someOrder
  rw [dif_pos hex]
  exact hex.choose_spec

theorem storable_A : Storable ['A'] := ⟨⟨by decide, by decide⟩, by decide⟩

theorem saves_noFailure : SaveSucceeds noFailure := ⟨Or.inl rfl, rfl, rfl, rfl⟩

/-- A machine without a cache file. -/
def emptyMachine : Machine := ⟨fun _ => none, fun _ => none, fun _ => .error "", none⟩

theorem completes_empty {s : Sample ℚ} :
    Completes emptyMachine noFailure (fun _ _ _ => .seconds s) "cache.txt" :=
  ⟨rfl, fun _ _ _ _ _ => by simp, saves_noFailure⟩

/-- The cache an earlier sweep left: a record of another device, and one of a target that is filtered out now. -/
def previousCache : AutotuneCache :=
  ((AutotuneCache.new "cache.txt").store ['B'] .oneNN .double ⟨128, 2, 4, 4, 16, 16⟩).store ['A'] .oneNN .single
    ⟨256, 5, 8, 0, 8, 32⟩

def previousOrder : List Key := [⟨['A'], .oneNN, .single⟩, ⟨['B'], .oneNN, .double⟩]

/-- A machine with its file that tunes double precision only. -/
def filteredMachine : Machine :=
  { emptyMachine with
    getenv := fun name => if name = "SCAMP_AUTOTUNE_PRECISION_FILTER" then some "Double" else none
    disk := (previousCache.save previousOrder noFailure fun _ => none).1 }

/-- Trials that take as long as their blocks are large. Those of the largest blocks throw. -/
def blockTimes : BenchmarkFn ℚ := fun _ _ cfg =>
  if cfg.blocksz = 512 then .stdException else .seconds (.finite cfg.blocksz)

theorem writable_previous : WritableEntries previousCache.entries := by
  refine (writable_empty.update ⟨⟨by decide, by decide⟩, by decide⟩ ?_).update storable_A ?_
  · constructor <;> decide
  · constructor <;> decide

theorem enumerates_previous : Enumerates previousOrder previousCache.entries := by
  have hentries : ∀ k, previousCache.entries k = if k = ⟨['A'], .oneNN, .single⟩ then some ⟨256, 5, 8, 0, 8, 32⟩
      else if k = ⟨['B'], .oneNN, .double⟩ then some ⟨128, 2, 4, 4, 16, 16⟩ else none := fun _ =>
    (Function.update_apply ..).trans (congrArg _ (Function.update_apply ..))
  refine ⟨by decide, fun k => ?_⟩
  rw [hentries]
  unfold previousOrder
  split_ifs with hA hB <;> simp_all

theorem load_previous : (AutotuneCache.new "cache.txt").load filteredMachine.disk = (previousCache, .ok ()) := by
  have hload := load_save enumerates_previous (fun k hk => (writable_previous.storable k hk).toPrintable)
    writable_previous.inRange (save_succeeds previousCache previousOrder (fun _ => none) saves_noFailure)
  rwa [writable_previous.kept] at hload

theorem completes_filtered : Completes filteredMachine noFailure blockTimes "cache.txt" := by
  refine ⟨congrArg Prod.snd load_previous, fun t _ _ cfg _ => ?_, saves_noFailure⟩
  unfold blockTimes
  split_ifs <;> simp

/-- A sweep over this file: the record of the other device and that of the filtered target stay, and a target of
    double precision gets the smallest blocks of the first variant. -/
theorem sweep_tunes_filtered :
    let swept := runAutotuneWithBenchmarkForDeviceKey filteredMachine someOrder noFailure blockTimes ['A'] "cache.txt"
      .initial
    let loaded := (AutotuneCache.new "cache.txt").load swept.1
    SweepTunes filteredMachine someOrder noFailure blockTimes ['A'] "cache.txt" .initial ∧ loaded.2 = .ok () ∧
      loaded.1.lookup ['B'] .oneNN .double = some ⟨128, 2, 4, 4, 16, 16⟩ ∧
      loaded.1.lookup ['A'] .oneNN .single = some ⟨256, 5, 8, 0, 8, 32⟩ ∧
      loaded.1.lookup ['A'] .oneNN .double = some ⟨64, 1, 4, 4, 16, 16⟩ := by
  intro swept loaded
  have hwins : ∀ t, NoNegInfWin filteredMachine.getenv blockTimes t := by
    intro t cfg hcfg
    have hneg := List.find?_some hcfg
    unfold blockTimes at hneg
    split_ifs at hneg <;> exact Bool.noConfusion hneg
  have htunes := (sweep_tunes_iff filteredMachine someOrder noFailure blockTimes ['A'] "cache.txt" .initial
    enumerates_someOrder).mpr fun _ => ⟨storable_A, fun t _ _ => hwins t⟩
  have hload : loaded =
      (tunedCache filteredMachine (fastest filteredMachine.getenv blockTimes) ['A'] "cache.txt", .ok ()) :=
    (htunes.1 completes_filtered).2
  have hprior : priorEntries filteredMachine "cache.txt" = previousCache.entries :=
    congrArg (fun r => r.1.entries) load_previous
  rw [hload]
  unfold AutotuneCache.lookup tunedCache
  dsimp only
  rw [hprior]
  refine ⟨htunes, rfl, ?_, ?_, ?_⟩ <;> decide +kernel

/-- A sweep whose trials all take `-inf` stores the first one. -/
theorem sweep_negInf : ¬∀ (machine : Machine) (iterate : Entries → List Key) (env : SaveEnv) (bench : BenchmarkFn ℚ)
    (deviceKey : List Char) (cachePath : String) (state : CacheState),
    (∀ entries order, Enumerates order entries → Enumerates (iterate entries) entries) →
    SweepTunes machine iterate env bench deviceKey cachePath state := by
  intro hall
  have htunes := ((hall emptyMachine someOrder noFailure (fun _ _ _ => .seconds .negInf) ['A'] "cache.txt" .initial
    enumerates_someOrder).1 completes_empty).2
  have hsame := htunes.symm.trans (load_swept .initial storable_A completes_empty enumerates_someOrder).2
  have hentry := congrArg (fun r => r.1.entries ⟨['A'], .oneNNIndex, .double⟩) hsame
  have ht : ((.oneNNIndex, .double) : SCAMPProfileType × SCAMPPrecisionType) ∈ kAutotuneTargets := by decide
  have henabled : autotuneTargetEnabled emptyMachine.getenv .double = true := by decide
  dsimp only at hentry
  rw [tuned_target ht henabled, tuned_target ht henabled] at hentry
  have hwin := chosen_eq_fastest_iff.mp (Option.some.inj hentry).symm
  exact absurd (hwin ⟨64, 1, 4, 4, 16, 16⟩ rfl).1 (by decide)

end Scamp.Autotune
