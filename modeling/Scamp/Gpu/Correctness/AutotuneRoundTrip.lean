import Scamp.Gpu.Correctness.AutotuneFormat

/-!
# `Gpu.Correctness.AutotuneRoundTrip` — what `Save` writes is loaded again

A record whose key has no separator and no end of line is one line of nine fields, and `ParseStream` reads it
back (`acceptedRecord_recordLine`), unless the line is taken for a comment because its key starts with `#`. So
the file of a cache is loaded as all its records but those (`loadFile_fileText`), and as the whole cache exactly
when there are none (`load_save_iff`). `SanitizeForCacheKey` replaces separators and ends of lines, but not a
`#` at the front of a device's name.
-/

namespace Scamp.Autotune

open Lib

/-! ## Keys that can be written -/

/-- A key without separators and ends of lines. -/
structure Printable (deviceKey : List Char) : Prop where
  noSep : kFieldSep ∉ deviceKey
  noNewline : '\n' ∉ deviceKey

/-- A key whose records look like comments. -/
def LooksLikeComment (deviceKey : List Char) : Prop := deviceKey.head? = some '#'

instance (deviceKey : List Char) : Decidable (LooksLikeComment deviceKey) :=
  inferInstanceAs (Decidable (_ = _))

/-- The integers of a configuration fit in an `int`. -/
structure KernelConfig.InRange (c : KernelConfig) : Prop where
  blocksz : IntRange c.blocksz
  blocksPerSm : IntRange c.blocksPerSm
  diagsPerThread : IntRange c.diagsPerThread
  unrolledRows : IntRange c.unrolledRows
  outerUnrolledRows : IntRange c.outerUnrolledRows
  kernelTileIters : IntRange c.kernelTileIters

theorem not_mem_sanitize {c : Char} (h : c = '|' ∨ c = '\n') (s : List Char) : c ∉ sanitizeForCacheKey s := by
  intro hmem
  obtain ⟨d, -, hd⟩ := List.mem_map.mp hmem
  split_ifs at hd with hbad
  · rcases h with rfl | rfl <;> exact absurd hd (by decide)
  · subst hd
    rcases h with rfl | rfl <;> exact hbad (by decide)

/-- A character that is neither a digit nor a sign is in no printed integer. -/
theorem notMem_printInt {c : Char} (hc : c ≠ '-') (hdigit : c.isDigit = false) (n : ℤ) : c ∉ printInt n := by
  intro hmem
  rcases mem_printInt hmem with rfl | h
  · exact hc rfl
  · rw [hdigit] at h
    exact Bool.noConfusion h

/-- **The key of a device** can be written, whatever its name. -/
theorem printable_cacheKey (props : GpuDeviceProps) : Printable props.cacheKey := by
  have hchar : ∀ c : Char, (c = '|' ∨ c = '\n') → c ∉ props.cacheKey := by
    intro c hc
    have hdigit : c ≠ '-' ∧ c.isDigit = false ∧ c ∉ "__sm_".toList := by
      rcases hc with rfl | rfl <;> decide
    unfold GpuDeviceProps.cacheKey
    simp only [List.mem_append, not_or]
    exact ⟨⟨⟨not_mem_sanitize hc _, hdigit.2.2⟩, notMem_printInt hdigit.1 hdigit.2.1 _⟩,
      notMem_printInt hdigit.1 hdigit.2.1 _⟩
  exact ⟨hchar _ (Or.inl rfl), hchar _ (Or.inr rfl)⟩

/-- The key of a device looks like a comment when the device's name does. -/
theorem looksLikeComment_cacheKey (props : GpuDeviceProps) :
    LooksLikeComment props.cacheKey ↔ props.name.head? = some '#' := by
  obtain ⟨name, major, minor⟩ := props
  cases name with
  | nil => exact iff_of_false (by simp [LooksLikeComment, GpuDeviceProps.cacheKey, sanitizeForCacheKey]) (by simp)
  | cons c tail =>
      simp only [LooksLikeComment, GpuDeviceProps.cacheKey, sanitizeForCacheKey, List.map_cons, List.cons_append,
        List.head?_cons, Option.some.injEq]
      split_ifs with hbad
      · refine iff_of_false (by decide) ?_
        rintro rfl
        exact absurd hbad (by decide)
      · exact Iff.rfl

/-! ## The line of a record -/

theorem parse_profileTypeName (t : SCAMPProfileType) : parseProfileTypeName (profileTypeName t) = some t := by
  cases t <;> decide

theorem parse_precisionTypeName (p : SCAMPPrecisionType) : parsePrecisionTypeName (precisionTypeName p) = some p := by
  cases p <;> decide

/-- `std::stoi` reads back what was printed. -/
theorem stoi_printInt {n : ℤ} (h : IntRange n) : stoi (printInt n) = some n := by
  refine stoi_of_complete ?_
  unfold completeInt
  rw [readInt_printInt]
  exact if_pos h

variable {k : Key} {c : KernelConfig}

/-- A character of a record's line is a separator, or in one of the fields. -/
theorem notMem_fields {d : Char} (hkey : d ∉ k.deviceKey) (hprofile : d ∉ profileTypeName k.profileType)
    (hprecision : d ∉ precisionTypeName k.precision) (hint : ∀ n, d ∉ printInt n) :
    ∀ field ∈ recordFields k c, d ∉ field := by
  intro field hfield
  simp only [recordFields, List.mem_cons, List.not_mem_nil, or_false] at hfield
  rcases hfield with rfl | rfl | rfl | rfl | rfl | rfl | rfl | rfl
  · exact hkey
  · exact hprofile
  · exact hprecision
  all_goals exact hint _

/-- **The line of a record** is read back as the record. -/
theorem acceptedRecord_recordLine (hkey : Printable k.deviceKey) (hc : c.InRange) :
    acceptedRecord (recordLine k c) = some (k, c) := by
  have hfields : ∀ field ∈ recordFields k c, kFieldSep ∉ field := by
    refine notMem_fields hkey.noSep ?_ ?_ fun n => notMem_printInt (by decide) (by decide) n
    · cases k.profileType <;> decide
    · cases k.precision <;> decide
  unfold acceptedRecord recordLine
  rw [pieces_intercalate hfields (notMem_printInt (by decide) (by decide) _) printInt_ne_nil]
  exact recordOf_eq_some.mpr ⟨_, _, _, _, _, _, _, _, rfl, parse_profileTypeName _, parse_precisionTypeName _,
    configOf_eq_some.mpr ⟨stoi_printInt hc.blocksz, stoi_printInt hc.blocksPerSm, stoi_printInt hc.diagsPerThread,
      stoi_printInt hc.unrolledRows, stoi_printInt hc.outerUnrolledRows, stoi_printInt hc.kernelTileIters⟩⟩

theorem newline_notMem_recordLine (hkey : Printable k.deviceKey) : '\n' ∉ recordLine k c := by
  have hfields : ∀ field ∈ recordFields k c, '\n' ∉ field := by
    refine notMem_fields hkey.noNewline ?_ ?_ fun n => notMem_printInt (by decide) (by decide) n
    · cases k.profileType <;> decide
    · cases k.precision <;> decide
  unfold recordLine
  simp only [List.mem_append, List.mem_flatMap, List.mem_singleton, not_or, not_exists, not_and]
  exact ⟨fun field hfield => ⟨hfields field hfield, by decide⟩, notMem_printInt (by decide) (by decide) _⟩

/-- A record's line is skipped when its key starts with `#`. -/
theorem isSkipped_recordLine : isSkipped (recordLine k c) = decide (LooksLikeComment k.deviceKey) := by
  obtain ⟨deviceKey, profileType, precision⟩ := k
  cases deviceKey with
  | nil => rfl
  | cons d tail =>
      simp [isSkipped, recordLine, recordFields, LooksLikeComment, Bool.beq_eq_decide_eq]

/-! ## The file of a cache -/

/-- A list of the keys of a map, each once: an order in which it can be iterated. -/
structure Enumerates (order : List Key) (entries : Entries) : Prop where
  nodup : order.Nodup
  mem_iff : ∀ k, k ∈ order ↔ entries k ≠ none

/-- The entries of a map whose records are not taken for comments. -/
def keptEntries (entries : Entries) : Entries := fun k => if LooksLikeComment k.deviceKey then none else entries k

/-- Each record of a map is the last one of its key. -/
theorem lastRecord_filterMap (order : List Key) (entries : Entries) (k : Key) :
    lastRecord (order.filterMap fun k => (entries k).map (Prod.mk k)) k = if k ∈ order then entries k else none := by
  induction order with
  | nil => rfl
  | cons k' order ih =>
      cases hk : entries k' with
      | none =>
          rw [List.filterMap_cons_none (by rw [hk]; rfl), ih]
          by_cases heq : k = k'
          · subst heq
            simp [hk]
          · simp [heq]
      | some c =>
          rw [List.filterMap_cons_some (by rw [hk]; rfl), lastRecord_cons, ih]
          by_cases heq : k' = k
          · subst heq
            by_cases hmem : k' ∈ order <;> simp [hmem, hk]
          · have hne : k ≠ k' := fun h => heq h.symm
            simp [heq, hne]

variable {entries : Entries} {order : List Key}

theorem newline_notMem_headerLines : ∀ line ∈ headerLines, '\n' ∉ line := by decide +kernel

theorem content_headerLines : (headerLines.filter fun line => !isSkipped line) = [kHeader] := by decide +kernel

/-- **The lines with content** of the file: the header, and the records that do not look like comments. -/
theorem contentLines_fileText (hprintable : ∀ k, entries k ≠ none → Printable k.deviceKey) :
    contentLines (fileText order entries) =
      kHeader :: order.filterMap fun k => (keptEntries entries k).map (recordLine k) := by
  have hlines : ∀ line ∈ fileLines order entries, '\n' ∉ line := by
    intro line hline
    rcases List.mem_append.mp hline with hhead | hrecord
    · exact newline_notMem_headerLines line hhead
    · obtain ⟨k, -, hk⟩ := List.mem_filterMap.mp hrecord
      obtain ⟨c, hc, rfl⟩ := Option.map_eq_some_iff.mp hk
      exact newline_notMem_recordLine (hprintable k (by rw [hc]; exact Option.some_ne_none c))
  unfold contentLines fileText
  rw [pieces_flatMap hlines]
  unfold fileLines
  rw [List.filter_append, content_headerLines, List.filter_filterMap, List.singleton_append]
  congr 1
  refine List.filterMap_congr fun k _ => ?_
  unfold keptEntries
  cases hk : entries k with
  | none => simp
  | some c =>
      rw [Option.map_some, Option.filter_some, isSkipped_recordLine]
      by_cases hcomment : LooksLikeComment k.deviceKey <;> simp [hcomment]

/-- **The file of a map** is read as its entries, but for those whose keys look like comments. -/
theorem parseStream_fileText {label : String} (horder : Enumerates order entries)
    (hprintable : ∀ k, entries k ≠ none → Printable k.deviceKey) (hrange : ∀ k c, entries k = some c → c.InRange) :
    parseStream label (fileText order entries) (fun _ => none) = (keptEntries entries, .ok ()) := by
  have hkept : ∀ k c, keptEntries entries k = some c → acceptedRecord (recordLine k c) = some (k, c) := by
    intro k c hc
    unfold keptEntries at hc
    split_ifs at hc
    exact acceptedRecord_recordLine (hprintable k (by rw [hc]; exact Option.some_ne_none c)) (hrange k c hc)
  have haccepted : ∀ line ∈ order.filterMap fun k => (keptEntries entries k).map (recordLine k),
      (acceptedRecord line).isSome := by
    intro line hline
    obtain ⟨k, -, hk⟩ := List.mem_filterMap.mp hline
    obtain ⟨c, hc, rfl⟩ := Option.map_eq_some_iff.mp hk
    rw [hkept k c hc]
    rfl
  obtain ⟨hentries, hok⟩ := parseStream_header label (contentLines_fileText hprintable)
  refine Prod.ext (hentries.trans ?_) (hok.mpr haccepted)
  rw [storeRecords_eq, recordsBefore_all haccepted, List.filterMap_filterMap]
  funext k
  have hrecords : (order.filterMap fun k => ((keptEntries entries k).map (recordLine k)).bind acceptedRecord) =
      order.filterMap fun k => (keptEntries entries k).map (Prod.mk k) := by
    refine List.filterMap_congr fun k _ => ?_
    cases hk : keptEntries entries k with
    | none => rfl
    | some c => exact hkept k c hk
  rw [hrecords, lastRecord_filterMap]
  unfold keptEntries
  by_cases hmem : k ∈ order
  · simp [hmem]
  · have hnone : entries k = none := by
      by_contra hne
      exact hmem ((horder.mem_iff k).mpr hne)
    simp [hmem, hnone]

/-! ## Saving and loading -/

/-- A saved file is there to be loaded. -/
theorem save_ok {cache : AutotuneCache} {env : SaveEnv} {disk : Disk} (h : (cache.save order env disk).2 = .ok ()) :
    (cache.save order env disk).1 cache.path = some (fileText order cache.entries) := by
  unfold AutotuneCache.save at h ⊢
  dsimp only at h ⊢
  cases hcreate : (if env.parent = "" then none else env.createError) with
  | some message =>
      rw [hcreate] at h
      cases h
  | none =>
      rw [hcreate] at h
      dsimp only at h ⊢
      cases hopen : env.openFails with
      | true =>
          rw [hopen] at h
          cases h
      | false =>
          rw [hopen] at h
          cases hwrite : env.partialWrite with
          | some written =>
              rw [hwrite] at h
              cases h
          | none =>
              rw [hwrite] at h
              cases hrename : env.renameError with
              | some message =>
                  rw [hrename] at h
                  cases h
              | none => exact Function.update_self ..

/-- **A saved cache** is loaded without the records that look like comments. -/
theorem load_save {cache : AutotuneCache} {order : List Key} {env : SaveEnv} {disk : Disk}
    (horder : Enumerates order cache.entries) (hprintable : ∀ k, cache.entries k ≠ none → Printable k.deviceKey)
    (hrange : ∀ k c, cache.entries k = some c → c.InRange) (hsaved : (cache.save order env disk).2 = .ok ()) :
    (AutotuneCache.new cache.path).load (cache.save order env disk).1 =
      (⟨cache.path, keptEntries cache.entries⟩, .ok ()) := by
  have hdisk : (cache.save order env disk).1 (AutotuneCache.new cache.path).path =
      some (fileText order cache.entries) := save_ok hsaved
  unfold AutotuneCache.load
  rw [hdisk]
  dsimp only [AutotuneCache.new]
  rw [parseStream_fileText horder hprintable hrange]

/-- Keys of devices can be written. -/
theorem printable_of_keys {entries : Entries}
    (hkeys : ∀ k, entries k ≠ none → ∃ props : GpuDeviceProps, k.deviceKey = props.cacheKey) :
    ∀ k, entries k ≠ none → Printable k.deviceKey := by
  intro k hk
  obtain ⟨props, hprops⟩ := hkeys k hk
  rw [hprops]
  exact printable_cacheKey props

/-- **A saved cache is loaded again** exactly when no device's key starts with `#`. -/
theorem load_save_iff (cache : AutotuneCache) (order : List Key) (env : SaveEnv) (disk : Disk)
    (horder : Enumerates order cache.entries)
    (hkeys : ∀ k, cache.entries k ≠ none → ∃ props : GpuDeviceProps, k.deviceKey = props.cacheKey)
    (hrange : ∀ k c, cache.entries k = some c → c.InRange) (hsaved : (cache.save order env disk).2 = .ok ()) :
    (AutotuneCache.new cache.path).load (cache.save order env disk).1 = (cache, .ok ()) ↔
      ∀ k, cache.entries k ≠ none → ¬LooksLikeComment k.deviceKey := by
  rw [load_save horder (printable_of_keys hkeys) hrange hsaved]
  constructor
  · intro heq k hk hcomment
    have hentries : keptEntries cache.entries = cache.entries := congrArg (fun r => r.1.entries) heq
    have hlost : keptEntries cache.entries k = none := if_pos hcomment
    rw [hentries] at hlost
    exact hk hlost
  · intro hnone
    have hentries : keptEntries cache.entries = cache.entries := by
      funext k
      unfold keptEntries
      split_ifs with hcomment
      · by_contra hne
        exact hnone k (fun h => hne h.symm) hcomment
      · rfl
    rw [hentries]

/-- The cache of one record, of a device with the given name. -/
def oneRecord (name : List Char) : AutotuneCache :=
  (AutotuneCache.new "cache.txt").store (GpuDeviceProps.cacheKey ⟨name, 8, 6⟩) .oneNN .single ⟨128, 8, 4, 0, 8, 16⟩

/-- The order of its only key. -/
def oneRecordOrder (name : List Char) : List Key := [⟨GpuDeviceProps.cacheKey ⟨name, 8, 6⟩, .oneNN, .single⟩]

/-- No call of the file system fails. -/
def noFailure : SaveEnv := ⟨"", none, false, none, none⟩

theorem oneRecord_entries (name : List Char) (k : Key) : (oneRecord name).entries k =
    if k = ⟨GpuDeviceProps.cacheKey ⟨name, 8, 6⟩, .oneNN, .single⟩ then some ⟨128, 8, 4, 0, 8, 16⟩ else none := by
  exact Function.update_apply _ _ _ _

theorem enumerates_oneRecord (name : List Char) : Enumerates (oneRecordOrder name) (oneRecord name).entries := by
  refine ⟨List.nodup_singleton _, fun k => ?_⟩
  rw [oneRecord_entries]
  unfold oneRecordOrder
  split_ifs with h <;> simp [h]

theorem keys_oneRecord (name : List Char) (k : Key) (hk : (oneRecord name).entries k ≠ none) :
    k.deviceKey = GpuDeviceProps.cacheKey ⟨name, 8, 6⟩ := by
  rw [oneRecord_entries] at hk
  split_ifs at hk with h
  · rw [h]
  · exact absurd rfl hk

theorem inRange_oneRecord (name : List Char) (k : Key) (c : KernelConfig)
    (hc : (oneRecord name).entries k = some c) : c.InRange := by
  rw [oneRecord_entries] at hc
  split_ifs at hc
  cases hc
  constructor <;> decide

/-- The record of a device named `A` is loaded again. -/
theorem load_save_A : (AutotuneCache.new "cache.txt").load
    ((oneRecord ['A']).save (oneRecordOrder ['A']) noFailure fun _ => none).1 = (oneRecord ['A'], .ok ()) := by
  refine (load_save_iff (oneRecord ['A']) (oneRecordOrder ['A']) noFailure (fun _ => none) (enumerates_oneRecord _)
    (fun k hk => ⟨_, keys_oneRecord _ k hk⟩) (inRange_oneRecord _) rfl).mpr fun k hk hcomment => ?_
  rw [keys_oneRecord _ k hk, looksLikeComment_cacheKey] at hcomment
  exact absurd hcomment (by decide)

/-- The record of a device whose name starts with `#` is lost. -/
theorem load_save_hash : ¬∀ (cache : AutotuneCache) (order : List Key) (env : SaveEnv) (disk : Disk),
    Enumerates order cache.entries →
    (∀ k, cache.entries k ≠ none → ∃ props : GpuDeviceProps, k.deviceKey = props.cacheKey) →
    (∀ k c, cache.entries k = some c → c.InRange) → (cache.save order env disk).2 = .ok () →
    (AutotuneCache.new cache.path).load (cache.save order env disk).1 = (cache, .ok ()) := by
  intro hall
  have hloaded := hall (oneRecord ['#']) (oneRecordOrder ['#']) noFailure (fun _ => none) (enumerates_oneRecord _)
    (fun k hk => ⟨_, keys_oneRecord _ k hk⟩) (inRange_oneRecord _) rfl
  rw [load_save (enumerates_oneRecord _) (printable_of_keys fun k hk => ⟨_, keys_oneRecord _ k hk⟩)
    (inRange_oneRecord _) rfl] at hloaded
  have hentries := congrFun (congrArg (fun r => r.1.entries) hloaded)
    ⟨GpuDeviceProps.cacheKey ⟨['#'], 8, 6⟩, .oneNN, .single⟩
  have hlost : LooksLikeComment (GpuDeviceProps.cacheKey ⟨['#'], 8, 6⟩) :=
    (looksLikeComment_cacheKey _).mpr rfl
  dsimp only at hentries
  rw [oneRecord_entries, if_pos rfl] at hentries
  unfold keptEntries at hentries
  rw [if_pos hlost] at hentries
  cases hentries

end Scamp.Autotune
