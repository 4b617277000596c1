import Scamp.Gpu.AutotuneCache

/-!
# `Gpu.Correctness.AutotuneFormat` — which cache files are read, and as what

`ParseStream` sees the lines of a text that are neither blank nor comments (`contentLines`). Behind the header
it stores the record of each line up to the first line it throws on (`parseStream_eq`). A line has a record
when `SplitN`, the names and `std::stoi` accept its fields (`acceptedRecord`); the format says what a line must
be (`wellFormedRecord`). Both agree but for the lines that are read laxly (`LaxRecord`), so that exactly a file
made of accepted lines, one of them lax, is read although it is malformed (`loadFromString_iff`).
-/

namespace Scamp.Autotune

open Lib

/-! ## Lines with content -/

/-- The lines that are neither blank nor comments. -/
def contentLines (text : List Char) : List (List Char) := (pieces '\n' text).filter fun line => !isSkipped line

/-! ## Records -/

/-- The configuration in six fields whose integers are read by `int`. -/
def configOf (int : List Char → Option ℤ) (f3 f4 f5 f6 f7 f8 : List Char) : Option KernelConfig := do
  let blocksz ← int f3
  let blocksPerSm ← int f4
  let diagsPerThread ← int f5
  let unrolledRows ← int f6
  let outerUnrolledRows ← int f7
  let kernelTileIters ← int f8
  return ⟨blocksz, blocksPerSm, diagsPerThread, unrolledRows, outerUnrolledRows, kernelTileIters⟩

/-- The record in the fields of a line. -/
def recordOf (int : List Char → Option ℤ) : List (List Char) → Option (Key × KernelConfig)
  | [f0, f1, f2, f3, f4, f5, f6, f7, f8] => do
      let profileType ← parseProfileTypeName f1
      let precision ← parsePrecisionTypeName f2
      let cfg ← configOf int f3 f4 f5 f6 f7 f8
      return (⟨f0, profileType, precision⟩, cfg)
  | _ => none

/-- The record of a line that `SplitN`, the names and `std::stoi` accept. -/
def acceptedRecord (line : List Char) : Option (Key × KernelConfig) := recordOf stoi (pieces kFieldSep line)

/-- The integer of a field that is a complete decimal integer in the range of `int`. -/
def completeInt (field : List Char) : Option ℤ :=
  match readInt field with
  | some n => if IntRange n then some n else none
  | none => none

/-- The record of a line of exactly nine fields between separators, with complete integers. -/
def wellFormedRecord (line : List Char) : Option (Key × KernelConfig) :=
  recordOf completeInt (line.splitOn kFieldSep)

variable {int int' : List Char → Option ℤ} {fields : List (List Char)} {line : List Char} {r : Key × KernelConfig}

theorem configOf_eq_some {f3 f4 f5 f6 f7 f8 : List Char} {c : KernelConfig} :
    configOf int f3 f4 f5 f6 f7 f8 = some c ↔
      int f3 = some c.blocksz ∧ int f4 = some c.blocksPerSm ∧ int f5 = some c.diagsPerThread ∧
        int f6 = some c.unrolledRows ∧ int f7 = some c.outerUnrolledRows ∧ int f8 = some c.kernelTileIters := by
  unfold configOf
  simp only [Option.bind_eq_bind, Option.bind_eq_some_iff, Option.pure_def, Option.some.injEq]
  constructor
  · rintro ⟨_, h3, _, h4, _, h5, _, h6, _, h7, _, h8, rfl⟩
    exact ⟨h3, h4, h5, h6, h7, h8⟩
  · rintro ⟨h3, h4, h5, h6, h7, h8⟩
    exact ⟨_, h3, _, h4, _, h5, _, h6, _, h7, _, h8, rfl⟩

/-- **The fields of a record.** -/
theorem recordOf_eq_some : recordOf int fields = some r ↔
    ∃ f1 f2 f3 f4 f5 f6 f7 f8, fields = [r.1.deviceKey, f1, f2, f3, f4, f5, f6, f7, f8] ∧
      parseProfileTypeName f1 = some r.1.profileType ∧ parsePrecisionTypeName f2 = some r.1.precision ∧
      configOf int f3 f4 f5 f6 f7 f8 = some r.2 := by
  constructor
  · intro h
    unfold recordOf at h
    split at h
    · simp only [Option.bind_eq_bind, Option.bind_eq_some_iff, Option.pure_def, Option.some.injEq] at h
      obtain ⟨_, h1, _, h2, _, hc, rfl⟩ := h
      exact ⟨_, _, _, _, _, _, _, _, rfl, h1, h2, hc⟩
    · cases h
  · rintro ⟨f1, f2, f3, f4, f5, f6, f7, f8, rfl, h1, h2, hc⟩
    simp [recordOf, h1, h2, hc]

theorem length_of_recordOf (h : recordOf int fields = some r) : fields.length = 9 := by
  obtain ⟨_, _, _, _, _, _, _, _, rfl, -⟩ := recordOf_eq_some.mp h
  rfl

/-- A record has integers in its last six fields. -/
theorem isSome_of_recordOf (h : recordOf int fields = some r) : ∀ field ∈ fields.drop 3, (int field).isSome := by
  obtain ⟨f1, f2, f3, f4, f5, f6, f7, f8, rfl, -, -, hc⟩ := recordOf_eq_some.mp h
  obtain ⟨h3, h4, h5, h6, h7, h8⟩ := configOf_eq_some.mp hc
  simp [h3, h4, h5, h6, h7, h8]

/-- Another way to read integers finds the same record where it reads the same integers. -/
theorem recordOf_congr (h : recordOf int fields = some r)
    (hint : ∀ field ∈ fields.drop 3, ∀ n, int field = some n → int' field = some n) :
    recordOf int' fields = some r := by
  obtain ⟨f1, f2, f3, f4, f5, f6, f7, f8, rfl, h1, h2, hc⟩ := recordOf_eq_some.mp h
  obtain ⟨h3, h4, h5, h6, h7, h8⟩ := configOf_eq_some.mp hc
  simp only [List.drop_succ_cons, List.drop_zero, List.mem_cons, List.not_mem_nil, or_false, forall_eq_or_imp,
    forall_eq] at hint
  obtain ⟨g3, g4, g5, g6, g7, g8⟩ := hint
  exact recordOf_eq_some.mpr ⟨f1, f2, f3, f4, f5, f6, f7, f8, rfl, h1, h2, configOf_eq_some.mpr
    ⟨g3 _ h3, g4 _ h4, g5 _ h5, g6 _ h6, g7 _ h7, g8 _ h8⟩⟩

/-! ## Complete integers -/

theorem dropWhile_of_readInt {field : List Char} {n : ℤ} (h : readInt field = some n) :
    field.dropWhile isSpace = field := by
  obtain ⟨c, tail, rfl, hc⟩ := head_of_readInt h
  have hspace : ¬isSpace c = true := by
    rcases hc with rfl | rfl | hdigit
    · decide
    · decide
    · intro hs
      have h0 : 48 ≤ c.toNat ∧ c.toNat ≤ 57 := by
        simp only [Char.isDigit, Bool.and_eq_true, decide_eq_true_eq] at hdigit
        exact ⟨UInt32.le_iff_toNat_le.mp hdigit.1, UInt32.le_iff_toNat_le.mp hdigit.2⟩
      simp only [isSpace, Bool.or_eq_true, beq_iff_eq, Bool.and_eq_true, decide_eq_true_eq] at hs
      rcases hs with rfl | hs
      · exact absurd h0 (by decide)
      · omega
  exact List.dropWhile_cons_of_neg hspace

/-- `std::stoi` reads a complete integer. -/
theorem stoi_of_complete {field : List Char} {n : ℤ} (h : completeInt field = some n) : stoi field = some n := by
  unfold completeInt at h
  split at h
  · next k hk =>
      split_ifs at h with hrange
      cases h
      unfold stoi
      rw [(readInt_eq_some_iff (dropWhile_of_readInt hk)).mp hk]
      exact if_pos hrange
  · cases h

/-- On a field with a complete integer nothing else is read. -/
theorem complete_of_stoi {field : List Char} {n : ℤ} (h : stoi field = some n)
    (hcomplete : (completeInt field).isSome) : completeInt field = some n := by
  obtain ⟨k, hk⟩ := Option.isSome_iff_exists.mp hcomplete
  rw [stoi_of_complete hk] at h
  rw [hk, h]

/-! ## Well-formed and accepted lines -/

/-- A line that is read although the format forbids it, if it is read at all: a separator at its end, or an
    integer field with something in front of or behind the integer. -/
def LaxRecord (line : List Char) : Prop :=
  line.getLast? = some kFieldSep ∨ ∃ field ∈ (pieces kFieldSep line).drop 3, completeInt field = none

instance (line : List Char) : Decidable (LaxRecord line) := inferInstanceAs (Decidable (_ ∨ ∃ _ ∈ _, _))

/-- **What the format allows is accepted.** -/
theorem accepted_of_wellFormed (h : wellFormedRecord line = some r) : acceptedRecord line = some r := by
  have hne : line ≠ [] := by
    rintro rfl
    exact absurd (length_of_recordOf h) (by decide)
  have hlast : line.getLast? ≠ some kFieldSep := by
    intro hlast
    -- the last field would be empty
    have hempty := (getLast?_splitOn kFieldSep line).mpr (Or.inr hlast)
    obtain ⟨f1, f2, f3, f4, f5, f6, f7, f8, hfields, -, -, hc⟩ := recordOf_eq_some.mp h
    rw [hfields] at hempty
    obtain rfl : f8 = [] := by simpa using hempty
    exact absurd (configOf_eq_some.mp hc).2.2.2.2.2 (by simp [completeInt, readInt, splitSign])
  unfold acceptedRecord
  rw [pieces_eq_splitOn hne hlast]
  exact recordOf_congr h fun _ _ _ hn => stoi_of_complete hn

/-- **An accepted line is well formed** exactly when it is not lax. -/
theorem wellFormed_iff (h : acceptedRecord line = some r) :
    (wellFormedRecord line).isSome ↔ ¬LaxRecord line := by
  have hne : line ≠ [] := by
    rintro rfl
    exact absurd (length_of_recordOf h) (by decide)
  constructor
  · intro hwell
    obtain ⟨r', hr'⟩ := Option.isSome_iff_exists.mp hwell
    have hlast : line.getLast? ≠ some kFieldSep := by
      intro hlast
      have hsplit := length_of_recordOf hr'
      rw [length_splitOn_of_delim hlast, length_of_recordOf h] at hsplit
      omega
    have hall := isSome_of_recordOf hr'
    rw [← pieces_eq_splitOn hne hlast] at hall
    rintro (hdelim | ⟨field, hfield, hnone⟩)
    · exact hlast hdelim
    · have hsome := hall field hfield
      rw [hnone] at hsome
      exact Bool.noConfusion hsome
  · intro hlax
    have hlast : line.getLast? ≠ some kFieldSep := fun hlast => hlax (Or.inl hlast)
    unfold wellFormedRecord
    rw [← pieces_eq_splitOn hne hlast, recordOf_congr h fun field hfield n hn => complete_of_stoi hn ?_]
    · rfl
    · rw [Option.isSome_iff_ne_none]
      exact fun hnone => hlax (Or.inr ⟨field, hfield, hnone⟩)

/-! ## The loop over the lines -/

/-- The entries once the records of these lines are stored, up to the first line without one. -/
def storeRecords : List (List Char) → Entries → Entries
  | [], entries => entries
  | line :: rest, entries =>
      match acceptedRecord line with
      | some r => storeRecords rest (Function.update entries r.1 (some r.2))
      | none => entries

variable {label : String} {lineno : ℕ} {entries : Entries} {lines rest : List (List Char)}

/-- **A record line** is read as `acceptedRecord` says, or throws. -/
theorem parseRecord_some (h : acceptedRecord line = some r) : parseRecord label lineno line = .ok r := by
  obtain ⟨f1, f2, f3, f4, f5, f6, f7, f8, hfields, h1, h2, hc⟩ := recordOf_eq_some.mp h
  have hsplit : splitN line kFieldSep kNumRecordFields = some (pieces kFieldSep line) := by
    unfold splitN
    dsimp only
    rw [IStream.lines_eq_pieces]
    exact if_pos (length_of_recordOf h)
  have hcfg : parseConfig f3 f4 f5 f6 f7 f8 = some r.2 := hc
  unfold parseRecord
  rw [hsplit, hfields]
  simp only [h1, h2, hcfg]

theorem parseRecord_none (label : String) (lineno : ℕ) (h : acceptedRecord line = none) :
    ∃ message, parseRecord label lineno line = .error message := by
  unfold parseRecord
  split
  · next f0 f1 f2 f3 f4 f5 f6 f7 f8 hsplit =>
      have hfields : pieces kFieldSep line = [f0, f1, f2, f3, f4, f5, f6, f7, f8] := by
        unfold splitN at hsplit
        dsimp only at hsplit
        rw [IStream.lines_eq_pieces] at hsplit
        split_ifs at hsplit
        exact Option.some.inj hsplit
      split
      · exact ⟨_, rfl⟩
      · next t h1 =>
          split
          · exact ⟨_, rfl⟩
          · next p h2 =>
              split
              · exact ⟨_, rfl⟩
              · next c hc =>
                  -- such a line has a record
                  have hrecord : acceptedRecord line = some (⟨f0, t, p⟩, c) :=
                    recordOf_eq_some.mpr ⟨f1, f2, f3, f4, f5, f6, f7, f8, hfields, h1, h2, hc⟩
                  rw [h] at hrecord
                  cases hrecord
  · exact ⟨_, rfl⟩

/-- **Behind the header** the lines with content are stored one by one, up to one that throws. -/
theorem parseLines_records (lines : List (List Char)) : ∀ (lineno : ℕ) (entries : Entries),
    (parseLines label lines lineno true entries).1 =
        storeRecords (lines.filter fun line => !isSkipped line) entries ∧
      ((parseLines label lines lineno true entries).2 = .ok () ↔
        ∀ line ∈ lines.filter fun line => !isSkipped line, (acceptedRecord line).isSome) := by
  induction lines with
  | nil => exact fun _ _ => ⟨rfl, fun _ _ h => absurd h List.not_mem_nil, fun _ => rfl⟩
  | cons line lines ih =>
      intro lineno entries
      unfold parseLines
      dsimp only
      cases hskip : isSkipped line with
      | true =>
          rw [if_pos rfl, List.filter_cons_of_neg (by simp [hskip])]
          exact ih _ _
      | false =>
          rw [if_neg Bool.false_ne_true, if_neg (by decide), List.filter_cons_of_pos (by simp [hskip])]
          unfold storeRecords
          cases hrecord : acceptedRecord line with
          | none =>
              obtain ⟨message, hmessage⟩ := parseRecord_none label (lineno + 1) hrecord
              rw [hmessage]
              simp [hrecord]
          | some r =>
              rw [parseRecord_some hrecord]
              simpa [hrecord] using ih (lineno + 1) (Function.update entries r.1 (some r.2))

/-- Up to the header only blank lines and comments are passed. -/
theorem parseLines_header {rest : List (List Char)} (lines : List (List Char)) : ∀ (lineno : ℕ) (entries : Entries),
    (lines.filter fun line => !isSkipped line) = kHeader :: rest →
    (parseLines label lines lineno false entries).1 = storeRecords rest entries ∧
      ((parseLines label lines lineno false entries).2 = .ok () ↔ ∀ line ∈ rest, (acceptedRecord line).isSome) := by
  induction lines with
  | nil => exact fun _ _ h => by cases h
  | cons line lines ih =>
      intro lineno entries h
      unfold parseLines
      dsimp only
      cases hskip : isSkipped line with
      | true =>
          rw [List.filter_cons_of_neg (by simp [hskip])] at h
          rw [if_pos rfl]
          exact ih _ _ h
      | false =>
          rw [List.filter_cons_of_pos (by simp [hskip])] at h
          obtain ⟨rfl, rfl⟩ := List.cons.inj h
          rw [if_neg Bool.false_ne_true, if_pos (Bool.not_false), if_neg (not_not_intro rfl)]
          exact parseLines_records _ _ _

/-- Without the header in front there are no entries. -/
theorem parseLines_noHeader (lines : List (List Char)) : ∀ (lineno : ℕ),
    (lines.filter fun line => !isSkipped line).head? ≠ some kHeader →
    parseLines label lines lineno false (fun _ => none) = (fun _ => none, .ok ()) := by
  induction lines with
  | nil => exact fun _ _ => rfl
  | cons line lines ih =>
      intro lineno h
      unfold parseLines
      dsimp only
      cases hskip : isSkipped line with
      | true =>
          rw [List.filter_cons_of_neg (by simp [hskip])] at h
          rw [if_pos rfl]
          exact ih _ h
      | false =>
          rw [List.filter_cons_of_pos (by simp [hskip]), List.head?_cons] at h
          rw [if_neg Bool.false_ne_true, if_pos (Bool.not_false), if_pos (fun heq => h (congrArg some heq))]

/-! ## `ParseStream` -/

variable {text : List Char}

theorem parseStream_header (label : String) (h : contentLines text = kHeader :: rest) :
    (parseStream label text fun _ => none).1 = storeRecords rest (fun _ => none) ∧
      ((parseStream label text fun _ => none).2 = .ok () ↔ ∀ line ∈ rest, (acceptedRecord line).isSome) := by
  unfold parseStream
  rw [IStream.lines_eq_pieces]
  exact parseLines_header _ _ _ h

theorem parseStream_noHeader (label : String) (h : (contentLines text).head? ≠ some kHeader) :
    parseStream label text (fun _ => none) = (fun _ => none, .ok ()) := by
  unfold parseStream
  rw [IStream.lines_eq_pieces]
  exact parseLines_noHeader _ _ h

/-! ## Stored records -/

/-- The last record of a key. -/
def lastRecord (records : List (Key × KernelConfig)) (k : Key) : Option KernelConfig :=
  (records.reverse.find? fun r => r.1 = k).map Prod.snd

theorem lastRecord_cons (r : Key × KernelConfig) (records : List (Key × KernelConfig)) (k : Key) :
    lastRecord (r :: records) k = (lastRecord records k).or (if r.1 = k then some r.2 else none) := by
  unfold lastRecord
  rw [List.reverse_cons, List.find?_append, Option.map_or, List.find?_singleton]
  split_ifs <;> simp_all

/-- The records in front of the first line without one. -/
def recordsBefore (lines : List (List Char)) : List (Key × KernelConfig) :=
  (lines.takeWhile fun line => (acceptedRecord line).isSome).filterMap acceptedRecord

/-- **What is stored**: the records in front of the first line without one, the last one of each key on top. -/
theorem storeRecords_eq (lines : List (List Char)) : ∀ entries : Entries,
    storeRecords lines entries = fun k => (lastRecord (recordsBefore lines) k).or (entries k) := by
  induction lines with
  | nil => exact fun _ => rfl
  | cons line lines ih =>
      intro entries
      unfold storeRecords
      cases hr : acceptedRecord line with
      | none =>
          have hstop : recordsBefore (line :: lines) = [] := by simp [recordsBefore, hr]
          rw [hstop]
          rfl
      | some r =>
          have hfirst : recordsBefore (line :: lines) = r :: recordsBefore lines := by simp [recordsBefore, hr]
          rw [hfirst]
          dsimp only
          rw [ih]
          funext k
          rw [lastRecord_cons, Option.or_assoc]
          congr 1
          by_cases heq : k = r.1
          · subst heq
            rw [Function.update_self, if_pos rfl]
            rfl
          · rw [Function.update_of_ne heq, if_neg fun h => heq h.symm, Option.none_or]

/-- When every line has a record, all of them are stored. -/
theorem recordsBefore_all (h : ∀ line ∈ lines, (acceptedRecord line).isSome) :
    recordsBefore lines = lines.filterMap acceptedRecord := by
  unfold recordsBefore
  rw [List.takeWhile_eq_self_iff.mpr h]

/-! ## The format -/

/-- What a text should be loaded as: nothing if its first line with content is not the header, the last record
    of each key if every later line is well formed, and an exception otherwise. -/
def LoadsAsFormat (cache : AutotuneCache) (text : List Char) : Prop :=
  let loaded := cache.loadFromString text
  ((contentLines text).head? ≠ some kHeader → loaded.1.entries = (fun _ => none) ∧ loaded.2 = .ok ()) ∧
    ∀ rest, contentLines text = kHeader :: rest →
      ((∀ line ∈ rest, (wellFormedRecord line).isSome) →
          loaded.2 = .ok () ∧ loaded.1.entries = lastRecord (rest.filterMap wellFormedRecord)) ∧
        ((∃ line ∈ rest, wellFormedRecord line = none) → ∃ message, loaded.2 = .error message)

/-- Well-formed lines have the records they are read as. -/
theorem filterMap_wellFormed (h : ∀ line ∈ rest, (wellFormedRecord line).isSome) :
    rest.filterMap acceptedRecord = rest.filterMap wellFormedRecord := by
  refine List.filterMap_congr fun line hline => ?_
  obtain ⟨r, hr⟩ := Option.isSome_iff_exists.mp (h line hline)
  rw [hr, accepted_of_wellFormed hr]

/-- **A text is loaded as the format says** exactly when no line behind the header is read laxly, or some line
    there is not read at all. -/
theorem loadFromString_iff (cache : AutotuneCache) (text : List Char) :
    LoadsAsFormat cache text ↔
      ∀ rest, contentLines text = kHeader :: rest →
        (∃ line ∈ rest, acceptedRecord line = none) ∨ ∀ line ∈ rest, ¬LaxRecord line := by
  constructor
  · rintro ⟨-, hformat⟩ rest hrest
    by_contra hcon
    simp only [not_or, not_exists, not_and, not_forall, not_not] at hcon
    obtain ⟨haccepted, line, hline, hlax⟩ := hcon
    -- a lax line is malformed, but nothing throws
    obtain ⟨r, hr⟩ := Option.ne_none_iff_exists'.mp (haccepted line hline)
    have hmalformed : wellFormedRecord line = none := by
      rw [← Option.not_isSome_iff_eq_none, wellFormed_iff hr]
      exact fun h => h hlax
    obtain ⟨message, hmessage⟩ := (hformat rest hrest).2 ⟨line, hline, hmalformed⟩
    have hok := (parseStream_header "<builtin>" hrest).2.mpr fun l hl =>
      Option.isSome_iff_ne_none.mpr (haccepted l hl)
    cases hok.symm.trans hmessage
  · intro hcond
    refine ⟨fun hhead => ?_, fun rest hrest => ⟨fun hwell => ?_, ?_⟩⟩
    · have hnone := parseStream_noHeader "<builtin>" hhead
      exact ⟨congrArg Prod.fst hnone, congrArg Prod.snd hnone⟩
    · have haccepted : ∀ line ∈ rest, (acceptedRecord line).isSome := by
        intro line hline
        obtain ⟨r, hr⟩ := Option.isSome_iff_exists.mp (hwell line hline)
        rw [accepted_of_wellFormed hr]
        rfl
      obtain ⟨hentries, hok⟩ := parseStream_header "<builtin>" hrest
      refine ⟨hok.mpr haccepted, hentries.trans ?_⟩
      rw [storeRecords_eq, recordsBefore_all haccepted, filterMap_wellFormed hwell]
      funext k
      exact Option.or_none
    · rintro ⟨line, hline, hmalformed⟩
      have hnotRead : ∃ l ∈ rest, acceptedRecord l = none := by
        rcases hcond rest hrest with hbad | hstrict
        · exact hbad
        · refine ⟨line, hline, ?_⟩
          by_contra hread
          obtain ⟨r, hr⟩ := Option.ne_none_iff_exists'.mp hread
          have hwell := (wellFormed_iff hr).mpr (hstrict line hline)
          rw [hmalformed] at hwell
          exact Bool.noConfusion hwell
      obtain ⟨l, hl, hnone⟩ := hnotRead
      have hok := (parseStream_header "<builtin>" hrest).2
      cases hresult : (parseStream "<builtin>" text fun _ => none).2 with
      | error message => exact ⟨message, hresult⟩
      | ok u =>
          have hsome := hok.mp hresult l hl
          rw [hnone] at hsome
          exact Bool.noConfusion hsome

/-- A file with something behind its last integer. -/
def laxText : List Char :=
  kHeader ++ '\n' ::
    ['A', '|', '1', 'N', 'N', '|', 'S', 'I', 'N', 'G', 'L', 'E', '|', '1', '2', '8', '|', '8', '|', '4', '|', '0',
      '|', '8', '|', '1', '6', 'x']

/-- It is read as if the record were complete. -/
theorem loadFromString_laxText : ¬∀ (cache : AutotuneCache) (text : List Char), LoadsAsFormat cache text := by
  intro hall
  have hcontent : contentLines laxText = kHeader :: [laxText.drop 18] := by decide
  obtain ⟨message, hmessage⟩ := ((hall (.new "") laxText).2 _ hcontent).2
    ⟨_, List.mem_singleton_self _, by decide⟩
  have hok := (parseStream_header "<builtin>" hcontent).2.mpr (by decide)
  cases hok.symm.trans hmessage

end Scamp.Autotune
