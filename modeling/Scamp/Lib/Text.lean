import Mathlib.Data.List.TakeWhile

/-!
# `Lib.Text` — reading a text as a stream

An input stream is what is left to read and two flags: the end has been met, and an extraction has failed.
The extractions here are `peek`, a word between separators, and a line up to a delimiter; each sets the flags
as a formatted or an unformatted extraction does.

A loop of extractions sees pieces of the text that are easier to say without the stream: its words are the
non-empty pieces between separators (`words_of_word`, `extractWord_word`), its lines all pieces but an empty
last one (`lines_eq_pieces`).

Nothing here depends on what is in the text.

## Contents
- **Splitting.** `words`, `pieces`.
- **Streams.** `IStream`, `peek`, `extractWord`, `getline`, `lines`.
-/

namespace Lib

variable {α : Type*}

/-! ## Splitting -/

/-- The words of a text: the non-empty pieces between separators. -/
def words (sep : α → Bool) (text : List α) : List (List α) :=
  (text.splitOnP sep).filter fun piece => !piece.isEmpty

/-- The pieces of a text that end at a delimiter or, if it is not empty, at the end of the text. -/
def pieces [DecidableEq α] (delim : α) (text : List α) : List (List α) :=
  let split := text.splitOn delim
  if split.getLast? = some [] then split.dropLast else split

section
variable {sep : α → Bool} {text : List α}

@[simp] theorem words_nil : words sep [] = [] := rfl

/-- A leading separator is not part of a word. -/
theorem words_cons_sep {c : α} (hc : sep c = true) : words sep (c :: text) = words sep text := by
  unfold words
  rw [List.splitOnP_cons_eq_if_modifyHead, if_pos hc]
  rfl

/-- The parts of a text around its first word: separators, the word, and the rest from the next separator
    on. -/
structure FirstWord (sep : α → Bool) (text pre word rest : List α) : Prop where
  text_eq : text = pre ++ (word ++ rest)
  pre_sep : ∀ c ∈ pre, sep c = true
  word_ne : word ≠ []
  word_sep : ∀ c ∈ word, sep c = false
  rest_sep : ∀ c ∈ rest.head?, sep c = true

/-- What a condition drops from a text ends where it fails. -/
theorem head_dropWhile (p : α → Bool) {text : List α} {c : α} (hc : c ∈ (text.dropWhile p).head?) : p c = false := by
  have := List.head?_dropWhile_not p text
  rw [Option.mem_def.mp hc] at this
  exact this

/-- A text has a first word, or separators only. -/
theorem firstWord_or (sep : α → Bool) (text : List α) :
    (∃ pre word rest, FirstWord sep text pre word rest) ∨ ∀ c ∈ text, sep c = true := by
  cases hstart : text.dropWhile sep with
  | nil => exact Or.inr (List.dropWhile_eq_nil_iff.mp hstart)
  | cons c tail =>
      have hc : sep c = false := head_dropWhile sep (hstart ▸ rfl : c ∈ (text.dropWhile sep).head?)
      refine Or.inl ⟨text.takeWhile sep, (c :: tail).takeWhile fun c => !sep c,
        (c :: tail).dropWhile fun c => !sep c, ?_, fun x hx => List.mem_takeWhile_imp hx, ?_, fun x hx => ?_,
        fun x hx => ?_⟩
      · rw [List.takeWhile_append_dropWhile, ← hstart, List.takeWhile_append_dropWhile]
      · rw [List.takeWhile_cons_of_pos (by rw [hc]; rfl)]
        exact List.cons_ne_nil _ _
      · simpa using List.mem_takeWhile_imp hx
      · simpa using head_dropWhile (fun c => !sep c) hx

/-- Separators are not part of a word. -/
theorem words_append_sep {pre : List α} (h : ∀ c ∈ pre, sep c = true) : words sep (pre ++ text) = words sep text := by
  induction pre with
  | nil => rfl
  | cons c pre ih =>
      rw [List.cons_append, words_cons_sep (h c List.mem_cons_self)]
      exact ih fun x hx => h x (List.mem_cons_of_mem _ hx)

theorem words_of_sep (h : ∀ c ∈ text, sep c = true) : words sep text = [] := by
  rw [← List.append_nil text, words_append_sep h, words_nil]

/-- **The first word** of a text is followed by the words of the rest. -/
theorem words_of_firstWord {pre word rest : List α} (h : FirstWord sep text pre word rest) :
    words sep text = word :: words sep rest := by
  rw [h.text_eq, words_append_sep h.pre_sep]
  have hkeep : (!word.isEmpty) = true := by
    cases word with
    | nil => exact absurd rfl h.word_ne
    | cons _ _ => rfl
  cases rest with
  | nil =>
      unfold words
      rw [List.append_nil, List.splitOnP_eq_singleton h.word_sep]
      simp [hkeep]
  | cons c rest =>
      have hc : sep c = true := h.rest_sep c rfl
      rw [words_cons_sep hc]
      unfold words
      rw [List.splitOnP_append_cons_of_forall_mem h.word_sep c hc]
      simp [hkeep]

end

section
variable [DecidableEq α] {delim : α}

@[simp] theorem pieces_nil : pieces delim [] = [] := rfl

/-- **The first piece** of a text ends at the first delimiter. -/
theorem pieces_append {line rest : List α} (h : delim ∉ line) :
    pieces delim (line ++ delim :: rest) = line :: pieces delim rest := by
  have hne := List.splitOn_ne_nil delim rest
  unfold pieces
  dsimp only
  rw [List.splitOn_append_cons_self_of_not_mem h, List.getLast?_cons_of_ne_nil hne]
  split_ifs
  · rw [List.dropLast_cons_of_ne_nil hne]
  · rfl

/-- A text without a delimiter is one piece. -/
theorem pieces_of_notMem {line : List α} (h : delim ∉ line) (hne : line ≠ []) : pieces delim line = [line] := by
  unfold pieces
  dsimp only
  rw [List.splitOn_eq_singleton h]
  simp [hne]

/-- **Lines that each end in a delimiter** are the pieces of the text they make up. -/
theorem pieces_flatMap {ls : List (List α)} (h : ∀ line ∈ ls, delim ∉ line) :
    pieces delim (ls.flatMap fun line => line ++ [delim]) = ls := by
  induction ls with
  | nil => rfl
  | cons line ls ih =>
      rw [List.flatMap_cons, List.append_assoc, List.singleton_append,
        pieces_append (h line List.mem_cons_self), ih fun l hl => h l (List.mem_cons_of_mem _ hl)]

/-- The fields of a text, between delimiters, are its pieces when the last one is not empty. -/
theorem pieces_intercalate {fields : List (List α)} {last : List α} (h : ∀ field ∈ fields, delim ∉ field)
    (hlast : delim ∉ last) (hne : last ≠ []) :
    pieces delim ((fields.flatMap fun field => field ++ [delim]) ++ last) = fields ++ [last] := by
  induction fields with
  | nil => exact pieces_of_notMem hlast hne
  | cons field fields ih =>
      rw [List.flatMap_cons, List.append_assoc, List.append_assoc, List.singleton_append,
        pieces_append (h field List.mem_cons_self), ih fun f hf => h f (List.mem_cons_of_mem _ hf)]
      rfl

/-- A text is empty, has no delimiter, or has a first piece that ends in one. -/
theorem piece_cases (delim : α) (text : List α) :
    text = [] ∨ (text ≠ [] ∧ delim ∉ text) ∨ ∃ line rest, text = line ++ delim :: rest ∧ delim ∉ line := by
  by_cases hmem : delim ∈ text
  · obtain ⟨line, rest, htext, hline⟩ := List.eq_append_cons_of_mem hmem
    exact Or.inr (Or.inr ⟨line, rest, htext, hline⟩)
  · by_cases hnil : text = []
    · exact Or.inl hnil
    · exact Or.inr (Or.inl ⟨hnil, hmem⟩)

/-- A piece has no delimiter, and only characters of the text. -/
theorem of_mem_pieces {text piece : List α} (h : piece ∈ pieces delim text) : delim ∉ piece ∧ ∀ c ∈ piece, c ∈ text := by
  induction hn : text.length using Nat.strong_induction_on generalizing text with
  | _ n ih =>
      rcases piece_cases delim text with rfl | ⟨hne, hno⟩ | ⟨line, rest, rfl, hline⟩
      · exact absurd h List.not_mem_nil
      · rw [pieces_of_notMem hno hne, List.mem_singleton] at h
        subst h
        exact ⟨hno, fun _ hc => hc⟩
      · rw [pieces_append hline, List.mem_cons] at h
        rcases h with rfl | h
        · exact ⟨hline, fun c hc => List.mem_append_left _ hc⟩
        · have hlt : rest.length < n := by
            rw [← hn, List.length_append, List.length_cons]
            omega
          obtain ⟨hdelim, hsub⟩ := ih _ hlt h rfl
          exact ⟨hdelim, fun c hc => List.mem_append_right _ (List.mem_cons_of_mem _ (hsub c hc))⟩

/-- The last part of a split is empty exactly when the text is, or ends in a delimiter. -/
theorem getLast?_splitOn (delim : α) :
    ∀ text : List α, (text.splitOn delim).getLast? = some [] ↔ text = [] ∨ text.getLast? = some delim
  | text => by
      rcases piece_cases delim text with rfl | ⟨hne, hmem⟩ | ⟨line, rest, rfl, hline⟩
      · simp
      · rw [List.splitOn_eq_singleton hmem]
        have hlast : text.getLast? ≠ some delim := fun h => hmem (List.mem_of_getLast? h)
        constructor
        · intro hnil
          exact absurd (Option.some.inj hnil) hne
        · rintro (hnil | hdelim)
          · exact absurd hnil hne
          · exact absurd hdelim hlast
      · have hshorter : rest.length < (line ++ delim :: rest).length := by
          rw [List.length_append, List.length_cons]
          omega
        rw [List.splitOn_append_cons_self_of_not_mem hline,
          List.getLast?_cons_of_ne_nil (List.splitOn_ne_nil delim rest), getLast?_splitOn delim rest]
        cases rest with
        | nil => simp
        | cons c rest => simp [List.getLast?_append, List.getLast?_cons]
termination_by text => text.length

/-- Without a delimiter at its end, a text is split into its pieces. -/
theorem pieces_eq_splitOn {text : List α} (hne : text ≠ []) (h : text.getLast? ≠ some delim) :
    pieces delim text = text.splitOn delim := by
  unfold pieces
  dsimp only
  rw [if_neg]
  rw [getLast?_splitOn]
  rintro (hnil | hlast)
  · exact hne hnil
  · exact h hlast

/-- A delimiter at the end adds an empty part. -/
theorem length_splitOn_of_delim {text : List α} (h : text.getLast? = some delim) :
    (text.splitOn delim).length = (pieces delim text).length + 1 := by
  have hpos := List.length_pos_iff.mpr (List.splitOn_ne_nil delim text)
  unfold pieces
  dsimp only
  rw [if_pos ((getLast?_splitOn delim text).mpr (Or.inr h)), List.length_dropLast]
  omega

end

/-! ## Streams -/

/-- An input stream. -/
structure IStream (α : Type*) where
  rest : List α
  eof : Bool
  fail : Bool

namespace IStream

/-- A stream over a text that has not been read yet. -/
def ofText (text : List α) : IStream α := ⟨text, false, false⟩

def good (s : IStream α) : Bool := !s.eof && !s.fail

/-- Looks at the next character. -/
def peek (s : IStream α) : Option α × IStream α :=
  if s.good then
    match s.rest with
    | [] => (none, { s with eof := true })
    | c :: _ => (some c, s)
  else (none, { s with fail := true })

/-- Skips separators and extracts a word. -/
def extractWord (sep : α → Bool) (s : IStream α) : List α × IStream α :=
  if s.good then
    let rest := s.rest.dropWhile sep
    if rest.isEmpty then ([], ⟨[], true, true⟩)
    else
      let rest' := rest.dropWhile fun c => !sep c
      (rest.takeWhile fun c => !sep c, ⟨rest', rest'.isEmpty, false⟩)
  else ([], { s with fail := true })

/-- Extracts a line, and the delimiter after it. -/
def getline [DecidableEq α] (delim : α) (s : IStream α) : List α × IStream α :=
  if s.good then
    let line := s.rest.takeWhile fun c => c != delim
    match s.rest.dropWhile fun c => c != delim with
    | [] => (line, ⟨[], true, line.isEmpty⟩)
    | _ :: rest => (line, ⟨rest, false, false⟩)
  else ([], { s with fail := true })

variable {sep : α → Bool} {s : IStream α}

/-- A good stream is the stream over what is left. -/
theorem eq_ofText (h : s.good = true) : s = ofText s.rest := by
  obtain ⟨rest, eof, fail⟩ := s
  simp only [good, Bool.and_eq_true, Bool.not_eq_true'] at h
  rw [h.1, h.2]
  rfl

@[simp] theorem good_ofText (text : List α) : (ofText text).good = true := rfl

theorem peek_cons (c : α) (text : List α) : (ofText (c :: text)).peek = (some c, ofText (c :: text)) := rfl

/-- **A word is extracted**, and the stream goes on after it, at its end if nothing follows. -/
theorem extractWord_word {text pre word rest : List α} (h : FirstWord sep text pre word rest) :
    (ofText text).extractWord sep = (word, ⟨rest, rest.isEmpty, false⟩) := by
  have hskip : text.dropWhile sep = word ++ rest := by
    rw [h.text_eq, List.dropWhile_append_of_pos h.pre_sep]
    obtain ⟨c, word, rfl⟩ := List.exists_cons_of_ne_nil h.word_ne
    exact List.dropWhile_cons_of_neg (by rw [h.word_sep c List.mem_cons_self]; exact Bool.false_ne_true)
  have hword : ∀ c ∈ word, (!sep c) = true := fun c hc => by rw [h.word_sep c hc]; rfl
  have htake : (word ++ rest).takeWhile (fun c => !sep c) = word := by
    rw [List.takeWhile_append_of_pos hword]
    cases rest with
    | nil => exact List.append_nil word
    | cons c rest =>
        rw [List.takeWhile_cons_of_neg (by rw [h.rest_sep c rfl]; exact Bool.false_ne_true), List.append_nil]
  have hdrop : (word ++ rest).dropWhile (fun c => !sep c) = rest := by
    have hsplit := List.takeWhile_append_dropWhile (p := fun c => !sep c) (l := word ++ rest)
    rw [htake] at hsplit
    exact List.append_cancel_left hsplit
  have hne : ¬(word ++ rest).isEmpty = true := by
    obtain ⟨c, word, rfl⟩ := List.exists_cons_of_ne_nil h.word_ne
    exact Bool.false_ne_true
  unfold extractWord
  rw [if_pos (good_ofText text)]
  dsimp only [ofText]
  rw [hskip, if_neg hne, htake, hdrop]

/-- With separators only, the extraction fails. -/
theorem extractWord_sep {text : List α} (h : ∀ c ∈ text, sep c = true) :
    (ofText text).extractWord sep = ([], ⟨[], true, true⟩) := by
  unfold extractWord
  rw [if_pos (good_ofText text)]
  dsimp only [ofText]
  rw [List.dropWhile_eq_nil_iff.mpr h]
  rfl

/-- An extraction from a stream that is not good fails. -/
theorem extractWord_not_good (h : s.good = false) : s.extractWord sep = ([], { s with fail := true }) := by
  unfold extractWord
  rw [h]
  rfl

/-! ### Lines -/

section
variable [DecidableEq α] {delim : α}

/-- A line that ends in a delimiter is extracted, and the stream goes on after the delimiter. -/
theorem getline_append {line rest : List α} (h : delim ∉ line) :
    (ofText (line ++ delim :: rest)).getline delim = (line, ofText rest) := by
  have hline : ∀ c ∈ line, (c != delim) = true := fun c hc => by
    rw [bne_iff_ne]
    rintro rfl
    exact h hc
  have htake : (line ++ delim :: rest).takeWhile (fun c => c != delim) = line := by
    rw [List.takeWhile_append_of_pos hline]
    simp
  have hdrop : (line ++ delim :: rest).dropWhile (fun c => c != delim) = delim :: rest := by
    rw [List.dropWhile_append_of_pos hline]
    simp
  unfold getline
  rw [if_pos (good_ofText _)]
  dsimp only [ofText]
  rw [htake, hdrop]

/-- The rest of a text without a delimiter is extracted whole; if nothing is left, the extraction fails. -/
theorem getline_of_notMem {line : List α} (h : delim ∉ line) :
    (ofText line).getline delim = (line, ⟨[], true, line.isEmpty⟩) := by
  have hline : ∀ c ∈ line, (c != delim) = true := fun c hc => by
    rw [bne_iff_ne]
    rintro rfl
    exact h hc
  unfold getline
  rw [if_pos (good_ofText _)]
  dsimp only [ofText]
  rw [List.dropWhile_eq_nil_iff.mpr hline, List.takeWhile_eq_self_iff.mpr hline]

theorem getline_not_good (h : s.good = false) : s.getline delim = ([], { s with fail := true }) := by
  unfold getline
  rw [h]
  rfl

/-- A line that was extracted has taken characters from the stream. -/
theorem getline_shorter (h : (s.getline delim).2.fail = false) :
    (s.getline delim).2.rest.length < s.rest.length := by
  by_cases hs : s.good = true
  · rw [eq_ofText hs] at h ⊢
    rcases piece_cases delim s.rest with hnil | ⟨hne, hmem⟩ | ⟨line, rest, htext, hline⟩
    · rw [hnil, getline_of_notMem List.not_mem_nil] at h
      exact Bool.noConfusion h
    · rw [getline_of_notMem hmem]
      exact List.length_pos_iff.mpr hne
    · rw [htext, getline_append hline]
      simp only [ofText, List.length_append, List.length_cons]
      omega
  · rw [getline_not_good (by simpa using hs)] at h
    exact Bool.noConfusion h

/-- The lines that a loop `while (getline(s, line, delim))` sees. -/
def lines (delim : α) (s : IStream α) : List (List α) :=
  if _h : (s.getline delim).2.fail = true then []
  else (s.getline delim).1 :: lines delim (s.getline delim).2
termination_by s.rest.length
decreasing_by exact getline_shorter (by simpa using _h)

theorem lines_not_good (h : s.good = false) : lines delim s = [] := by
  rw [lines, getline_not_good h]
  rfl

/-- **The lines of a text** are its pieces. -/
theorem lines_eq_pieces (delim : α) : ∀ text : List α, lines delim (ofText text) = pieces delim text
  | text => by
      rcases piece_cases delim text with rfl | ⟨hne, hmem⟩ | ⟨line, rest, rfl, hline⟩
      · rw [lines, getline_of_notMem List.not_mem_nil]
        rfl
      · have hempty : text.isEmpty = false := by simpa using hne
        rw [lines, getline_of_notMem hmem, pieces_of_notMem hmem hne, hempty]
        exact congrArg (text :: ·) (lines_not_good rfl)
      · have hshorter : rest.length < (line ++ delim :: rest).length := by
          rw [List.length_append, List.length_cons]
          omega
        rw [lines, getline_append hline, pieces_append hline, ← lines_eq_pieces delim rest]
        rfl
termination_by text => text.length

end

end IStream

end Lib
