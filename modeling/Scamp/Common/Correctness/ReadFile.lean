import Scamp.Common.ScampUtils

/-!
# `Common.Correctness.ReadFile` — which values of a file are read

The loop of `readFile` appends the value of a word and goes on while something follows the word. The last
word of a file is therefore left out when the file ends with it (`readLoop_words`): all values are read
exactly when the file is empty or ends in white space.
-/

namespace Scamp

open Lib

variable {K : Type}

/-- The text is empty, or its last character is white space. -/
def EndsInSpace (text : List Char) : Prop := ∀ c ∈ text.getLast?, isSpace c = true

instance (text : List Char) : Decidable (EndsInSpace text) :=
  decidable_of_iff (text.getLast?.all isSpace = true) (by simp [EndsInSpace, Option.all_eq_true])

/-- The words whose values `readFile` appends. -/
def readWords (text : List Char) : List (List Char) :=
  if EndsInSpace text then words isSpace text else (words isSpace text).dropLast

/-- A text that does not end in white space has a word. -/
theorem words_ne_nil {text : List Char} (h : ¬EndsInSpace text) : words isSpace text ≠ [] := by
  rcases firstWord_or isSpace text with ⟨pre, word, rest, hword⟩ | hsep
  · rw [words_of_firstWord hword]
    exact List.cons_ne_nil _ _
  · exact absurd (fun c hc => hsep c (List.mem_of_getLast? (Option.mem_def.mp hc))) h

/-- A text that ends with its first word does not end in white space. -/
theorem not_endsInSpace_word {text pre word : List Char} (h : FirstWord isSpace text pre word []) :
    ¬EndsInSpace text := by
  intro hends
  have hlast : text.getLast? = word.getLast? := by
    rw [h.text_eq, List.append_nil, List.getLast?_append_of_ne_nil _ h.word_ne]
  have hmem := List.getLast?_eq_some_getLast h.word_ne
  have hsep := h.word_sep _ (List.getLast_mem h.word_ne)
  rw [hends _ (Option.mem_def.mpr (hlast.trans hmem))] at hsep
  exact Bool.noConfusion hsep

/-- A text ends as what follows its first word. -/
theorem endsInSpace_rest {text pre word : List Char} {c : Char} {rest : List Char}
    (h : FirstWord isSpace text pre word (c :: rest)) : EndsInSpace text ↔ EndsInSpace (c :: rest) := by
  unfold EndsInSpace
  rw [h.text_eq, List.getLast?_append_of_ne_nil _ (by simp), List.getLast?_append_of_ne_nil _ (by simp)]

/-- What is read after a word. -/
theorem readWords_firstWord {text pre word : List Char} {c : Char} {rest : List Char}
    (h : FirstWord isSpace text pre word (c :: rest)) :
    readWords text = word :: readWords (c :: rest) := by
  unfold readWords
  rw [words_of_firstWord h, if_congr (endsInSpace_rest h) rfl rfl]
  split_ifs with hends
  · rfl
  · exact List.dropLast_cons_of_ne_nil (words_ne_nil hends)

/-- **The loop of `readFile`** appends the values of the words that something follows. -/
theorem readLoop_words {stod : List Char → Except StodError (Sample K × ℕ)} (value : List Char → Sample K) :
    ∀ (text : List Char) (v : List (Sample K)),
      (∀ word ∈ words isSpace text, stod word = .ok (value word, word.length)) →
      readLoop stod (.ofText text) v = .ok (v ++ (readWords text).map value)
  | text, v, h => by
      rcases firstWord_or isSpace text with ⟨pre, word, rest, hword⟩ | hsep
      · have hread : readValue stod (.ofText text) v.length =
            .ok (⟨rest, rest.isEmpty, false⟩, value word) := by
          unfold readValue
          rw [IStream.extractWord_word hword]
          dsimp only
          rw [if_neg (fun hempty => hword.word_ne (List.isEmpty_iff.mp hempty)),
            h word (by rw [words_of_firstWord hword]; exact List.mem_cons_self)]
        rw [readLoop, hread]
        dsimp only
        rw [dif_neg Bool.false_ne_true]
        cases hrest : rest with
        | nil =>
            -- the stream has met the end of the file: the value is not appended
            subst hrest
            have hread : readWords text = [] := by
              unfold readWords
              rw [if_neg (not_endsInSpace_word hword), words_of_firstWord hword]
              rfl
            rw [hread, List.map_nil, List.append_nil]
            rfl
        | cons c rest' =>
            subst hrest
            have hshorter : (c :: rest').length < text.length := by
              have := List.length_pos_iff.mpr hword.word_ne
              rw [hword.text_eq, List.length_append, List.length_append]
              omega
            have hlater := readLoop_words value (c :: rest') (v ++ [value word]) fun w hw => h w (by
              rw [words_of_firstWord hword]
              exact List.mem_cons_of_mem _ hw)
            have hstream : (⟨c :: rest', (c :: rest').isEmpty, false⟩ : IStream Char) = .ofText (c :: rest') := rfl
            rw [List.append_assoc] at hlater
            rw [readWords_firstWord hword, hstream, IStream.peek_cons]
            exact hlater
      · have hread : readValue stod (.ofText text) v.length = .ok (⟨[], true, true⟩, .nan) := by
          unfold readValue
          rw [IStream.extractWord_sep hsep]
          rfl
        have hnone : readWords text = [] := by
          unfold readWords
          rw [words_of_sep hsep]
          split <;> rfl
        rw [readLoop, hread, hnone, List.map_nil, List.append_nil]
        rfl
termination_by text => text.length

/-- **Which files are read whole.** When `std::stod` takes each word of a file, `readFile` appends the values
    of all words exactly when the file is empty or its last word is followed by white space. -/
theorem readFile_iff (stod : List Char → Except StodError (Sample K × ℕ)) (value : List Char → Sample K)
    (filename : String) (text : List Char) (v : List (Sample K))
    (h : ∀ word ∈ words isSpace text, stod word = .ok (value word, word.length)) :
    readFile stod filename (some text) v = .ok (v ++ (words isSpace text).map value) ↔ EndsInSpace text := by
  show readLoop stod (.ofText text) v = _ ↔ _
  rw [readLoop_words value text v h, Except.ok.injEq, List.append_cancel_left_eq]
  unfold readWords
  split_ifs with hends
  · exact ⟨fun _ => hends, fun _ => rfl⟩
  · refine ⟨fun heq => ?_, fun hends' => absurd hends' hends⟩
    have hlen := congrArg List.length heq
    have hpos := List.length_pos_iff.mpr (words_ne_nil hends)
    rw [List.length_map, List.length_map, List.length_dropLast] at hlen
    omega

/-- The value of a word of decimal digits. -/
def digitsValue (word : List Char) : ℕ := word.foldl (fun n c => 10 * n + (c.toNat - '0'.toNat)) 0

/-- `std::stod` on words of decimal digits. -/
def stodDigits (word : List Char) : Except StodError (Sample ℕ × ℕ) :=
  if word.all Char.isDigit then .ok (.finite (digitsValue word), word.length) else .error .invalidArgument

/-- A file of two lines, each with its newline. -/
theorem readFile_iff_lines :
    readFile stodDigits "in.txt" (some ['1', '2', '\n', '7', '\n']) [] = .ok [.finite 12, .finite 7] :=
  (readFile_iff stodDigits (fun word => .finite (digitsValue word)) "in.txt" ['1', '2', '\n', '7', '\n'] []
    (by decide)).mpr (by decide)

/-- Without the last newline the last value is lost. -/
theorem last_value_lost :
    ¬ ∀ (stod : List Char → Except StodError (Sample ℕ × ℕ)) (value : List Char → Sample ℕ) (filename : String)
      (text : List Char) (v : List (Sample ℕ)),
      (∀ word ∈ words isSpace text, stod word = .ok (value word, word.length)) →
      readFile stod filename (some text) v = .ok (v ++ (words isSpace text).map value) := by
  intro h
  have hwords : ∀ word ∈ words isSpace ['1', '2', '\n', '7'],
      stodDigits word = .ok (.finite (digitsValue word), word.length) := by decide
  have hread := h stodDigits (fun word => .finite (digitsValue word)) "in.txt" ['1', '2', '\n', '7'] [] hwords
  have hlost : readFile stodDigits "in.txt" (some ['1', '2', '\n', '7']) [] = .ok [.finite 12] :=
    readLoop_words (fun word => .finite (digitsValue word)) ['1', '2', '\n', '7'] [] hwords
  rw [hlost] at hread
  exact absurd (Except.ok.inj hread) (by decide)

end Scamp
