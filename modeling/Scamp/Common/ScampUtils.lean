import Scamp.Common.Profile
import Scamp.Lib.Text

/-!
# `Common.ScampUtils` — reading a time series, writing a profile

`readFile` and the part of `WriteProfileToFile` for `PROFILE_TYPE_1NN_INDEX`, of `scamp_utils.cpp`. A file
is the list of its characters. `std::stod` is a parameter: it gives the value of a prefix of its argument
and the length of that prefix, or throws. What the program does when it exits is the text it prints.
-/

namespace Scamp

open Lib

section
variable {K : Type}

/-! ## Reading a time series -/

/-- `std::isspace`, in the C locale. -/
def isSpace (c : Char) : Bool := c == ' ' || (9 ≤ c.toNat && c.toNat ≤ 13)

/-- What `std::stod` throws. -/
inductive StodError
  | invalidArgument
  | outOfRange
deriving DecidableEq, Repr

/-- What is printed before `exit(1)`. -/
def parseFailure (line : List Char) (what : String) (count : ℕ) : String :=
  String.ofList (line.take 1) ++ "\nFATAL ERROR: " ++ what ++ ": Could not parse line number " ++
    toString (count + 1) ++ " from input file.\n"

/-- `read_value`. With no word left the value is NaN, and the next character is looked at to warn of an empty
    line. -/
def readValue (stod : List Char → Except StodError (Sample K × ℕ)) (s : IStream Char) (count : ℕ) :
    Except String (IStream Char × Sample K) :=
  let extracted := s.extractWord isSpace
  if extracted.1.isEmpty then .ok (extracted.2.peek.2, .nan)
  else
    match stod extracted.1 with
    | .ok parsed => .ok (extracted.2, parsed.1)
    | .error .invalidArgument => .error (parseFailure extracted.1 "invalid argument" count)
    | .error .outOfRange => .error (parseFailure extracted.1 "out of range" count)

/-- A value that was read has taken characters from the stream. -/
theorem readValue_shorter {stod : List Char → Except StodError (Sample K × ℕ)} {s s' : IStream Char}
    {count : ℕ} {d : Sample K} (h : readValue stod s count = .ok (s', d)) (hgood : s'.fail = false) :
    s'.rest.length < s.rest.length := by
  have hfails : ∀ t : IStream Char, t.fail = true → t.peek.2.fail = true := by
    intro t ht
    simp [IStream.peek, IStream.good, ht]
  -- an extraction that fails leaves a stream that has failed
  have hfailed : ∀ t : IStream Char, t.fail = true →
      (Except.ok (t.peek.2, Sample.nan) : Except String (IStream Char × Sample K)) ≠ .ok (s', d) := by
    rintro t ht heq
    obtain ⟨rfl, -⟩ := Prod.mk.inj (Except.ok.inj heq)
    rw [hfails t ht] at hgood
    exact Bool.noConfusion hgood
  unfold readValue at h
  by_cases hs : s.good = true
  · rw [IStream.eq_ofText hs] at h ⊢
    rcases firstWord_or isSpace s.rest with ⟨pre, word, rest, hword⟩ | hsep
    · rw [IStream.extractWord_word hword] at h
      dsimp only at h
      have hrest : s' = ⟨rest, rest.isEmpty, false⟩ := by
        split at h
        · next hempty => exact absurd (List.isEmpty_iff.mp hempty) hword.word_ne
        · split at h
          · exact (Prod.mk.inj (Except.ok.inj h)).1.symm
          · cases h
          · cases h
      have hpos := List.length_pos_iff.mpr hword.word_ne
      rw [hrest, hword.text_eq]
      simp only [IStream.ofText, List.length_append]
      omega
    · rw [IStream.extractWord_sep hsep] at h
      exact absurd h (hfailed _ rfl)
  · rw [IStream.extractWord_not_good (by simpa using hs)] at h
    exact absurd h (hfailed _ rfl)

/-- A look at the next character leaves it. -/
theorem rest_peek (s : IStream Char) : s.peek.2.rest = s.rest := by
  obtain ⟨rest, eof, fail⟩ := s
  unfold IStream.peek
  cases rest <;> split <;> rfl

/-- The loop of `readFile`: `while (read_value(f, num, v.size()) && f.peek() != EOF) v.push_back(num)`. -/
def readLoop (stod : List Char → Except StodError (Sample K × ℕ)) (f : IStream Char) (v : List (Sample K)) :
    Except String (List (Sample K)) :=
  match _h : readValue stod f v.length with
  | .error e => .error e
  | .ok (f', num) =>
      if _hfail : f'.fail = true then .ok v
      else
        match f'.peek.1 with
        | none => .ok v
        | some _ => readLoop stod f'.peek.2 (v ++ [num])
termination_by f.rest.length
decreasing_by
  rw [rest_peek]
  exact readValue_shorter _h (by simpa using _hfail)

/-- `readFile`, for a file that holds the given text, if there is one. -/
def readFile (stod : List Char → Except StodError (Sample K × ℕ)) (filename : String)
    (file : Option (List Char)) (v : List (Sample K)) : Except String (List (Sample K)) :=
  match file with
  | none =>
      .error ("Unable to open" ++ filename ++ "for reading, please make sure it exists\n")
  | some text => readLoop stod (.ofText text) v

end

/-! ## Writing a profile -/

section
variable {K : Type} [Field K] [LinearOrder K] [HasSqrt K]

/-- `ConvertToEuclidean`: NaN if there was no match. -/
def convertToEuclidean (val : Dbl K) (window : ℕ) : Dbl K :=
  match val with
  | .num x => if x < -1 then .nan else .num (HasSqrt.sqrt (max (2 * window * (1 - x)) 0))
  | .nan => .nan

/-- `CleanupPearson`: NaN if there was no match. -/
def cleanupPearson (val : Dbl K) : Dbl K := if (Dbl.num (-1)).gt val then .nan else val

/-- The `int` that a 32-bit unsigned word becomes. -/
def signedIndex (x : UInt32) : ℤ := x.toBitVec.toInt

/-- `WriteProfileToFile` for `PROFILE_TYPE_1NN_INDEX`: the value and the index written for each entry, one
    line each in the two files. -/
def writeProfileToFile (outputPearson : Bool) (window : ℕ) (arr : List (MpEntry K)) : List (Dbl K × ℤ) :=
  arr.map fun e =>
    -- if there was no match, the index is -1
    (if outputPearson then cleanupPearson e.value else convertToEuclidean e.value window,
     if (Dbl.num (-1)).gt e.value then -1 else signedIndex e.index)

end

end Scamp
