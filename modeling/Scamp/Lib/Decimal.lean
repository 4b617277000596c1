import Mathlib.Data.List.TakeWhile
import Mathlib.Data.Int.Notation

/-!
# `Lib.Decimal` — integers in decimal, printed and read

`printInt` writes an integer the way a stream does. `scanInt` reads one the way `strtol` does: it skips white
space, takes a sign and as many digits as there are, and leaves the rest. `readInt` takes a whole text only.
What is printed is read back (`readInt_printInt`), and a whole text is read exactly when a scan of it skips
nothing and leaves nothing (`readInt_eq_some_iff`).

Nothing here depends on where the numbers are stored.
-/

namespace Lib

/-! ## Printing and reading -/

/-- The decimal representation of an integer. -/
def printInt (n : ℤ) : List Char :=
  if n < 0 then '-' :: Nat.toDigits 10 n.natAbs else Nat.toDigits 10 n.natAbs

/-- Whether a text begins with a minus sign, and what follows its sign. -/
def splitSign : List Char → Bool × List Char
  | '-' :: s => (true, s)
  | '+' :: s => (false, s)
  | s => (false, s)

/-- The integer with the given sign and digits. -/
def signedValue (negative : Bool) (digits : List Char) : ℤ :=
  if negative then -(Nat.ofDigitChars 10 digits 0 : ℤ) else Nat.ofDigitChars 10 digits 0

/-- The integer at the front of a text, after white space, and the rest of the text. -/
def scanInt (space : Char → Bool) (s : List Char) : Option (ℤ × List Char) :=
  let signed := splitSign (s.dropWhile space)
  let digits := signed.2.takeWhile Char.isDigit
  if digits.isEmpty then none else some (signedValue signed.1 digits, signed.2.dropWhile Char.isDigit)

/-- The integer that is a whole text: a sign, if any, and digits. -/
def readInt (s : List Char) : Option ℤ :=
  let signed := splitSign s
  if signed.2.isEmpty || !signed.2.all Char.isDigit then none else some (signedValue signed.1 signed.2)

/-! ## Reading a whole text -/

variable {space : Char → Bool} {s : List Char} {n : ℤ}

/-- A text of digits. -/
theorem readInt_eq_some : readInt s = some n ↔
    (splitSign s).2 ≠ [] ∧ (∀ c ∈ (splitSign s).2, c.isDigit = true) ∧
      signedValue (splitSign s).1 (splitSign s).2 = n := by
  unfold readInt
  dsimp only
  split_ifs with h
  · simp only [false_iff, not_and]
    intro hne hall
    simp only [Bool.or_eq_true, List.isEmpty_iff, Bool.not_eq_true', List.all_eq_false] at h
    rcases h with hnil | ⟨c, hc, hdigit⟩
    · exact absurd hnil hne
    · exact absurd (hall c hc) hdigit
  · simp only [Bool.or_eq_true, List.isEmpty_iff, Bool.not_eq_true', not_or, Bool.not_eq_false,
      List.all_eq_true] at h
    rw [Option.some.injEq]
    exact ⟨fun heq => ⟨h.1, h.2, heq⟩, fun heq => heq.2.2⟩

/-- **A whole text is read** exactly when a scan of it skips nothing and leaves nothing. -/
theorem readInt_eq_some_iff (hs : s.dropWhile space = s) :
    readInt s = some n ↔ scanInt space s = some (n, []) := by
  rw [readInt_eq_some]
  unfold scanInt
  rw [hs]
  dsimp only
  constructor
  · rintro ⟨hne, hall, rfl⟩
    have htake : (splitSign s).2.takeWhile Char.isDigit = (splitSign s).2 := List.takeWhile_eq_self_iff.mpr hall
    have hdrop : (splitSign s).2.dropWhile Char.isDigit = [] := List.dropWhile_eq_nil_iff.mpr hall
    rw [htake, hdrop, if_neg (by simpa using hne)]
  · intro h
    split_ifs at h with hempty
    obtain ⟨rfl, hdrop⟩ := Prod.mk.inj (Option.some.inj h)
    have hall := List.dropWhile_eq_nil_iff.mp hdrop
    have htake : (splitSign s).2.takeWhile Char.isDigit = (splitSign s).2 := List.takeWhile_eq_self_iff.mpr hall
    rw [htake] at hempty ⊢
    exact ⟨by simpa using hempty, hall, rfl⟩

/-- A text that is read whole starts with a sign or a digit. -/
theorem head_of_readInt (h : readInt s = some n) : ∃ c tail, s = c :: tail ∧ (c = '-' ∨ c = '+' ∨ c.isDigit = true) := by
  obtain ⟨hne, hall, -⟩ := readInt_eq_some.mp h
  cases s with
  | nil => exact absurd rfl hne
  | cons c tail =>
      refine ⟨c, tail, rfl, ?_⟩
      unfold splitSign at hall
      split at hall
      · next heq => exact Or.inl (List.cons.inj heq).1
      · next heq => exact Or.inr (Or.inl (List.cons.inj heq).1)
      · exact Or.inr (Or.inr (hall c List.mem_cons_self))

/-! ## Reading what was printed -/

/-- Digits are neither of the signs. -/
theorem splitSign_digits (h : ∀ c ∈ s, c.isDigit = true) : splitSign s = (false, s) := by
  unfold splitSign
  split
  · exact absurd (h '-' List.mem_cons_self) (by decide)
  · exact absurd (h '+' List.mem_cons_self) (by decide)
  · rfl

theorem isDigit_toDigits {k : ℕ} : ∀ c ∈ Nat.toDigits 10 k, c.isDigit = true :=
  fun _ hc => Nat.isDigit_of_mem_toDigits (by decide) (by decide) hc

/-- **What is printed is read back.** -/
theorem readInt_printInt (n : ℤ) : readInt (printInt n) = some n := by
  rw [readInt_eq_some]
  unfold printInt
  split_ifs with hneg
  · refine ⟨Nat.toDigits_ne_nil, isDigit_toDigits, ?_⟩
    show -(Nat.ofDigitChars 10 (Nat.toDigits 10 n.natAbs) 0 : ℤ) = n
    rw [Nat.ofDigitChars_ten_toDigits]
    omega
  · rw [splitSign_digits isDigit_toDigits]
    refine ⟨Nat.toDigits_ne_nil, isDigit_toDigits, ?_⟩
    show (Nat.ofDigitChars 10 (Nat.toDigits 10 n.natAbs) 0 : ℤ) = n
    rw [Nat.ofDigitChars_ten_toDigits]
    omega

/-- The characters of a printed integer. -/
theorem mem_printInt {c : Char} (hc : c ∈ printInt n) : c = '-' ∨ c.isDigit = true := by
  unfold printInt at hc
  split_ifs at hc
  · rcases List.mem_cons.mp hc with rfl | hdigit
    · exact Or.inl rfl
    · exact Or.inr (isDigit_toDigits c hdigit)
  · exact Or.inr (isDigit_toDigits c hc)

theorem printInt_ne_nil : printInt n ≠ [] := by
  unfold printInt
  split_ifs
  · exact List.cons_ne_nil _ _
  · exact Nat.toDigits_ne_nil

end Lib
