import Mathlib.Data.Nat.Cast.Defs

/-!
# `Lib.Numerals` — the numerals of a field

A numeral of a field carries the fact that it is at least two. With a name, this fact is the same term in
every definition that uses the numeral.
-/

namespace Lib

instance atLeastTwo_two : Nat.AtLeastTwo 2 := ⟨Nat.le_refl 2⟩

instance atLeastTwo_ten : Nat.AtLeastTwo 10 := ⟨Nat.le_add_left 2 8⟩

end Lib
