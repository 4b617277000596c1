import Mathlib.Data.Nat.Cast.Defs

/-!
# `Lib.Doubles` — doubles as numbers

Lean's `Float` is IEEE double precision: every operation rounds to the nearest double, ties to even, and
what it gives can be computed in a proof. Its operations are put here at the disposal of definitions that
ask for nothing but operations, and two of them are followed to the values that are not numbers: the inverse
root of a double above a positive one is a NaN only if the double is (`isNaN_inverse_sqrt`).

Nothing here depends on the program the numbers come from.
-/

namespace Lib.Doubles

open Float.Model

instance zeroFloat : Zero Float := ⟨Float.ofNat 0⟩

instance oneFloat : One Float := ⟨Float.ofNat 1⟩

instance natCastFloat : NatCast Float := ⟨Float.ofNat⟩

/-- What a double stands for. -/
def unpack (x : Float) : UnpackedFloat := x.toModel.unpack

/-! ## Results of operations -/

/-- An exponent that is not all ones is that of a number. -/
theorem isNaN_of_exponent {b : BitVec Format.binary64.numBits} (h : UnpackedFloat.unpackExponent b ≠ -1#_) :
    (UnpackedFloat.unpack Format.binary64 b).isNaN = false := by
  show UnpackedFloat.isNaN (ite (UnpackedFloat.unpackExponent b = -1#_) _ (ite (_ = 0#_) (dite _ _ _) _)) = false
  rw [if_neg h]
  by_cases hzero : UnpackedFloat.unpackExponent b = 0#_
  · rw [if_pos hzero]
    by_cases hmantissa : UnpackedFloat.unpackMantissa b = 0#_
    · rw [dif_pos hmantissa]
      rfl
    · rw [dif_neg hmantissa]
      rfl
  · rw [if_neg hzero]
    rfl

/-- A result is a NaN after it has been packed when it was before. -/
theorem isNaN_pack (f : UnpackedFloat) : (Float.Model.pack f).isNaN = f.isNaN := by
  show (UnpackedFloat.unpack Format.binary64 (UnpackedFloat.pack Format.binary64 f)).isNaN = f.isNaN
  fun_cases UnpackedFloat.pack with
  | case1 => rfl
  | case2 s => cases s <;> rfl
  | case3 s => cases s <;> rfl
  | case4 s m e hm biased hover => cases s <;> rfl
  | case5 s m e hm bits biased hover hnormal =>
      have hlt : biased + 1 < 2048 := Nat.lt_of_not_le hover
      refine isNaN_of_exponent ?_
      rw [UnpackedFloat.unpackExponent_packComponents, Ne, ← BitVec.toNat_inj, BitVec.toNat_ofNat]
      show biased % 2048 ≠ 2047
      omega
  | case6 s m e hm bits biased hover hsubnormal =>
      refine isNaN_of_exponent ?_
      rw [UnpackedFloat.unpackExponent_packComponents]
      decide

theorem isNaN_div (x y : Float) :
    (x / y).isNaN = (UnpackedFloat.div Format.binary64 (unpack x) (unpack y)).isNaN := isNaN_pack _

theorem isNaN_sqrt (x : Float) : x.sqrt.isNaN = (UnpackedFloat.sqrt Format.binary64 (unpack x)).isNaN :=
  isNaN_pack _

/-- Rounding a number gives a number, or an infinity. -/
theorem isNaN_roundWithAccuracy (s : UnpackedFloat.Sign) (m : ℕ) (e : ℤ) (a : UnpackedFloat.Accuracy) :
    (UnpackedFloat.roundWithAccuracy Format.binary64 s m e a).isNaN = false := by
  fun_cases UnpackedFloat.roundWithAccuracy with
  | case1 => rfl
  | case2 => rfl

/-! ## Above a positive double -/

/-- The comparison `x < y`. -/
theorem lt_iff (x y : Float) : x < y ↔ ((unpack x).compare (unpack y) == some .lt) = true := decide_eq_true_iff

/-- The comparison `x ≤ y`. -/
theorem le_iff (x y : Float) : x ≤ y ↔ ((unpack x).compare (unpack y)).any (·.isLE) = true :=
  decide_eq_true_iff

/-- A double above zero. -/
theorem unpack_of_pos {y : Float} (hy : 0 < y) :
    unpack y = .infinity .positive ∨ ∃ m e h, unpack y = .finite .positive m e h := by
  have hcmp : ((UnpackedFloat.zero .positive).compare (unpack y) == some .lt) = true := (lt_iff 0 y).mp hy
  revert hcmp
  generalize unpack y = u
  intro hcmp
  cases u with
  | notANumber => exact absurd hcmp Bool.false_ne_true
  | zero s => exact absurd hcmp Bool.false_ne_true
  | infinity s =>
      cases s with
      | positive => exact Or.inl rfl
      | negative => exact absurd hcmp Bool.false_ne_true
  | finite s m e h =>
      cases s with
      | positive => exact Or.inr ⟨m, e, h, rfl⟩
      | negative => exact absurd hcmp Bool.false_ne_true

/-- A double that is not below or at a positive one, and is a number, is positive. -/
theorem unpack_of_above {x y : Float} (hy : 0 < y) (hx : x.isNaN = false) (hxy : ¬x ≤ y) :
    unpack x = .infinity .positive ∨ ∃ m e h, unpack x = .finite .positive m e h := by
  have hnan : (unpack x).isNaN = false := hx
  have hcmp : ((unpack x).compare (unpack y)).any (·.isLE) ≠ true := fun h => hxy ((le_iff x y).mpr h)
  revert hcmp hnan
  generalize unpack x = u
  intro hnan hcmp
  cases u with
  | notANumber => exact absurd hnan.symm Bool.false_ne_true
  | zero s => rcases unpack_of_pos hy with h | ⟨m, e, hm, h⟩ <;> exact absurd (by rw [h]; rfl) hcmp
  | infinity s =>
      cases s with
      | positive => exact Or.inl rfl
      | negative => rcases unpack_of_pos hy with h | ⟨m, e, hm, h⟩ <;> exact absurd (by rw [h]; rfl) hcmp
  | finite s m e h =>
      cases s with
      | positive => exact Or.inr ⟨m, e, h, rfl⟩
      | negative => rcases unpack_of_pos hy with h | ⟨m, e, hm, h⟩ <;> exact absurd (by rw [h]; rfl) hcmp

/-- The root of a positive double is no NaN. -/
theorem isNaN_sqrt_of_pos {x : Float}
    (hx : unpack x = .infinity .positive ∨ ∃ m e h, unpack x = .finite .positive m e h) :
    x.sqrt.isNaN = false := by
  rw [isNaN_sqrt]
  rcases hx with hx | ⟨m, e, h, hx⟩
  · rw [hx]
    rfl
  · rw [hx]
    exact isNaN_roundWithAccuracy _ _ _ _

/-- A positive number divided by what is no NaN. -/
theorem isNaN_div_of_finite {x y : Float} {m : ℕ} {e : ℤ} {h : 0 < m} (hx : unpack x = .finite .positive m e h) :
    (x / y).isNaN = y.isNaN := by
  rw [isNaN_div, hx]
  show _ = (unpack y).isNaN
  cases unpack y with
  | notANumber => rfl
  | zero s => rfl
  | infinity s => rfl
  | finite s m' e' h' => exact isNaN_roundWithAccuracy _ _ _ _

/-- **Inverse roots.** Of a double that is not at most some positive one, the inverse root is a NaN only
    when the double is. -/
theorem isNaN_inverse_sqrt {x y : Float} (hy : 0 < y) (hxy : ¬x ≤ y) : (1 / x.sqrt).isNaN = x.isNaN := by
  have hone : ∃ m e h, unpack 1 = .finite .positive m e h := ⟨_, _, _, rfl⟩
  obtain ⟨m, e, h, hone⟩ := hone
  rw [isNaN_div_of_finite hone]
  cases hx : x.isNaN with
  | false => exact isNaN_sqrt_of_pos (unpack_of_above hy hx hxy)
  | true =>
      rw [isNaN_sqrt]
      have hnan : (unpack x).isNaN = true := hx
      revert hnan
      cases unpack x with
      | notANumber => exact fun _ => rfl
      | zero s => exact fun h => absurd h Bool.false_ne_true
      | infinity s => exact fun h => absurd h Bool.false_ne_true
      | finite s m' e' h' => exact fun h => absurd h Bool.false_ne_true

end Lib.Doubles
