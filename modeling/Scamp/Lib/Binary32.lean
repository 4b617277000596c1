import Mathlib.Data.Int.Order.Basic
import Mathlib.Order.WithBot
import Mathlib.Order.Monotone.Basic
import Mathlib.Tactic.Ring

/-!
# `Lib.Binary32` — IEEE single precision, by its bit patterns

A pattern is a sign, an exponent of 8 bits and a fraction of 23. What it stands for is a whole multiple of
`2 ^ -149`, or an infinity, or NaN: `value` is that multiple or that infinity, and the comparisons of the
standard are those of `value`, false for a NaN. Both zeros have the value `0`.

For patterns that are not NaN the order is that of the patterns read as a sign and a magnitude
(`value_le_iff`): the 31 bits after the sign grow with what they stand for (`strictMono_scaled`).
-/

namespace Lib.Binary32

/-! ## Fields -/

/-- The sign bit. -/
def sign (x : BitVec 32) : Bool := x.msb

/-- The bits after the sign: the exponent above the fraction. -/
def magnitude (x : BitVec 32) : ℕ := x.toNat % 2 ^ 31

def exponent (x : BitVec 32) : ℕ := magnitude x / 2 ^ 23

def fraction (x : BitVec 32) : ℕ := magnitude x % 2 ^ 23

def isNaN (x : BitVec 32) : Bool := decide (exponent x = 255 ∧ fraction x ≠ 0)

/-- The pattern of `-0`. -/
def negZero : BitVec 32 := 0x80000000#32

/-! ## Values -/

/-- What the bits after the sign stand for, in units of `2 ^ -149`: subnormal numbers below the first full
    exponent, then a significand with its leading bit at each exponent. -/
def scaled (m : ℕ) : ℕ :=
  if m / 2 ^ 23 = 0 then m else (2 ^ 23 + m % 2 ^ 23) * 2 ^ (m / 2 ^ 23 - 1)

/-- What a pattern that is not NaN stands for: so many units, or an infinity. -/
def Value : Type := WithBot (WithTop ℤ)

namespace Value

-- the order of the integers is named, so that comparisons are computed
instance : LinearOrder Value := @WithBot.linearOrder (WithTop ℤ) (@WithTop.linearOrder ℤ Int.instLinearOrder)

def negInf : Value := (⊥ : WithBot (WithTop ℤ))

def posInf : Value := ((⊤ : WithTop ℤ) : WithBot (WithTop ℤ))

def units (n : ℤ) : Value := ((n : WithTop ℤ) : WithBot (WithTop ℤ))

theorem negInf_lt_posInf : negInf < posInf := WithBot.bot_lt_coe _

theorem negInf_lt_units (n : ℤ) : negInf < units n := WithBot.bot_lt_coe _

theorem units_lt_posInf (n : ℤ) : units n < posInf := WithBot.coe_lt_coe.mpr (WithTop.coe_lt_top n)

theorem units_lt_units {m n : ℤ} (h : m < n) : units m < units n :=
  WithBot.coe_lt_coe.mpr (WithTop.coe_lt_coe.mpr h)

end Value

/-- The value of a pattern that is not NaN. -/
def value (x : BitVec 32) : Value :=
  if exponent x = 255 then (if sign x then .negInf else .posInf)
  else if sign x then .units (-scaled (magnitude x)) else .units (scaled (magnitude x))

/-- `x < y`. -/
def lt (x y : BitVec 32) : Bool := !isNaN x && !isNaN y && decide (value x < value y)

/-- `x >= y`. -/
def ge (x y : BitVec 32) : Bool := !isNaN x && !isNaN y && decide (value y ≤ value x)

/-! ## Sign and magnitude -/

/-- The bits after the sign as a number with that sign. -/
def key (x : BitVec 32) : ℤ := if sign x then -magnitude x else magnitude x

theorem strictMono_scaled : StrictMono scaled := by
  refine strictMono_nat_of_lt_succ fun m => ?_
  unfold scaled
  by_cases hlast : m % 2 ^ 23 = 2 ^ 23 - 1
  · -- the next pattern begins a new exponent
    have hdiv : (m + 1) / 2 ^ 23 = m / 2 ^ 23 + 1 := by omega
    have hmod : (m + 1) % 2 ^ 23 = 0 := by omega
    rw [hdiv, hmod, if_neg (Nat.succ_ne_zero _), Nat.add_sub_cancel, Nat.add_zero]
    by_cases hzero : m / 2 ^ 23 = 0
    · rw [if_pos hzero, hzero, pow_zero, Nat.mul_one]
      omega
    · obtain ⟨e, he⟩ := Nat.exists_eq_succ_of_ne_zero hzero
      rw [if_neg hzero, hlast, he, Nat.succ_sub_one, Nat.pow_succ]
      have hpos := Nat.two_pow_pos e
      omega
  · have hdiv : (m + 1) / 2 ^ 23 = m / 2 ^ 23 := by omega
    have hmod : (m + 1) % 2 ^ 23 = m % 2 ^ 23 + 1 := by omega
    rw [hdiv, hmod]
    by_cases hzero : m / 2 ^ 23 = 0
    · rw [if_pos hzero, if_pos hzero]
      exact Nat.lt_succ_self m
    · rw [if_neg hzero, if_neg hzero]
      exact Nat.mul_lt_mul_of_pos_right (by omega) (Nat.two_pow_pos _)

theorem scaled_zero : scaled 0 = 0 := rfl

/-- The number a key stands for, in units of `2 ^ -149`. -/
def signedScaled (n : ℤ) : ℤ := if n < 0 then -scaled n.natAbs else scaled n.natAbs

theorem signedScaled_lt {a b : ℤ} (hab : a < b) : signedScaled a < signedScaled b := by
  unfold signedScaled
  have hscaled : ∀ {m n : ℕ}, m < n → (scaled m : ℤ) < scaled n :=
    fun h => Int.ofNat_lt.mpr (strictMono_scaled h)
  by_cases ha : a < 0
  · rw [if_pos ha]
    have hapos : (0 : ℤ) < scaled a.natAbs := by
      have hlt := hscaled (show 0 < a.natAbs by omega)
      rwa [scaled_zero] at hlt
    by_cases hb : b < 0
    · rw [if_pos hb]
      exact Int.neg_lt_neg (hscaled (by omega))
    · rw [if_neg hb]
      omega
  · rw [if_neg ha, if_neg (by omega)]
    exact hscaled (by omega)

theorem magnitude_lt (x : BitVec 32) : magnitude x < 2 ^ 31 := Nat.mod_lt _ (Nat.two_pow_pos 31)

/-- The exponent of all ones is an infinity, when it is not a NaN. -/
theorem exponent_eq_iff {x : BitVec 32} (hx : isNaN x = false) :
    exponent x = 255 ↔ magnitude x = 255 * 2 ^ 23 := by
  have hnan := of_decide_eq_false hx
  unfold exponent fraction at *
  omega

theorem magnitude_le {x : BitVec 32} (hx : isNaN x = false) : magnitude x ≤ 255 * 2 ^ 23 := by
  have hlt := magnitude_lt x
  have hnan := of_decide_eq_false hx
  unfold exponent fraction at hnan
  omega

theorem key_nonneg {x : BitVec 32} (h : sign x = false) : key x = magnitude x := by
  unfold key
  rw [h, if_neg (by decide)]

theorem key_neg {x : BitVec 32} (h : sign x = true) : key x = -magnitude x := by
  unfold key
  rw [if_pos h]

/-- The largest key, that of the infinity. -/
def infKey : ℤ := 255 * 2 ^ 23

/-- The value of a key. -/
def keyValue (n : ℤ) : Value :=
  if n = infKey then .posInf else if n = -infKey then .negInf else .units (signedScaled n)

theorem keyValue_lt {a b : ℤ} (ha : -infKey ≤ a) (hb : b ≤ infKey) (hab : a < b) : keyValue a < keyValue b := by
  have hpos : (0 : ℤ) < infKey := by decide
  unfold keyValue
  rw [if_neg (show a ≠ infKey by omega), if_neg (show b ≠ -infKey by omega)]
  by_cases hbot : a = -infKey
  · rw [if_pos hbot]
    by_cases htop : b = infKey
    · rw [if_pos htop]
      exact Value.negInf_lt_posInf
    · rw [if_neg htop]
      exact Value.negInf_lt_units _
  · rw [if_neg hbot]
    by_cases htop : b = infKey
    · rw [if_pos htop]
      exact Value.units_lt_posInf _
    · rw [if_neg htop]
      exact Value.units_lt_units (signedScaled_lt hab)

theorem key_bounds {x : BitVec 32} (hx : isNaN x = false) : -infKey ≤ key x ∧ key x ≤ infKey := by
  have hle := magnitude_le hx
  have hinf : infKey = 255 * 2 ^ 23 := rfl
  cases hs : sign x with
  | false =>
      rw [key_nonneg hs]
      constructor <;> omega
  | true =>
      rw [key_neg hs]
      constructor <;> omega

/-- The value of a pattern is the value of its key. -/
theorem value_eq {x : BitVec 32} (hx : isNaN x = false) : value x = keyValue (key x) := by
  have hinf := exponent_eq_iff hx
  have hdef : infKey = 255 * 2 ^ 23 := rfl
  unfold value keyValue
  by_cases hexp : exponent x = 255
  · have hmag := hinf.mp hexp
    rw [if_pos hexp]
    cases hs : sign x with
    | false => rw [key_nonneg hs, if_neg (by decide), if_pos (by omega)]
    | true => rw [key_neg hs, if_pos rfl, if_neg (by omega), if_pos (by omega)]
  · have hmag : magnitude x ≠ 255 * 2 ^ 23 := fun h => hexp (hinf.mpr h)
    rw [if_neg hexp]
    unfold signedScaled
    cases hs : sign x with
    | false =>
        rw [key_nonneg hs, if_neg (by decide), if_neg (by omega), if_neg (by omega), if_neg (by omega),
          Int.natAbs_natCast]
    | true =>
        rw [key_neg hs, if_pos rfl, if_neg (by omega), if_neg (by omega), Int.natAbs_neg, Int.natAbs_natCast]
        by_cases hzero : magnitude x = 0
        · rw [hzero]
          rfl
        · rw [if_pos (by omega)]

/-- `-1.5` is `-3 * 2 ^ 148` units. -/
example : value 0xbfc00000#32 = .units (-(3 * 2 ^ 148)) := by
  rw [value_eq (by decide)]
  rfl

/-- **The order of the patterns** that are not NaN is that of their keys. -/
theorem value_le_iff {x y : BitVec 32} (hx : isNaN x = false) (hy : isNaN y = false) :
    value x ≤ value y ↔ key x ≤ key y := by
  rw [value_eq hx, value_eq hy]
  constructor
  · intro hle
    by_contra hlt
    exact absurd hle (not_le.mpr (keyValue_lt (key_bounds hy).1 (key_bounds hx).2 (not_le.mp hlt)))
  · intro hle
    rcases hle.eq_or_lt with heq | hlt
    · rw [heq]
    · exact (keyValue_lt (key_bounds hx).1 (key_bounds hy).2 hlt).le

theorem value_lt_iff {x y : BitVec 32} (hx : isNaN x = false) (hy : isNaN y = false) :
    value x < value y ↔ key x < key y := by
  rw [← not_le, ← not_le, value_le_iff hy hx]

/-! ## Comparisons -/

theorem lt_iff {x y : BitVec 32} (hx : isNaN x = false) (hy : isNaN y = false) :
    lt x y = true ↔ value x < value y := by
  unfold lt
  rw [hx, hy]
  exact decide_eq_true_iff

theorem ge_iff {x y : BitVec 32} (hx : isNaN x = false) (hy : isNaN y = false) :
    ge x y = true ↔ value y ≤ value x := by
  unfold ge
  rw [hx, hy]
  exact decide_eq_true_iff

/-! ## Patterns as integers -/

theorem sign_eq (x : BitVec 32) : sign x = decide (2 ^ 31 ≤ x.toNat) := by
  unfold sign
  rw [BitVec.msb_eq_decide]

/-- A pattern read as an unsigned integer. -/
theorem toNat_eq (x : BitVec 32) : x.toNat = magnitude x + if sign x then 2 ^ 31 else 0 := by
  have hlt := x.isLt
  rw [sign_eq]
  unfold magnitude
  by_cases h : 2 ^ 31 ≤ x.toNat
  · rw [decide_eq_true h, if_pos rfl]
    omega
  · rw [decide_eq_false h, if_neg (by decide)]
    omega

/-- A pattern read as a signed integer. -/
theorem toInt_eq (x : BitVec 32) : x.toInt = magnitude x - if sign x then 2 ^ 31 else 0 := by
  have hnat := toNat_eq x
  have hlt := x.isLt
  have hmag := magnitude_lt x
  rw [BitVec.toInt_eq_toNat_cond]
  cases hs : sign x with
  | false =>
      rw [hs, if_neg (by decide)] at hnat
      rw [if_pos (by omega), if_neg (by decide)]
      omega
  | true =>
      rw [hs, if_pos rfl] at hnat
      rw [if_neg (by omega), if_pos rfl]
      omega

theorem isNaN_negZero : isNaN negZero = false := by decide

theorem eq_negZero_iff {x : BitVec 32} : x = negZero ↔ sign x = true ∧ magnitude x = 0 := by
  have hnat := toNat_eq x
  constructor
  · rintro rfl
    decide
  · rintro ⟨hs, hmag⟩
    rw [hs, hmag] at hnat
    exact BitVec.eq_of_toNat_eq hnat

end Lib.Binary32
