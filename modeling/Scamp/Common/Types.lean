import Scamp.Lib.Numerals
import Mathlib.Algebra.Order.Field.Basic
import Mathlib.Analysis.Real.Sqrt

/-!
# `Common.Types` — the data the whole program shares

The enumerations of `common.h`, and how its numbers and memory are read.

**Numbers.** Arithmetic is exact: the floating point types are an ordered field `K` with a square root,
so that a definition runs on any such field and is reasoned about over `ℝ`. The only non-finite value the
program computes with is the NaN it puts in the norm of a subsequence it must ignore (`Dbl.nan`); the
input may hold any IEEE value (`Sample`). Sizes and positions are natural numbers; the index half of a
profile entry is the 32-bit word it is in the source.

**Memory.** A raw array is a `Buffer`, a function from positions to contents; a `std::vector` is a `Vec`,
which has a size too. What lies past the end is whatever the memory holds.
-/

namespace Scamp

/-! ## Enumerations -/

/-- Types of matrix profile to compute. -/
inductive SCAMPProfileType
  | invalid
  | oneNNIndex
  | sumThresh
  | frequencyThresh
  | knn
  | oneNNMultidim
  | oneNN
  | approxAllNeighbors
  | matrixSummary
deriving DecidableEq, Repr

/-- Precision modes. -/
inductive SCAMPPrecisionType
  | invalid
  | single
  | mixed
  | double
  | ultra
deriving DecidableEq, Repr

/-- The errors of a tile's execution (`SCAMP_NO_ERROR` is the success of `Except`). -/
inductive SCAMPError
  | functionalityUnimplemented
  | tileIllegalType
  | cudaError
  | cufftError
  | cufftExecError
  | dimIncompatible
deriving DecidableEq, Repr

/-- The string associated with an error. -/
def getSCAMPErrorString : SCAMPError → String
  | .functionalityUnimplemented => "SCAMP_FUNCTIONALITY_UNIMPLEMENTED"
  | .tileIllegalType => "SCAMP_TILE_ILLEGAL_TYPE"
  | .cudaError => "SCAMP_CUDA_ERROR"
  | .cufftError => "SCAMP_CUFFT_ERROR"
  | .cufftExecError => "SCAMP_CUFFT_EXEC_ERROR"
  | .dimIncompatible => "SCAMP_DIM_INCOMPATIBLE"

/-- Tile execution configurations. -/
inductive SCAMPTileType
  | selfJoinFullTile
  | selfJoinUpperTriangular
  | abJoinFullTile
  | abFullJoinFullTile
deriving DecidableEq, Repr

def needsSort (type : SCAMPProfileType) : Bool := type == .approxAllNeighbors

def needsIntermittentMerge (type : SCAMPProfileType) : Bool := type != .matrixSummary

def needsIntermittentReset (type : SCAMPProfileType) : Bool := type != .matrixSummary

/-! ## Numbers -/

/-- A field with the square root of `<cmath>`. -/
class HasSqrt (K : Type) where
  sqrt : K → K

noncomputable instance : HasSqrt ℝ := ⟨Real.sqrt⟩

/-- A value of an input series. -/
inductive Sample (K : Type)
  | finite (x : K)
  | posInf
  | negInf
  | nan
deriving DecidableEq, Repr

namespace Sample
variable {K : Type}

/-- `std::isfinite`. -/
def isFinite : Sample K → Bool
  | finite _ => true
  | _ => false

/-- The value `convert_non_finite_to_zero` keeps of a sample: itself, or `0` when it is not finite. -/
def cleaned [Zero K] : Sample K → K
  | finite x => x
  | _ => 0

end Sample

/-- A floating point value of the computation: a number, or NaN. -/
inductive Dbl (K : Type)
  | num (x : K)
  | nan
deriving DecidableEq, Repr

namespace Dbl
variable {K : Type}

/-- `std::isfinite`. -/
def isFinite : Dbl K → Bool
  | num _ => true
  | nan => false

def add [Add K] : Dbl K → Dbl K → Dbl K
  | num x, num y => num (x + y)
  | _, _ => nan

def mul [Mul K] : Dbl K → Dbl K → Dbl K
  | num x, num y => num (x * y)
  | _, _ => nan

/-- `x > y`: false when one side is NaN. -/
def gt [LT K] [DecidableLT K] : Dbl K → Dbl K → Bool
  | num x, num y => decide (y < x)
  | _, _ => false

/-- `x >= y`: false when one side is NaN. -/
def ge [LE K] [DecidableLE K] : Dbl K → Dbl K → Bool
  | num x, num y => decide (y ≤ x)
  | _, _ => false

@[simp] theorem isFinite_num (x : K) : (num x).isFinite = true := rfl
@[simp] theorem isFinite_nan : (nan : Dbl K).isFinite = false := rfl
@[simp] theorem add_num [Add K] (x y : K) : (num x).add (num y) = num (x + y) := rfl
@[simp] theorem mul_num [Mul K] (x y : K) : (num x).mul (num y) = num (x * y) := rfl
@[simp] theorem nan_mul [Mul K] (x : Dbl K) : nan.mul x = nan := by cases x <;> rfl
@[simp] theorem mul_nan [Mul K] (x : Dbl K) : x.mul nan = nan := by cases x <;> rfl
@[simp] theorem gt_num [LT K] [DecidableLT K] (x y : K) :
    (num x).gt (num y) = decide (y < x) := rfl
@[simp] theorem ge_num [LE K] [DecidableLE K] (x y : K) :
    (num x).ge (num y) = decide (y ≤ x) := rfl

end Dbl

/-- One entry of a matrix profile. `mp_entry` packs a correlation (`floats[0]`) and the index of the match
    (`ints[1]`) into one word; the profile types that keep no index use the value alone. -/
structure MpEntry (K : Type) where
  value : Dbl K
  index : UInt32
deriving DecidableEq, Repr

/-- The entry of a profile type without an index. -/
def MpEntry.ofValue {K : Type} (x : K) : MpEntry K := ⟨.num x, 0⟩

/-! ## Memory -/

/-- A raw array. -/
abbrev Buffer (α : Type) := ℕ → α

/-- A `std::vector`. -/
structure Vec (α : Type) where
  size : ℕ
  get : ℕ → α

namespace Vec
variable {α : Type}

/-- `resize` of an empty vector. -/
def replicate (size : ℕ) (x : α) : Vec α := ⟨size, fun _ => x⟩

/-- `v[i] = x`. -/
def set (v : Vec α) (i : ℕ) (x : α) : Vec α := ⟨v.size, Function.update v.get i x⟩

@[simp] theorem size_replicate (n : ℕ) (x : α) : (replicate n x).size = n := rfl
@[simp] theorem get_replicate (n : ℕ) (x : α) (i : ℕ) : (replicate n x).get i = x := rfl
@[simp] theorem size_set (v : Vec α) (i : ℕ) (x : α) : (v.set i x).size = v.size := rfl
theorem get_set (v : Vec α) (i : ℕ) (x : α) (j : ℕ) :
    (v.set i x).get j = if j = i then x else v.get j := by
  unfold set
  exact Function.update_apply _ _ _ _

end Vec

/-- `memcpy` of `n` elements of `src`, from position `off` on, to the front of `dst`. -/
def memcopy {α : Type} (dst : Buffer α) (src : ℕ → α) (off n : ℕ) : Buffer α :=
  fun i => if i < n then src (off + i) else dst i

@[simp] theorem memcopy_lt {α : Type} {dst : Buffer α} {src : ℕ → α} {off n i : ℕ} (h : i < n) :
    memcopy dst src off n i = src (off + i) := if_pos h

end Scamp
