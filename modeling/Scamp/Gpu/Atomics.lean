import Scamp.Common.Profile

/-!
# `Gpu.Atomics` — how the kernels change an entry of a profile

The atomic operations of `kernel_gpu_utils.h`, as what one of them makes of the entry at its address, and
what the kernels merge a correlation into: the registers of a thread, which are taken to shared memory
later.

`fAtomicMax` compares the bits of two floats as integers. As the device has only the NaN `0x7fffffff`, that
is the comparison of the numbers, with NaN above all of them for a value that is not negative, and between
the numbers that are not negative and the negative ones for one that is. Exact arithmetic has no `-0`, of which
this is not true (`Gpu.Correctness.FloatMax`).
-/

namespace Scamp

section
variable {K : Type} [Field K] [LinearOrder K]

/-! ## Atomic operations -/

/-- `isnan`. -/
def Dbl.isNan : Dbl K → Bool
  | .num _ => false
  | .nan => true

/-- `fmaxf`: a NaN is ignored. -/
def fmaxf : Dbl K → Dbl K → Dbl K
  | .num x, .num y => .num (max x y)
  | .num x, .nan => .num x
  | .nan, y => y

/-- `fAtomicMax`. -/
def fAtomicMax (old value : Dbl K) : Dbl K :=
  match value, old with
  | .num v, .num o => .num (max o v)
  | .num _, .nan => .nan
  | .nan, .num o => if o < 0 then .nan else .num o
  | .nan, .nan => .nan

/-- `fAtomicMax_check`. -/
def fAtomicMaxCheck (old value check : Dbl K) : Dbl K := if check.gt value then old else fAtomicMax old value

/-- `MPatomicMax`: the exchange is repeated until it has taken place or is not called for. -/
def mpAtomicMax (e : MpEntry K) (val : Dbl K) (idx : UInt32) : MpEntry K :=
  if val.gt e.value then ⟨val, idx⟩ else e

/-- `MPatomicMax_check`. -/
def mpAtomicMaxCheck (e : MpEntry K) (val : Dbl K) (idx : UInt32) (currVal : Dbl K) : MpEntry K :=
  if val.gt currVal then mpAtomicMax e val idx else e

/-- `do_atomicAdd`. -/
def doAtomicAdd (e : MpEntry K) (amount : Dbl K) : MpEntry K := { e with value := e.value.add amount }

/-! ## Flushing a register -/

/-- Whether the entries of the type hold the index of the match. -/
def keepsIndex : SCAMPProfileType → Bool
  | .oneNNIndex | .matrixSummary | .approxAllNeighbors => true
  | _ => false

/-- What `update_rows` and `update_cols` do for one entry of a type that keeps a maximum: the value read
    ahead of the atomic operations is the one the entry has. -/
def flushMax (type : SCAMPProfileType) (e best : MpEntry K) : MpEntry K :=
  match type with
  | .oneNN => { e with value := fAtomicMaxCheck e.value best.value e.value }
  | .oneNNIndex | .matrixSummary | .approxAllNeighbors => mpAtomicMaxCheck e best.value best.index e.value
  | _ => e

/-- The value of an entry that is not above the threshold counts as `0`: `(dist > threshold).select(dist, 0)`. -/
def gated (threshold : K) (dist : Dbl K) : Dbl K := if dist.gt (.num threshold) then dist else .num 0

end

end Scamp
