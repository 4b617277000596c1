import Scamp.Core.CheckedStats

/-!
# `Core.RowReduction` — the manual reduction of a row, in place

The loops of `reduce_row_fast` for a profile with an index, as they are compiled for other compilers than
those that work better with Eigen's reduction: the values of a row and the positions they come from are
reduced in their arrays, one assignment after the other, through `Vec.read` and `Vec.write`, which fail
outside an array. The array of the positions is not initialised.

`Core.Kernel` has the passes as functions of the whole arrays.
-/

namespace Scamp

namespace RowReduction

section
variable {α : Type} (ge : α → α → Bool)

/-- `corr` and `corrIdx`. -/
structure Arrays (α : Type) where
  corr : Vec α
  corrIdx : Vec ℕ

/-- `corr[i] >= corr[j]`. -/
def atLeast (corr : Vec α) (i j : ℕ) : Option Bool := do
  let x ← corr.read i
  let y ← corr.read j
  return ge x y

/-- `corr[i] = corr[i] >= corr[j] ? corr[i] : corr[j]`. -/
def keepLarger (corr : Vec α) (i j : ℕ) : Option (Vec α) := do
  let kept ← atLeast ge corr i j
  let x ← corr.read (if kept then i else j)
  corr.write i x

/-- One iteration of the first loop. -/
def firstStep (half : ℕ) (s : Arrays α) (i : ℕ) : Option (Arrays α) := do
  let kept ← atLeast ge s.corr i (i + half)
  let corrIdx ← s.corrIdx.write i (if kept then i else i + half)
  let corr ← keepLarger ge s.corr i (i + half)
  return ⟨corr, corrIdx⟩

/-- One iteration of the loop of `horizontal_reduction`. -/
def reductionStep (offset : ℕ) (s : Arrays α) (i : ℕ) : Option (Arrays α) := do
  let kept ← atLeast ge s.corr i (i + offset)
  let idx ← s.corrIdx.read (if kept then i else i + offset)
  let corrIdx ← s.corrIdx.write i idx
  let corr ← keepLarger ge s.corr i (i + offset)
  return ⟨corr, corrIdx⟩

/-- `horizontal_reduction`. -/
def horizontalReduction (offset : ℕ) (s : Arrays α) : Option (Arrays α) :=
  (List.range offset).foldlM (reductionStep ge offset) s

/-- `for (int i = offset; i > 0; i /= 2) horizontal_reduction(i)`. -/
def reduceFrom (offset : ℕ) (s : Arrays α) : Option (Arrays α) :=
  if offset = 0 then some s else do
    let s ← horizontalReduction ge offset s
    reduceFrom (offset / 2) s
termination_by offset
decreasing_by omega

/-- The manual reduction of `reduce_row_fast`: what `corr` holds then, and `index`. `uninit` is what
    `corrIdx` happens to hold. -/
def manualReduction (unrollWid : ℕ) (corr : Vec α) (uninit : ℕ → ℕ) : Option (Vec α × ℕ) := do
  let s ← (List.range (unrollWid / 2)).foldlM (firstStep ge (unrollWid / 2)) ⟨corr, ⟨unrollWid, uninit⟩⟩
  let s ← reduceFrom ge (unrollWid / 4) s
  let index ← s.corrIdx.read 0
  return (s.corr, index)

end

/-! ## Eigen's reduction -/

section
variable {α : Type} [LinearOrder α]

/-- A largest entry of a row and a position of it. -/
structure IsArgmax (corr : Vec α) (max : α) (index : ℕ) : Prop where
  index_lt : index < corr.size
  get_index : corr.get index = max
  le_max : ∀ d < corr.size, corr.get d ≤ max

/-- Eigen's `maxCoeff(&index)`, of which the documented behaviour is used. -/
structure MaxCoeff (α : Type) [LinearOrder α] where
  coeff : Vec α → α × ℕ
  isArgmax : ∀ corr, 0 < corr.size → IsArgmax corr (coeff corr).1 (coeff corr).2

end

end RowReduction

end Scamp
