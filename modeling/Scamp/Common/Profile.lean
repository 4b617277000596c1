import Scamp.Common.Types
import Scamp.Lib.Loop

/-!
# `Common.Profile` — matrix profiles and how a tile's result is merged into them

`Profile` of `profile.h` for the types that keep one entry for each subsequence (and the summary matrix);
the match queues of `PROFILE_TYPE_APPROX_ALL_NEIGHBORS` are in `Gpu.Neighbors`.

The three elementwise merges are one loop, `elementwise`, with the operation of each; `get_elementwise`
is what a caller needs to know of it.
-/

namespace Scamp

/-- Stores information about a matrix profile. -/
structure Profile (K : Type) where
  type : SCAMPProfileType
  data : Vec (MpEntry K)

/-! ## The merge loop -/

/-- `for (i = 0; i < tile_sz; ++i) mp_full[i + merge_start] = op(i, mp_full[i + merge_start])`. -/
def elementwise {α : Type} (op : ℕ → α → α) (mpFull : Vec α) (mergeStart tileSz : ℕ) : Vec α :=
  (List.range tileSz).foldl
    (fun mp i => mp.set (i + mergeStart) (op i (mp.get (i + mergeStart)))) mpFull

@[simp] theorem size_elementwise {α : Type} (op : ℕ → α → α) (v : Vec α) (a n : ℕ) :
    (elementwise op v a n).size = v.size := by
  unfold elementwise
  refine Lib.foldl_range_inv (fun _ mp => mp.size = v.size) n v rfl ?_
  intro i mp _ hmp
  rw [Vec.size_set, hmp]

/-- **The merge loop entry by entry**: entries `[a, a + n)` get the operation once, the others stay. -/
theorem get_elementwise {α : Type} (op : ℕ → α → α) (v : Vec α) (a n k : ℕ) :
    (elementwise op v a n).get k = if a ≤ k ∧ k < a + n then op (k - a) (v.get k) else v.get k := by
  unfold elementwise
  -- before iteration `i`, exactly the entries `[a, a + i)` are done
  refine Lib.foldl_range_inv
    (fun i mp => ∀ k, mp.get k = if a ≤ k ∧ k < a + i then op (k - a) (v.get k) else v.get k) n v
    (fun k => by rw [if_neg (by omega)]) ?_ k
  intro i mp hi hmp k
  rw [Vec.get_set]
  by_cases hk : k = i + a
  · subst hk
    rw [if_pos rfl, if_pos (by omega), hmp, if_neg (by omega), Nat.add_sub_cancel]
  · rw [if_neg hk, hmp]
    by_cases hin : a ≤ k ∧ k < a + i
    · rw [if_pos hin, if_pos (by omega)]
    · rw [if_neg hin, if_neg (by omega)]

section
variable {K : Type} [Field K] [LinearOrder K]

/-! ## Allocation -/

/-- The value of an entry that nothing was matched with: smaller than every correlation for the types that
    keep a maximum, and `0` for those that add up. -/
def initDist : SCAMPProfileType → K
  | .knn => -2
  | .approxAllNeighbors => -2
  | .oneNNIndex => -2
  | .oneNN => -2
  | .matrixSummary => -2
  | _ => 0

/-- The entries `Profile::Alloc` fills a profile with. -/
def allocEntry : SCAMPProfileType → MpEntry K
  | .oneNNIndex => ⟨.num (-2), 0xFFFFFFFF⟩
  | .oneNN => .ofValue (-2)
  | .matrixSummary => .ofValue (-2)
  | _ => .ofValue 0

/-- `Profile::Alloc`. -/
def Profile.alloc (p : Profile K) (size : ℕ) (matrixHeight matrixWidth : ℤ) : Profile K :=
  match p.type with
  | .sumThresh | .oneNN | .oneNNIndex | .frequencyThresh =>
      { p with data := .replicate size (allocEntry p.type) }
  | .matrixSummary => { p with data := .replicate (matrixHeight * matrixWidth).toNat (allocEntry p.type) }
  | _ => p

/-! ## Elementwise merges -/

/-- `e1 + e2`, for the types that add up. -/
def sumEntry (e1 e2 : MpEntry K) : MpEntry K := { e1 with value := e1.value.add e2.value }

/-- The larger of the two, `e1` when they compare equal; a match taken over from `e2` has its index moved by
    `indexOffset`. -/
def maxEntry (indexOffset : ℕ) (e1 e2 : MpEntry K) : MpEntry K :=
  if e2.value.gt e1.value then { e2 with index := e2.index + UInt32.ofNat indexOffset } else e1

/-- `elementwise_sum`. -/
def elementwiseSum (mpFull : Vec (MpEntry K)) (mergeStart tileSz : ℕ) (toMerge : Buffer (MpEntry K)) :
    Vec (MpEntry K) :=
  elementwise (fun i e => sumEntry e (toMerge i)) mpFull mergeStart tileSz

/-- `elementwise_max` of the type that stores an index. -/
def elementwiseMaxIndex (mpFull : Vec (MpEntry K)) (mergeStart tileSz : ℕ)
    (toMerge : Buffer (MpEntry K)) (indexOffset : ℕ) : Vec (MpEntry K) :=
  elementwise (fun i e => maxEntry indexOffset e (toMerge i)) mpFull mergeStart tileSz

/-- `elementwise_max` without an index. -/
def elementwiseMax (mpFull : Vec (MpEntry K)) (mergeStart tileSz : ℕ) (toMerge : Buffer (MpEntry K)) :
    Vec (MpEntry K) :=
  elementwise (fun i e => maxEntry 0 e (toMerge i)) mpFull mergeStart tileSz

/-- `Profile::matrix_merge`. -/
def matrixMerge (mpFull : Vec (MpEntry K)) (values : Vec (MpEntry K)) : Vec (MpEntry K) :=
  elementwise (fun i e => maxEntry 0 e (values.get i)) mpFull 0 values.size

/-- `Profile::CopyFromDevice`: the first `length` entries of the tile's profile, copied to the host. -/
def copyFromDevice (deviceTileProfile : Buffer (MpEntry K)) (length : ℕ) : Vec (MpEntry K) :=
  ⟨length, deviceTileProfile⟩

/-- `Profile::MergeTileToProfile`, run under the profile's lock: merges the result of a tile, `length`
    entries from `position` on, into this profile. -/
def mergeTileToProfile (p tileProfile : Profile K) (position length indexStart : ℕ) :
    Except String (Profile K) :=
  if p.type ≠ tileProfile.type then .error "Profile Types do not match"
  else match p.type with
    | .sumThresh | .frequencyThresh =>
        .ok { p with data := elementwiseSum p.data position length tileProfile.data.get }
    | .oneNNIndex =>
        .ok { p with data := elementwiseMaxIndex p.data position length tileProfile.data.get indexStart }
    | .oneNN => .ok { p with data := elementwiseMax p.data position length tileProfile.data.get }
    | .matrixSummary => .ok { p with data := matrixMerge p.data tileProfile.data }
    | _ => .error "FUNCTIONALITY UNIMPLEMENTED"

end

end Scamp
