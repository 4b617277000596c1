import Scamp.Core.Correctness.Reduction
import Mathlib.Algebra.BigOperators.Group.Multiset.Basic
import Mathlib.Data.Multiset.Bind

/-!
# `Core.Correctness.Absorption` — what happens to one profile entry

A profile entry only ever changes by taking in correlations: one at a time in a column update, a whole
block in a row update, and all that a tile has gathered in a merge. An `Absorption` says, for one profile
type, what it means that an entry has taken in a multiset of blocks, with the few facts a loop or a
schedule of merges needs; everything above works with those facts only.

## Contents
- **Hits and blocks.** `Hit`, `Block`, `shiftHits`.
- **The interface.** `Absorption`, with `foldl` rules.
- **The two instances.** `bestAbsorption` for the types that keep the best match, where the order and the
  grouping of the hits does not matter, and `sumAbsorption` for `SUM_THRESH`, where a block is gated twice.
-/

namespace Scamp

/-! ## Hits and blocks -/

/-- A correlation offered to a profile entry, and the position of the match. -/
structure Hit (K : Type) where
  corr : K
  pos : ℕ
deriving DecidableEq

/-- Hits offered to an entry in one update. -/
abbrev Block (K : Type) := List (Hit K)

section
variable {K : Type}

/-- The same block with the positions of the matches moved. -/
def shiftBlock (off : ℕ) (b : Block K) : Block K := b.map fun h => ⟨h.corr, h.pos + off⟩

def shiftBlocks (off : ℕ) (bs : Multiset (Block K)) : Multiset (Block K) := bs.map (shiftBlock off)

@[simp] theorem shiftBlocks_zero (off : ℕ) : shiftBlocks off (0 : Multiset (Block K)) = 0 := rfl

@[simp] theorem shiftBlocks_add (off : ℕ) (bs bs' : Multiset (Block K)) :
    shiftBlocks off (bs + bs') = shiftBlocks off bs + shiftBlocks off bs' :=
  Multiset.map_add _ _ _

end

/-! ## The interface -/

section
variable {K : Type} [Field K] [LinearOrder K]

/-- The entry a merge leaves: `elementwise_sum` or one of the `elementwise_max`, by type. -/
def mergeEntry (type : SCAMPProfileType) (indexOffset : ℕ) (e1 e2 : MpEntry K) : MpEntry K :=
  match type with
  | .oneNNIndex => maxEntry indexOffset e1 e2
  | .oneNN => maxEntry 0 e1 e2
  | _ => sumEntry e1 e2

/-- The block of a row: its cells from column `first` on. -/
def rowBlock (x : ℕ → K) (first len : ℕ) : Block K := (List.range len).map fun d => ⟨x d, first + d⟩

/-- **How the entries of one profile type take in correlations.** `rel e bs e'`: entry `e` has become `e'`
    by taking in the blocks `bs`. `seedOK s e`: a tile whose local entry starts as `s` may be merged into
    `e`. -/
structure Absorption (bld : Build K) (type : SCAMPProfileType) (threshold : K) where
  rel : MpEntry K → Multiset (Block K) → MpEntry K → Prop
  seedOK : MpEntry K → MpEntry K → Prop
  refl : ∀ e, rel e 0 e
  trans : ∀ {e e' e'' bs bs'}, rel e bs e' → rel e' bs' e'' → rel e (bs + bs') e''
  /-- A column update takes in one hit. -/
  column : ∀ a : KernelArgs K, a.threshold = threshold → ∀ (mp : Buffer (MpEntry K)) (x : K) (row col),
    rel (mp col) {[⟨x, row⟩]} (updateMp type false a mp (.num x) row col col)
  /-- A row update takes in the row as one block, whichever reduction is used. -/
  row : ∀ a : KernelArgs K, a.threshold = threshold →
    ∀ (mp : Buffer (MpEntry K)) {corr : Vec (Dbl K)} {x : ℕ → K} (tileDiag row), 0 < corr.size →
      (∀ d < corr.size, corr.get d = .num (x d)) →
      (corr.size = bld.unrollWid → rel (mp row) {rowBlock x (tileDiag + row) corr.size}
        (updateRowwise (reduceRowFast bld) type a tileDiag row corr mp row)) ∧
      rel (mp row) {rowBlock x (tileDiag + row) corr.size}
        (updateRowwise (reduceRowEigen bld) type a tileDiag row corr mp row)
  /-- A merge takes in what the tile's entry has taken in since it was seeded. -/
  merge : ∀ {s e x bs} (off : ℕ), seedOK s e → rel s bs x →
    rel e (shiftBlocks off bs) (mergeEntry type off e x)
  /-- An entry is a good seed for itself, for the types that copy their seeds. -/
  seed_self : type ≠ .sumThresh → ∀ {bs e}, rel (allocEntry type) bs e → seedOK e e
  /-- A tile of the other type is seeded with zeros. -/
  seed_zero : type = .sumThresh → ∀ e, seedOK (.ofValue 0) e
  /-- A seed stays good while the entry it will be merged into takes in more. -/
  seed_mono : ∀ {s e e' bs}, seedOK s e → rel e bs e' → seedOK s e'

/-- What an update makes of its entry. -/
def updateEntry (type : SCAMPProfileType) (threshold : K) (e : MpEntry K) (corr : Dbl K) (matchIndex : ℕ) :
    MpEntry K :=
  match type with
  | .oneNNIndex => if corr.gt e.value then ⟨corr, UInt32.ofNat matchIndex⟩ else e
  | .oneNN => if e.value.ge corr then e else { e with value := corr }
  | .sumThresh => if corr.gt (.num threshold) then { e with value := e.value.add corr } else e
  | _ => e

/-- An update changes its own entry only, for the types without a matrix. -/
theorem updateMp_apply {type : SCAMPProfileType} (htype : type ≠ .matrixSummary) (rowwise : Bool)
    (a : KernelArgs K) (mp : Buffer (MpEntry K)) (corr : Dbl K) (row col k : ℕ) :
    updateMp type rowwise a mp corr row col k =
      if k = (if rowwise then row else col) then
        updateEntry type a.threshold (mp k) corr (if rowwise then col else row)
      else mp k := by
  unfold updateMp updateEntry
  generalize (if rowwise = true then row else col) = index
  by_cases hk : k = index
  · rw [if_pos hk, hk]
    cases type <;> dsimp only
    case oneNNIndex => split <;> [exact Function.update_self _ _ _; rfl]
    case oneNN => split <;> [rfl; exact Function.update_self _ _ _]
    case sumThresh => split <;> [exact Function.update_self _ _ _; rfl]
    case matrixSummary => exact absurd rfl htype
  · rw [if_neg hk]
    cases type <;> dsimp only
    case oneNNIndex => split <;> [exact Function.update_of_ne hk _ _; rfl]
    case oneNN => split <;> [rfl; exact Function.update_of_ne hk _ _]
    case sumThresh => split <;> [exact Function.update_of_ne hk _ _; rfl]
    case matrixSummary => exact absurd rfl htype

/-- The entry a column update changes. -/
theorem updateMp_column {type : SCAMPProfileType} (htype : type ≠ .matrixSummary) (a : KernelArgs K)
    (mp : Buffer (MpEntry K)) (corr : Dbl K) (row col : ℕ) :
    updateMp type false a mp corr row col col = updateEntry type a.threshold (mp col) corr row := by
  rw [updateMp_apply htype]
  exact if_pos rfl

theorem updateMp_column_other {type : SCAMPProfileType} (htype : type ≠ .matrixSummary)
    (a : KernelArgs K) (mp : Buffer (MpEntry K)) (corr : Dbl K) (row : ℕ) {col k : ℕ} (hk : k ≠ col) :
    updateMp type false a mp corr row col k = mp k := by
  rw [updateMp_apply htype]
  exact if_neg hk

/-- A row update, likewise, with the reduction of the row. -/
theorem updateRowwise_apply {type : SCAMPProfileType} (htype : type ≠ .matrixSummary)
    (reduceRow : SCAMPProfileType → Vec (Dbl K) → K → Dbl K × ℕ) (a : KernelArgs K) (tileDiag row : ℕ)
    (corr : Vec (Dbl K)) (mp : Buffer (MpEntry K)) (k : ℕ) :
    updateRowwise reduceRow type a tileDiag row corr mp k =
      if k = row then
        updateEntry type a.threshold (mp k) (reduceRow type corr a.threshold).1
          ((reduceRow type corr a.threshold).2 + tileDiag + row)
      else mp k := by
  unfold updateRowwise
  rw [if_neg htype, updateMp_apply htype]
  rfl

/-! ## The best match -/

/-- **The entry keeps the best match.** `e'` is at least `e` and every hit, and it is `e` itself or a hit
    that is better than `e`. With `keepsIndex` it has the position of that hit. -/
def Best (keepsIndex : Bool) (e : MpEntry K) (bs : Multiset (Block K)) (e' : MpEntry K) : Prop :=
  ∀ v, e.value = .num v → ∃ v', e'.value = .num v' ∧ v ≤ v' ∧ (∀ b ∈ bs, ∀ h ∈ b, h.corr ≤ v') ∧
    (e' = e ∨ ∃ b ∈ bs, ∃ h ∈ b, v < h.corr ∧ v' = h.corr ∧
      (keepsIndex = true → e'.index = UInt32.ofNat h.pos))

omit [Field K] in
theorem best_refl (keepsIndex : Bool) (e : MpEntry K) : Best keepsIndex e 0 e :=
  fun v hv => ⟨v, hv, le_refl v, fun _ hb => absurd hb (Multiset.notMem_zero _), Or.inl rfl⟩

omit [Field K] in
theorem best_trans {keepsIndex : Bool} {e e' e'' : MpEntry K} {bs bs' : Multiset (Block K)}
    (h : Best keepsIndex e bs e') (h' : Best keepsIndex e' bs' e'') :
    Best keepsIndex e (bs + bs') e'' := by
  intro v hv
  obtain ⟨v', hv', hle, hdom, hatt⟩ := h v hv
  obtain ⟨v'', hv'', hle', hdom', hatt'⟩ := h' v' hv'
  refine ⟨v'', hv'', hle.trans hle', ?_, ?_⟩
  · intro b hb x hx
    rcases Multiset.mem_add.mp hb with hb | hb
    · exact (hdom b hb x hx).trans hle'
    · exact hdom' b hb x hx
  · rcases hatt' with rfl | ⟨b, hb, x, hx, hlt, heq, hidx⟩
    · obtain rfl : v' = v'' := by rw [hv'] at hv''; exact Dbl.num.inj hv''
      rcases hatt with rfl | ⟨b, hb, x, hx, hrest⟩
      · exact Or.inl rfl
      · exact Or.inr ⟨b, Multiset.mem_add.mpr (Or.inl hb), x, hx, hrest⟩
    · exact Or.inr ⟨b, Multiset.mem_add.mpr (Or.inr hb), x, hx, lt_of_le_of_lt hle hlt, heq, hidx⟩

omit [Field K] in
/-- Taking in a block by its best hit: the entry is replaced exactly when that hit is better. -/
theorem best_of_block {keepsIndex : Bool} {e : MpEntry K} {b : Block K} {h : Hit K} (hmem : h ∈ b)
    (hmax : ∀ h' ∈ b, h'.corr ≤ h.corr) {idx : UInt32}
    (hidx : keepsIndex = true → idx = UInt32.ofNat h.pos) :
    Best keepsIndex e {b} (if (Dbl.num h.corr).gt e.value then ⟨.num h.corr, idx⟩ else e) := by
  intro v hv
  rw [hv, Dbl.gt_num]
  by_cases hlt : v < h.corr
  · rw [if_pos (decide_eq_true hlt)]
    refine ⟨h.corr, rfl, le_of_lt hlt, ?_, Or.inr ⟨b, Multiset.mem_singleton_self b, h, hmem, hlt, rfl, hidx⟩⟩
    intro b' hb' h' hh'
    obtain rfl := Multiset.mem_singleton.mp hb'
    exact hmax h' hh'
  · rw [if_neg (by simpa using hlt)]
    refine ⟨v, hv, le_refl v, ?_, Or.inl rfl⟩
    intro b' hb' h' hh'
    obtain rfl := Multiset.mem_singleton.mp hb'
    exact (hmax h' hh').trans (not_lt.mp hlt)

omit [Field K] in
/-- A row without NaNs, reduced with its index. -/
theorem best_row {keepsIndex : Bool} {e : MpEntry K} {x : ℕ → K} {first len i : ℕ} (hi : i < len)
    (hmax : ∀ d < len, x d ≤ x i) {idx : UInt32} (hidx : keepsIndex = true → idx = UInt32.ofNat (first + i)) :
    Best keepsIndex e {rowBlock x first len}
      (if (Dbl.num (x i)).gt e.value then ⟨.num (x i), idx⟩ else e) := by
  refine best_of_block (h := ⟨x i, first + i⟩) (List.mem_map.mpr ⟨i, List.mem_range.mpr hi, rfl⟩) ?_ hidx
  intro h' hh'
  obtain ⟨d, hd, rfl⟩ := List.mem_map.mp hh'
  exact hmax d (List.mem_range.mp hd)

/-- A seed that is no better than the entry the tile will be merged into. -/
def SeedBelow (s e : MpEntry K) : Prop := ∃ v w, s.value = .num v ∧ e.value = .num w ∧ v ≤ w

omit [Field K] in
theorem seedBelow_mono {keepsIndex : Bool} {s e e' : MpEntry K} {bs : Multiset (Block K)}
    (h : SeedBelow s e) (hrel : Best keepsIndex e bs e') : SeedBelow s e' := by
  obtain ⟨v, w, hv, hw, hle⟩ := h
  obtain ⟨w', hw', hle', _⟩ := hrel w hw
  exact ⟨v, w', hv, hw', hle.trans hle'⟩

omit [Field K] in
/-- The entries of a profile that keeps a best match are numbers. -/
theorem seedBelow_self {keepsIndex : Bool} {e0 e : MpEntry K} {bs : Multiset (Block K)} {v : K}
    (h0 : e0.value = .num v) (hrel : Best keepsIndex e0 bs e) : SeedBelow e e := by
  obtain ⟨w, hw, _⟩ := hrel v h0
  exact ⟨w, w, hw, hw, le_refl w⟩

omit [Field K] in
/-- **Merging a tile.** A local entry that is still its seed is not taken over; one that is not is a hit,
    whose position is moved by the offset of the tile. -/
theorem best_merge {keepsIndex : Bool} {s e x : MpEntry K} {bs : Multiset (Block K)} (off : ℕ)
    {mergeOff : ℕ} (hoff : keepsIndex = true → mergeOff = off) (hseed : SeedBelow s e)
    (hrel : Best keepsIndex s bs x) :
    Best keepsIndex e (shiftBlocks off bs) (maxEntry mergeOff e x) := by
  obtain ⟨v, w, hv, hw, hle⟩ := hseed
  obtain ⟨v', hv', hle', hdom, hatt⟩ := hrel v hv
  intro w0 hw0
  obtain rfl : w = w0 := Dbl.num.inj (hw.symm.trans hw0)
  have hdom' : ∀ b ∈ shiftBlocks off bs, ∀ h ∈ b, h.corr ≤ v' := by
    intro b hb h hh
    obtain ⟨b0, hb0, rfl⟩ := Multiset.mem_map.mp hb
    obtain ⟨h0, hh0, rfl⟩ := List.mem_map.mp hh
    exact hdom b0 hb0 h0 hh0
  have hgt : x.value.gt e.value = decide (w < v') := by rw [hv', hw, Dbl.gt_num]
  unfold maxEntry
  rw [hgt]
  by_cases hlt : w < v'
  · rw [if_pos (decide_eq_true hlt)]
    refine ⟨v', hv', le_of_lt hlt, hdom', Or.inr ?_⟩
    rcases hatt with rfl | ⟨b, hb, h, hh, _, heq, hidx⟩
    · have : v' = v := Dbl.num.inj (hv'.symm.trans hv)
      exact absurd (lt_of_lt_of_le hlt (this ▸ hle)) (lt_irrefl w)
    · refine ⟨shiftBlock off b, Multiset.mem_map.mpr ⟨b, hb, rfl⟩, ⟨h.corr, h.pos + off⟩,
        List.mem_map.mpr ⟨h, hh, rfl⟩, heq ▸ hlt, heq, fun hk => ?_⟩
      show x.index + UInt32.ofNat mergeOff = UInt32.ofNat (h.pos + off)
      rw [hidx hk, hoff hk, UInt32.ofNat_add]
  · rw [if_neg (by simpa using hlt)]
    exact ⟨w, hw, le_refl w, fun b hb h hh => (hdom' b hb h hh).trans (not_lt.mp hlt), Or.inl rfl⟩

omit [Field K] in
/-- A column update of an entry that keeps the best match, index or not. -/
theorem best_column {keepsIndex : Bool} (e : MpEntry K) (x : K) (row : ℕ) {idx : UInt32}
    (hidx : keepsIndex = true → idx = UInt32.ofNat row) :
    Best keepsIndex e {[⟨x, row⟩]} (if (Dbl.num x).gt e.value then ⟨.num x, idx⟩ else e) := by
  refine best_of_block (h := ⟨x, row⟩) (List.mem_singleton_self _) ?_ hidx
  intro h' hh'
  rw [List.mem_singleton.mp hh']

variable (bld : Build K) (threshold : K)

/-- `PROFILE_TYPE_1NN_INDEX` keeps the best match and its position. -/
def bestIndexAbsorption : Absorption bld .oneNNIndex threshold where
  rel := Best true
  seedOK := SeedBelow
  refl := best_refl true
  trans := best_trans
  seed_self _ := seedBelow_self rfl
  seed_zero h := absurd h (by decide)
  seed_mono := seedBelow_mono
  merge off hseed hrel := best_merge off (fun _ => rfl) hseed hrel
  column a _ mp x row col := by
    rw [updateMp_column (by decide)]
    exact best_column _ x row fun _ => rfl
  row a _ mp corr x tileDiag row hpos hcorr := by
    have hfound : ∀ reduceRow, FindsMax (reduceRow .oneNNIndex corr a.threshold) x corr.size →
        Best true (mp row) {rowBlock x (tileDiag + row) corr.size}
          (updateRowwise reduceRow .oneNNIndex a tileDiag row corr mp row) := by
      rintro reduceRow ⟨i, hi, hred, hmax⟩
      rw [updateRowwise_apply (by decide), if_pos rfl, hred]
      exact best_row hi hmax fun _ => by rw [show i + tileDiag + row = tileDiag + row + i by omega]
    exact ⟨fun hlen => hfound _ (reduceRowFast_index bld.reducesWholeRow _ hlen hcorr),
      hfound _ (reduceRowEigen_index bld _ hpos hcorr)⟩

/-- `mp >= corr ? mp : corr` on numbers. -/
theorem updateEntry_oneNN {threshold : K} {e : MpEntry K} {v x : K} (hv : e.value = .num v) (n : ℕ) :
    updateEntry .oneNN threshold e (.num x) n =
      if (Dbl.num x).gt e.value then ⟨.num x, e.index⟩ else e := by
  unfold updateEntry
  dsimp only
  rw [hv, Dbl.ge_num, Dbl.gt_num]
  by_cases hle : x ≤ v
  · rw [if_pos (decide_eq_true hle), if_neg (by simpa using hle)]
  · rw [if_neg (by simpa using hle), if_pos (by simpa using hle)]

/-- `PROFILE_TYPE_1NN` keeps the value of the best match. -/
def bestValueAbsorption : Absorption bld .oneNN threshold where
  rel := Best false
  seedOK := SeedBelow
  refl := best_refl false
  trans := best_trans
  seed_self _ := seedBelow_self rfl
  seed_zero h := absurd h (by decide)
  seed_mono := seedBelow_mono
  merge off hseed hrel := best_merge off (fun h => absurd h Bool.false_ne_true) hseed hrel
  column a _ mp x row col := by
    rw [updateMp_column (by decide)]
    intro v hv
    rw [updateEntry_oneNN hv]
    exact best_column _ x row (fun h => absurd h Bool.false_ne_true) v hv
  row a _ mp corr x tileDiag row hpos hcorr := by
    obtain ⟨i, hi, hmaxCoeff, hmax⟩ := bld.maxCoeff_spec corr x hpos hcorr
    have hfound : ∀ reduceRow, (reduceRow .oneNN corr a.threshold).1 = .num (x i) →
        Best false (mp row) {rowBlock x (tileDiag + row) corr.size}
          (updateRowwise reduceRow .oneNN a tileDiag row corr mp row) := by
      intro reduceRow hred
      rw [updateRowwise_apply (by decide), if_pos rfl, hred]
      intro v hv
      rw [updateEntry_oneNN hv]
      exact best_row hi hmax (fun h => absurd h Bool.false_ne_true) v hv
    have hvalue : (bld.maxCoeff corr).1 = .num (x i) := by rw [hmaxCoeff]
    exact ⟨fun _ => hfound _ hvalue, hfound _ hvalue⟩

/-! ## Gated sums -/

/-- A correlation counts when it is above the threshold. -/
def gate (threshold x : K) : K := if threshold < x then x else 0

/-- What a row update adds for a block: the sum of its correlations above the threshold, if that sum is
    above the threshold itself. -/
def blockSum (threshold : K) (b : Block K) : K :=
  gate threshold ((b.map fun h => gate threshold h.corr).sum)

/-- **The entry adds up blocks.** -/
def Summed (threshold : K) (e : MpEntry K) (bs : Multiset (Block K)) (e' : MpEntry K) : Prop :=
  ∀ v, e.value = .num v → e'.value = .num (v + (bs.map (blockSum threshold)).sum)

/-- A single correlation is gated once or twice with the same result. -/
theorem blockSum_singleton (threshold : K) (h : Hit K) : blockSum threshold [h] = gate threshold h.corr := by
  unfold blockSum
  rw [List.map_singleton, List.sum_singleton]
  unfold gate
  split_ifs with h1 h2
  · rfl
  · rfl
  · rfl

theorem blockSum_shiftBlock (threshold : K) (off : ℕ) (b : Block K) :
    blockSum threshold (shiftBlock off b) = blockSum threshold b := by
  unfold blockSum shiftBlock
  rw [List.map_map]
  rfl

theorem summed_trans {threshold : K} {e e' e'' : MpEntry K} {bs bs' : Multiset (Block K)}
    (h : Summed threshold e bs e') (h' : Summed threshold e' bs' e'') :
    Summed threshold e (bs + bs') e'' := by
  intro v hv
  rw [h' _ (h v hv), Multiset.map_add, Multiset.sum_add, add_assoc]

/-- An update adds the gated value. -/
theorem updateEntry_sumThresh {threshold : K} {e : MpEntry K} {v : K} (hv : e.value = .num v) (x : K)
    (n : ℕ) : (updateEntry .sumThresh threshold e (.num x) n).value = .num (v + gate threshold x) := by
  unfold updateEntry gate
  dsimp only
  rw [Dbl.gt_num]
  by_cases hlt : threshold < x
  · rw [if_pos (decide_eq_true hlt), if_pos hlt, hv]
    rfl
  · rw [if_neg (by simpa using hlt), if_neg hlt, hv, add_zero]

/-- `PROFILE_TYPE_SUM_THRESH` adds up gated blocks; a tile is seeded with `0`. -/
def sumAbsorption : Absorption bld .sumThresh threshold where
  rel := Summed threshold
  seedOK s _ := s.value = .num 0
  refl e v hv := by rw [hv, Multiset.map_zero, Multiset.sum_zero, add_zero]
  trans := summed_trans
  seed_self h := absurd rfl h
  seed_zero _ _ := rfl
  seed_mono h _ := h
  merge := by
    intro s e x bs off hseed hrel v hv
    have hx := hrel 0 hseed
    have hsums : (shiftBlocks off bs).map (blockSum threshold) = bs.map (blockSum threshold) := by
      unfold shiftBlocks
      rw [Multiset.map_map]
      exact Multiset.map_congr rfl fun b _ => blockSum_shiftBlock threshold off b
    show e.value.add x.value = _
    rw [hsums, hv, hx, Dbl.add_num, zero_add]
  column a ha mp x row col := by
    rw [updateMp_column (by decide), ha]
    intro v hv
    rw [updateEntry_sumThresh hv, Multiset.map_singleton, Multiset.sum_singleton, blockSum_singleton]
  row a ha mp corr x tileDiag row hpos hcorr := by
    have hblock : ((rowBlock x (tileDiag + row) corr.size).map fun h => gate threshold h.corr).sum =
        ((List.range corr.size).map fun d => if threshold < x d then x d else 0).sum := by
      unfold rowBlock
      rw [List.map_map]
      rfl
    have hfound : ∀ reduceRow, (reduceRow .sumThresh corr threshold).1 = sumAbove corr threshold →
        Summed threshold (mp row) {rowBlock x (tileDiag + row) corr.size}
          (updateRowwise reduceRow .sumThresh a tileDiag row corr mp row) := by
      intro reduceRow hred
      rw [updateRowwise_apply (by decide), if_pos rfl, ha, hred, sumAbove_eq threshold hcorr]
      intro v hv
      rw [updateEntry_sumThresh hv, Multiset.map_singleton, Multiset.sum_singleton]
      unfold blockSum
      rw [hblock]
    exact ⟨fun _ => hfound _ rfl, hfound _ rfl⟩

end

end Scamp
