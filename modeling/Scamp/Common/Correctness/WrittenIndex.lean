import Scamp.Common.ScampUtils
import Scamp.Core.Kernel
import Scamp.Distributed.Messages

/-!
# `Common.Correctness.WrittenIndex` — the index that is written for a match

The index of a match is stored as the position inside a tile and moved by the offsets of the merges it goes
through (`Matched`), in 32-bit unsigned arithmetic: it is the global position of the match modulo `2 ^ 32`
(`Matched.index_eq`). `WriteProfileToFile` converts it to an `int`, which keeps it exactly below `2 ^ 31`, and
takes every value below `-1` for the sign of an entry without a match, also a correlation that rounding has
put there (`index_written_iff`).
-/

namespace Scamp

variable {K : Type} [Field K] [LinearOrder K]

/-! ## Matches -/

/-- An entry that holds a match at global position `g`, and how it came about: the kernel found a
    correlation (whatever number the rounded operations have made of it) better than the one in the entry;
    merging the profile of a tile, or the result of a distributed tile, put the entry in the place of a worse
    one and moved its index by the offset of the tile. -/
inductive Matched : ℕ → MpEntry K → Prop
  | found {rowwise : Bool} {a : KernelArgs K} {mp : Buffer (MpEntry K)} {x : K} {row col : ℕ}
      (hbetter : (Dbl.num x).gt (mp (if rowwise then row else col)).value = true) :
      Matched (if rowwise then col else row)
        (updateMp .oneNNIndex rowwise a mp (.num x) row col (if rowwise then row else col))
  | tileMerge {g : ℕ} {mpFull : Vec (MpEntry K)} {toMerge : Buffer (MpEntry K)}
      {mergeStart tileSz indexOffset i : ℕ} (h : Matched g (toMerge i)) (hi : i < tileSz)
      (hbetter : (toMerge i).value.gt (mpFull.get (mergeStart + i)).value = true) :
      Matched (indexOffset + g)
        ((elementwiseMaxIndex mpFull mergeStart tileSz toMerge indexOffset).get (mergeStart + i))
  | distributedMerge {g : ℕ} {mpFull toMerge merged : List (MpEntry K)} {e1 e2 e : MpEntry K}
      {mergeStart tileSz indexOffset i : ℕ} (h : Matched g e2) (hi : i < tileSz)
      (hmerge : mergeInto (maxEntry indexOffset) mpFull mergeStart tileSz toMerge = some merged)
      (h1 : mpFull[mergeStart + i]? = some e1) (h2 : toMerge[i]? = some e2) (hbetter : e2.value.gt e1.value = true)
      (he : merged[mergeStart + i]? = some e) : Matched (indexOffset + g) e

omit [Field K] in
/-- A merge that takes over a better entry moves its index. -/
theorem maxEntry_better {indexOffset : ℕ} {e1 e2 : MpEntry K} (h : e2.value.gt e1.value = true) :
    maxEntry indexOffset e1 e2 = { e2 with index := e2.index + UInt32.ofNat indexOffset } := if_pos h

omit [Field K] [LinearOrder K] in
/-- An entry of a distributed merge. -/
theorem mergeInto_get {op : MpEntry K → MpEntry K → MpEntry K} {mpFull toMerge merged : List (MpEntry K)}
    {e1 e2 e : MpEntry K} {mergeStart tileSz i : ℕ} (hi : i < tileSz)
    (hmerge : mergeInto op mpFull mergeStart tileSz toMerge = some merged)
    (h1 : mpFull[mergeStart + i]? = some e1) (h2 : toMerge[i]? = some e2)
    (he : merged[mergeStart + i]? = some e) : e = op e1 e2 := by
  unfold mergeInto at hmerge
  split at hmerge
  · rw [← Option.some.inj hmerge, List.getElem?_mapIdx, h1, Option.map_some,
      if_pos ⟨Nat.le_add_right _ _, by omega⟩, Nat.add_sub_cancel_left, h2] at he
    exact (Option.some.inj he).symm
  · cases hmerge

/-- **The index of a match** is its global position, in 32 bits. -/
theorem Matched.index_eq {g : ℕ} {e : MpEntry K} (h : Matched g e) : e.index = UInt32.ofNat g := by
  induction h with
  | @found rowwise a mp x row col hbetter =>
      unfold updateMp
      dsimp only
      rw [if_pos hbetter, Function.update_self]
  | @tileMerge g mpFull toMerge mergeStart tileSz indexOffset i _ hi hbetter ih =>
      unfold elementwiseMaxIndex
      rw [get_elementwise, if_pos ⟨Nat.le_add_right _ _, by omega⟩, Nat.add_sub_cancel_left,
        maxEntry_better hbetter, ih, Nat.add_comm, UInt32.ofNat_add]
  | @distributedMerge g mpFull toMerge merged e1 e2 e mergeStart tileSz indexOffset i _ hi hmerge h1 h2
        hbetter he ih =>
      rw [mergeInto_get hi hmerge h1 h2 he, maxEntry_better hbetter, ih, Nat.add_comm, UInt32.ofNat_add]

/-! ## The written index -/

/-- The `int` of a word is the number in it exactly when its highest bit is not set. -/
theorem signedIndex_ofNat {g : ℕ} (hg : g < 2 ^ 32) :
    signedIndex (UInt32.ofNat g) = if g < 2 ^ 31 then (g : ℤ) else g - 2 ^ 32 := by
  unfold signedIndex
  rw [BitVec.toInt_eq_toNat_cond]
  have htoNat : (UInt32.ofNat g).toBitVec.toNat = g := by
    rw [UInt32.toNat_toBitVec, UInt32.toNat_ofNat_of_lt' hg]
  rw [htoNat]
  split_ifs <;> omega

variable [HasSqrt K]

/-- The line of an entry with a match: a value below `-1` is written as no match. -/
theorem writeProfileToFile_matched {g k : ℕ} {e : MpEntry K} {arr : List (MpEntry K)} (h : Matched g e)
    (he : arr[k]? = some e) (hg : g < 2 ^ 32) (outputPearson : Bool) (window : ℕ) :
    ((writeProfileToFile outputPearson window arr)[k]?).map Prod.snd =
      some (if (Dbl.num (-1)).gt e.value then -1 else if g < 2 ^ 31 then (g : ℤ) else g - 2 ^ 32) := by
  unfold writeProfileToFile
  rw [List.getElem?_map, he, Option.map_some, Option.map_some, h.index_eq, signedIndex_ofNat hg]

/-- **The written index.** For every entry that holds a match at a global position `g < 2 ^ 32 - 1`, the
    index that is written is `g`, and not the `-1` of an entry without a match, exactly when
    `g < 2 ^ 31` and the value of the entry is not below `-1`. -/
theorem index_written_iff {g k : ℕ} {e : MpEntry K} {arr : List (MpEntry K)} (h : Matched g e)
    (he : arr[k]? = some e) (hg : g < 2 ^ 32 - 1) (outputPearson : Bool) (window : ℕ) :
    (((writeProfileToFile outputPearson window arr)[k]?).map Prod.snd = some (g : ℤ) ∧
      ((writeProfileToFile outputPearson window arr)[k]?).map Prod.snd ≠ some (-1)) ↔
      g < 2 ^ 31 ∧ ¬(Dbl.num (-1)).gt e.value = true := by
  rw [writeProfileToFile_matched h he (by omega) outputPearson window]
  constructor
  · rintro ⟨hline, hne⟩
    have hvalue : ¬(Dbl.num (-1)).gt e.value = true := fun hlow => hne (by rw [if_pos hlow])
    rw [if_neg hvalue] at hline
    by_contra hlarge
    rw [if_neg fun hsmall => hlarge ⟨hsmall, hvalue⟩, Option.some.injEq] at hline
    omega
  · rintro ⟨hsmall, hvalue⟩
    rw [if_neg hvalue, if_pos hsmall]
    refine ⟨rfl, fun hline => ?_⟩
    rw [Option.some.injEq] at hline
    omega

/-! A match at the first position of a tile. -/

/-- A pass over a tile of one cell. -/
noncomputable def oneCell : KernelArgs ℝ where
  nX := 1
  nY := 1
  exclusionLower := 0
  exclusionUpper := 0
  dfa := fun _ => 0
  dfb := fun _ => 0
  dga := fun _ => 0
  dgb := fun _ => 0
  normsa := fun _ => .num 1
  normsb := fun _ => .num 1
  matrixWidth := 0
  rowsPerCell := 1
  colsPerCell := 1
  globalStartCol := 0
  globalStartRow := 0
  hasNanInput := false
  threshold := 0

/-- A profile without matches. -/
noncomputable def unmatched : Buffer (MpEntry ℝ) := fun _ => ⟨.num (-2), 0xFFFFFFFF⟩

/-- The entry of the cell, whose correlation is computed as `x`, after its tile, at row `offset`, has been
    merged. -/
noncomputable def mergedEntry (x : ℝ) (offset : ℕ) : MpEntry ℝ :=
  (elementwiseMaxIndex ⟨1, unmatched⟩ 0 1 (updateMp .oneNNIndex false oneCell unmatched (.num x) 0 0)
    offset).get 0

theorem found_unmatched {x : ℝ} (hx : -2 < x) :
    (Dbl.num x).gt (.num (-2)) = true ∧
      updateMp .oneNNIndex false oneCell unmatched (.num x) 0 0 0 = ⟨.num x, 0⟩ := by
  have hbetter : (Dbl.num x).gt (.num (-2)) = true := by
    rw [Dbl.gt_num, decide_eq_true_eq]
    exact hx
  refine ⟨hbetter, ?_⟩
  unfold updateMp
  dsimp only
  have hkept : (Dbl.num x).gt (unmatched 0).value = true := hbetter
  rw [if_neg Bool.false_ne_true, if_pos hkept, Function.update_self]
  rfl

theorem mergedEntry_matched {x : ℝ} (hx : -2 < x) (offset : ℕ) : Matched offset (mergedEntry x offset) := by
  obtain ⟨hbetter, hentry⟩ := found_unmatched hx
  refine @Matched.tileMerge ℝ _ _ 0 ⟨1, unmatched⟩ _ 0 1 offset 0
    (@Matched.found ℝ _ _ false oneCell unmatched x 0 0 hbetter) Nat.zero_lt_one ?_
  rw [hentry]
  exact hbetter

theorem mergedEntry_value {x : ℝ} (hx : -2 < x) (offset : ℕ) : (mergedEntry x offset).value = .num x := by
  obtain ⟨hbetter, hentry⟩ := found_unmatched hx
  unfold mergedEntry elementwiseMaxIndex
  have hmerged : maxEntry offset (unmatched 0) ⟨.num x, 0⟩ = _ := maxEntry_better hbetter
  rw [get_elementwise, if_pos ⟨Nat.le_refl _, Nat.zero_lt_one⟩, hentry]
  exact congrArg MpEntry.value hmerged

/-- In a tile at row `5` a match of correlation `1` is written as `5`. -/
theorem index_written_iff_five :
    ((writeProfileToFile true 3 [mergedEntry 1 5])[0]?).map Prod.snd = some 5 := by
  have hvalue : ¬(Dbl.num (-1)).gt (mergedEntry 1 5).value = true := by
    rw [mergedEntry_value (by norm_num), Dbl.gt_num, decide_eq_true_eq]
    norm_num
  exact ((index_written_iff (k := 0) (mergedEntry_matched (by norm_num) 5) rfl (by norm_num) true 3).mpr
    ⟨by norm_num, hvalue⟩).1

/-- In a tile at row `2 ^ 31` it is written as `-2 ^ 31`. -/
theorem index_written_negative :
    ¬ ∀ (g k : ℕ) (e : MpEntry ℝ) (arr : List (MpEntry ℝ)), Matched g e → arr[k]? = some e →
      g < 2 ^ 32 - 1 → ∀ (outputPearson : Bool) (window : ℕ),
      ((writeProfileToFile outputPearson window arr)[k]?).map Prod.snd = some (g : ℤ) ∧
        ((writeProfileToFile outputPearson window arr)[k]?).map Prod.snd ≠ some (-1) := by
  intro h
  have hmatched := mergedEntry_matched (x := 1) (by norm_num) (2 ^ 31)
  have hline := (h (2 ^ 31) 0 _ [mergedEntry 1 (2 ^ 31)] hmatched rfl (by norm_num) true 3).1
  rw [writeProfileToFile_matched hmatched rfl (by norm_num), mergedEntry_value (by norm_num), Dbl.gt_num,
    if_neg (by norm_num), if_neg (Nat.lt_irrefl _), Option.some.injEq] at hline
  norm_num at hline

/-- A match in a tile at row `5` whose correlation has come out as `-3 / 2` is written as no match. -/
theorem lowMatch_written :
    Matched 5 (mergedEntry (-3 / 2) 5) ∧
      ((writeProfileToFile true 3 [mergedEntry (-3 / 2) 5])[0]?).map Prod.snd = some (-1) := by
  have hmatched := mergedEntry_matched (x := -3 / 2) (by norm_num) 5
  refine ⟨hmatched, ?_⟩
  rw [writeProfileToFile_matched hmatched rfl (by norm_num), mergedEntry_value (by norm_num), Dbl.gt_num,
    if_pos (by norm_num)]

end Scamp
