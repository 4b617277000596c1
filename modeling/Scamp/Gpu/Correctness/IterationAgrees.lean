import Scamp.Gpu.Correctness.WarpSums

/-!
# `Gpu.Correctness.IterationAgrees` — `do_iteration_fast` against `do_row_edge`

Both calls leave the covariances the recurrence gives. For the types that keep a maximum, a register of
`do_iteration_fast` and an entry that `do_row_edge` changes directly take in the same correlations
(`column_best`, `row_best`), so they agree under the conditions of `Gpu.Correctness.Registers`; for
`SUM_THRESH` the sums agree, those of the rows over a warp. `iteration_agrees_iff` puts this together: the
two ways agree exactly when the window of the fast one is inside the tile, and no entry is below the `-2` of
a register that took in nothing better.
-/

namespace Scamp

namespace SlidingWindow

section
variable {K : Type} [Field K] [LinearOrder K] {k : Instance K}

/-! ## The maximum of a row -/

/-- The result of `max_dist` over `n` distances: a largest of those above `-2`, with its position, or `-2`. -/
def FoundMax (dist : ℕ → Dbl K) (n : ℕ) (found : Dbl K × ℕ) : Prop :=
  (found.1 = .num (-2) ∧ ∀ i < n, ∀ w, dist i = .num w → w ≤ -2) ∨
    ∃ i < n, ∃ v, dist i = .num v ∧ found = (.num v, i) ∧ -2 < v ∧ ∀ j < n, ∀ w, dist j = .num w → w ≤ v

/-- One comparison of the loop of `max_dist`. -/
theorem foundMax_succ {dist : ℕ → Dbl K} {n : ℕ} {found : Dbl K × ℕ} (h : FoundMax dist n found) :
    FoundMax dist (n + 1) (if (dist n).gt found.1 then (dist n, n) else found) := by
  obtain ⟨v, hv, hle, hmax⟩ : ∃ v, found.1 = .num v ∧ -2 ≤ v ∧ ∀ i < n, ∀ w, dist i = .num w → w ≤ v := by
    rcases h with ⟨hv, hmax⟩ | ⟨i, -, v, -, rfl, hgt, hmax⟩
    · exact ⟨-2, hv, le_rfl, hmax⟩
    · exact ⟨v, rfl, hgt.le, hmax⟩
  -- what is not above the maximum so far leaves it as it is
  have hkeep : (∀ w, dist n = .num w → w ≤ v) → FoundMax dist (n + 1) found := by
    intro hlast
    have hall : ∀ i < n + 1, ∀ w, dist i = .num w → w ≤ v := by
      intro i hi w hw
      rcases Nat.lt_succ_iff_lt_or_eq.mp hi with hi | rfl
      · exact hmax i hi w hw
      · exact hlast w hw
    rcases h with ⟨hfound, -⟩ | ⟨i, hi, w, hw, rfl, hgt, -⟩
    · obtain rfl := Dbl.num.inj (hfound.symm.trans hv)
      exact Or.inl ⟨hfound, hall⟩
    · obtain rfl := Dbl.num.inj hv
      exact Or.inr ⟨i, by omega, w, hw, rfl, hgt, hall⟩
  rw [hv]
  cases hd : dist n with
  | nan =>
      rw [show (Dbl.nan : Dbl K).gt (.num v) = false from rfl, if_neg (by decide)]
      exact hkeep fun w hw => by rw [hd] at hw; cases hw
  | num x =>
      rw [Dbl.gt_num]
      by_cases hlt : v < x
      · rw [if_pos (decide_eq_true hlt)]
        refine Or.inr ⟨n, by omega, x, hd, rfl, lt_of_le_of_lt hle hlt, fun i hi w hw => ?_⟩
        rcases Nat.lt_succ_iff_lt_or_eq.mp hi with hi | rfl
        · exact (hmax i hi w hw).trans hlt.le
        · exact (Dbl.num.inj (hw.symm.trans hd)).le
      · rw [if_neg (by simpa using hlt)]
        refine hkeep fun w hw => ?_
        obtain rfl := Dbl.num.inj (hw.symm.trans hd)
        exact not_lt.mp hlt

/-- **`max_dist`**, by Eigen or by its own loop. -/
theorem foundMax_maxDist (dist : ℕ → Dbl K) : FoundMax dist k.diagsPerThread (maxDist k dist) := by
  unfold maxDist
  by_cases hwide : 4 < k.diagsPerThread
  · rw [if_pos hwide]
    dsimp only
    by_cases hsome : ∃ i < k.diagsPerThread, ∃ v, dist i = .num v
    · obtain ⟨i, hi, v, hv, hcoeff, hmax⟩ := k.maxCoeff.coeff_num k.diagsPerThread dist hsome
      rw [hcoeff, Dbl.gt_num]
      by_cases hlt : -2 < v
      · rw [if_pos (decide_eq_true hlt)]
        exact Or.inr ⟨i, hi, v, hv, rfl, hlt, hmax⟩
      · rw [if_neg (by simpa using hlt)]
        exact Or.inl ⟨rfl, fun j hj w hw => (hmax j hj w hw).trans (not_lt.mp hlt)⟩
    · have hnan : (k.maxCoeff.coeff k.diagsPerThread dist).1 = .nan := by
        refine k.maxCoeff.coeff_nan _ _ fun i hi => ?_
        cases hd : dist i with
        | num v => exact absurd ⟨i, hi, v, hd⟩ hsome
        | nan => rfl
      rw [hnan]
      exact Or.inl ⟨rfl, fun i hi w hw => absurd ⟨i, hi, w, hw⟩ hsome⟩
  · rw [if_neg hwide]
    exact Lib.foldl_range_inv (FoundMax dist) k.diagsPerThread (.num (-2), 0)
      (Or.inl ⟨rfl, fun i hi => absurd hi (Nat.not_lt_zero i)⟩) fun i found _ => foundMax_succ

/-! ## Correlations merged one by one -/

omit [Field K] in
/-- The maximum with a number, whatever becomes of the index. -/
theorem best_max (e : MpEntry K) (v : K) (n : ℕ) {f : Dbl K → Dbl K}
    (hf : ∀ o, f (.num o) = .num (max o v)) : Best false e {[⟨v, n⟩]} { e with value := f e.value } := by
  intro o ho
  rw [ho, hf]
  refine ⟨max o v, rfl, le_max_left o v, fun b hb h hh => ?_, ?_⟩
  · obtain rfl := Multiset.mem_singleton.mp hb
    rw [List.mem_singleton.mp hh]
    exact le_max_right o v
  · by_cases hlt : o < v
    · exact Or.inr ⟨_, Multiset.mem_singleton_self _, ⟨v, n⟩, List.mem_singleton_self _, hlt,
        max_eq_right hlt.le, fun h => by cases h⟩
    · refine Or.inl ?_
      rw [max_eq_left (not_lt.mp hlt), ← ho]

omit [Field K] in
/-- An entry that no hit is above. -/
theorem best_of_le {keeps : Bool} {e : MpEntry K} {hits : Block K} {v : K} (hv : e.value = .num v)
    (hle : ∀ h ∈ hits, h.corr ≤ v) : Best keeps e {hits} e := by
  intro w hw
  obtain rfl := Dbl.num.inj (hv.symm.trans hw)
  refine ⟨v, hw, le_rfl, fun b hb h hh => ?_, Or.inl rfl⟩
  obtain rfl := Multiset.mem_singleton.mp hb
  exact hle h hh

/-! ## What the types that keep a maximum do -/

/-- The types that keep the index of the match with the maximum. -/
theorem keepsIndex_cases {type : SCAMPProfileType} (h : keepsIndex type = true) :
    type = .oneNNIndex ∨ type = .matrixSummary ∨ type = .approxAllNeighbors := by
  cases type <;> simp [keepsIndex] at h ⊢

theorem keepsIndex_oneNN {type : SCAMPProfileType} (h : type = .oneNN) : keepsIndex type = false := by
  rw [h]
  rfl

/-- The types that keep a maximum. -/
def KeepsMax (type : SCAMPProfileType) : Prop := keepsIndex type = true ∨ type = .oneNN

omit [LinearOrder K] in
theorem initDist_of_keepsMax {type : SCAMPProfileType} (h : KeepsMax type) : (initDist type : K) = -2 := by
  rcases h with h | rfl
  · rcases keepsIndex_cases h with rfl | rfl | rfl <;> rfl
  · rfl

omit [Field K] in
theorem fmaxf_num (x y : K) : fmaxf (.num x) (.num y) = .num (max x y) := rfl

theorem mergeToRow_oneNN (hone : k.type = .oneNN) (rowIter : ℕ) (info : SCAMPThreadInfo K) (dist : ℕ → Dbl K)
    (best : MpEntry K) :
    mergeToRow k rowIter info dist best = { best with value := fmaxf best.value (maxDist k dist).1 } := by
  unfold mergeToRow
  rw [hone]

section
variable (hkeeps : keepsIndex k.type = true)
include hkeeps

theorem mergeColumn_index (globalRow : ℕ) (best : MpEntry K) (dist : Dbl K) :
    mergeColumn k globalRow best dist =
      if dist.gt best.value then ⟨dist, UInt32.ofNat globalRow⟩ else best := by
  unfold mergeColumn
  rcases keepsIndex_cases hkeeps with h | h | h <;> rw [h]

theorem edgeColumn_index (globalRow : ℕ) (e : MpEntry K) (dist : Dbl K) :
    edgeColumn k globalRow e dist = mpAtomicMax e dist (UInt32.ofNat globalRow) := by
  unfold edgeColumn
  rcases keepsIndex_cases hkeeps with h | h | h <;> rw [h]

theorem flushColumn_index (e best : MpEntry K) :
    flushColumn k e best = mpAtomicMaxCheck e best.value best.index e.value := by
  unfold flushColumn flushMax
  rcases keepsIndex_cases hkeeps with h | h | h <;> rw [h]

theorem mergeToRow_index (rowIter : ℕ) (info : SCAMPThreadInfo K) (dist : ℕ → Dbl K) (best : MpEntry K) :
    mergeToRow k rowIter info dist best =
      if (maxDist k dist).1.gt best.value then
        ⟨(maxDist k dist).1, UInt32.ofNat ((maxDist k dist).2 + (info.globalCol + rowIter))⟩
      else best := by
  unfold mergeToRow
  rcases keepsIndex_cases hkeeps with h | h | h <;> rw [h]

theorem edgeRow_index (globalCol : ℕ) (best : MpEntry K) (dist : Dbl K) :
    edgeRow k globalCol best dist =
      if dist.gt best.value then ⟨dist, UInt32.ofNat globalCol⟩ else best := by
  unfold edgeRow
  rcases keepsIndex_cases hkeeps with h | h | h <;> rw [h]

theorem flushRow_index (lane : ℕ) (peers : ℕ → Dbl K) (e best : MpEntry K) :
    flushRow k lane peers e best = mpAtomicMaxCheck e best.value best.index e.value := by
  unfold flushRow flushMax
  rcases keepsIndex_cases hkeeps with h | h | h <;> rw [h]

theorem reduceRow_index (e distRow : MpEntry K) :
    reduceRow k e distRow = mpAtomicMaxCheck e distRow.value distRow.index (.num (-2)) := by
  unfold reduceRow
  rcases keepsIndex_cases hkeeps with h | h | h <;> rw [h]

end

/-! ## Registers and entries take in the same correlations -/

/-- The correlations of a column of the parallelogram, with the rows they are in. -/
def columnHits (k : Instance K) (info : SCAMPThreadInfo K) (smem : SCAMPSmem K) (p : ℕ) : Block K :=
  numbers (columnOffers k info smem k.outerUnrolledRows p)

/-- The correlations of a row, with the columns they are in. -/
def rowHits (k : Instance K) (info : SCAMPThreadInfo K) (smem : SCAMPSmem K) (row : ℕ) : Block K :=
  numbers (rowOffers k info smem row)

variable {raw : RawRegisters K} {info : SCAMPThreadInfo K} {smem : SCAMPSmem K}

/-- **A register of a column.** -/
theorem colReg_best (raw : RawRegisters K) (info : SCAMPThreadInfo K) (smem : SCAMPSmem K)
    (hmax : KeepsMax k.type) (p : ℕ) :
    Best (keepsIndex k.type) ⟨.num (-2), raw.idxc p⟩ {columnHits k info smem p}
      (colReg k raw info smem k.outerUnrolledRows p) := by
  unfold colReg
  rw [initDist_of_keepsMax hmax]
  rcases hmax with hkeeps | hone
  · refine best_foldl (fun e v row => ?_) (fun e row => ?_) _ _
    · rw [mergeColumn_index hkeeps]
      exact best_column e v row fun _ => rfl
    · rw [mergeColumn_index hkeeps]
      rfl
  · refine best_foldl (fun e v row => ?_) (fun e row => ?_) _ _ <;> unfold mergeColumn <;> rw [hone]
    · exact best_column e v row fun h => by cases h
    · rfl

/-- **An entry of a column** that `do_row_edge` changes directly. -/
theorem edgeCol_best (info : SCAMPThreadInfo K) (smem : SCAMPSmem K) (hmax : KeepsMax k.type) (p : ℕ)
    (stored : MpEntry K) :
    Best (keepsIndex k.type) stored {columnHits k info smem p}
      (edgeCol k info smem k.outerUnrolledRows p stored) := by
  unfold edgeCol
  rcases hmax with hkeeps | hone
  · refine best_foldl (fun e v row => ?_) (fun e row => ?_) _ _
    · rw [edgeColumn_index hkeeps]
      exact best_column e v row fun _ => rfl
    · rw [edgeColumn_index hkeeps]
      rfl
  · refine best_foldl (fun e v row => ?_) (fun e row => ?_) _ _ <;> unfold edgeColumn <;> rw [hone]
    · exact best_max e v row (f := fun o => fAtomicMax o (.num v)) fun _ => rfl
    · rfl

/-- An entry that is NaN stays as it is. -/
theorem edgeCol_nan (info : SCAMPThreadInfo K) (smem : SCAMPSmem K) (hmax : KeepsMax k.type) (p : ℕ)
    {stored : MpEntry K} (hnan : stored.value = .nan) :
    edgeCol k info smem k.outerUnrolledRows p stored = stored := by
  refine foldl_nan (fun e o he => ?_) _ hnan
  rcases hmax with hkeeps | hone
  · rw [edgeColumn_index hkeeps]
    unfold mpAtomicMax
    rw [he]
    cases o.1 <;> rfl
  · unfold edgeColumn
    rw [hone]
    obtain ⟨value, index⟩ := e
    obtain rfl : value = .nan := he
    cases o.1 <;> rfl

/-- The numbers a row is offered. -/
theorem mem_rowHits {row : ℕ} {h : Hit K} :
    h ∈ rowHits k info smem row ↔
      ∃ i < k.diagsPerThread, distAt info smem row i = .num h.corr ∧ info.globalCol + row + i = h.pos := by
  unfold rowHits rowOffers
  rw [mem_numbers]
  simp only [List.mem_map, List.mem_range, Prod.mk.injEq]

/-- **A register of a row.** -/
theorem rowReg_best {row : ℕ} {reg : MpEntry K} (hmax : KeepsMax k.type)
    (hreg : RowReg k raw info smem row reg) :
    Best (keepsIndex k.type) ⟨.num (-2), raw.idxr row⟩ {rowHits k info smem row} reg := by
  obtain ⟨dist, hdist, rfl⟩ := hreg
  rw [initDist_of_keepsMax hmax]
  rcases foundMax_maxDist (k := k) dist with ⟨hfound, hle⟩ | ⟨i, hi, v, hv, hfound, hgt, hle⟩
  · -- nothing is above `-2`
    have hstay : mergeToRow k row info dist ⟨.num (-2), raw.idxr row⟩ = ⟨.num (-2), raw.idxr row⟩ := by
      rcases hmax with hkeeps | hone
      · rw [mergeToRow_index hkeeps, hfound, Dbl.gt_num, if_neg (by simp)]
      · rw [mergeToRow_oneNN hone, hfound, fmaxf_num, max_self]
    rw [hstay]
    refine best_of_le rfl fun h hh => ?_
    obtain ⟨j, hj, hcorr, -⟩ := mem_rowHits.mp hh
    exact hle j hj _ ((hdist j hj).trans hcorr)
  · have hmem : (⟨v, info.globalCol + row + i⟩ : Hit K) ∈ rowHits k info smem row :=
      mem_rowHits.mpr ⟨i, hi, (hdist i hi).symm.trans hv, rfl⟩
    have hdom : ∀ h ∈ rowHits k info smem row, h.corr ≤ v := by
      intro h hh
      obtain ⟨j, hj, hcorr, -⟩ := mem_rowHits.mp hh
      exact hle j hj _ ((hdist j hj).trans hcorr)
    rcases hmax with hkeeps | hone
    · rw [mergeToRow_index hkeeps, hfound]
      exact best_of_block hmem hdom fun _ => by rw [Nat.add_comm]
    · have hbest := best_of_block (e := ⟨.num (-2), raw.idxr row⟩) hmem hdom
        (fun h => absurd h (by decide) : false = true → raw.idxr row = _)
      rw [Dbl.gt_num, if_pos (decide_eq_true hgt)] at hbest
      rw [mergeToRow_oneNN hone, hfound, fmaxf_num, max_eq_right hgt.le, hone]
      exact hbest

/-- **What `do_row_edge` makes of a row.** -/
theorem edgeRowReg_best (info : SCAMPThreadInfo K) (smem : SCAMPSmem K) (hmax : KeepsMax k.type) (row : ℕ) :
    Best (keepsIndex k.type) ⟨.num (-2), 0⟩ {rowHits k info smem row}
      (edgeRowReg k info smem row) := by
  unfold edgeRowReg
  rw [initDist_of_keepsMax hmax]
  rcases hmax with hkeeps | hone
  · refine best_foldl (fun e v col => ?_) (fun e col => ?_) _ _
    · rw [edgeRow_index hkeeps]
      exact best_column e v col fun _ => rfl
    · rw [edgeRow_index hkeeps]
      rfl
  · refine best_foldl (fun e v col => ?_) (fun e col => ?_) _ _ <;> unfold edgeRow <;> rw [hone]
    · exact best_max e v col (f := fun o => fmaxf o (.num v)) fun _ => rfl
    · rfl

/-! ## One entry -/

/-- Two ways of merging hits into an entry agree: the value is the same, and the index, if there is one, is
    that of a hit with this value when the entry has changed. -/
structure EntryAgrees (type : SCAMPProfileType) (hits : Block K) (stored fast edge : MpEntry K) : Prop where
  value : fast.value = edge.value
  fastAttained : keepsIndex type = true → Attained hits stored fast
  edgeAttained : keepsIndex type = true → Attained hits stored edge

/-- The `-2` a register of a column starts from does not get in the way: the entry is not below it, or it
    gives way to a correlation. `g` is what the register for the index held before. -/
def ColumnClear (type : SCAMPProfileType) (g : UInt32) (hits : Block K) (stored : MpEntry K) : Prop :=
  match type with
  | .oneNN => NotBelowInit stored ∨ ∃ h ∈ hits, -2 ≤ h.corr
  | .oneNNIndex | .matrixSummary | .approxAllNeighbors =>
      NotBelowInit stored ∨ (∃ h ∈ hits, -2 < h.corr) ∨ ∃ h ∈ hits, h.corr = -2 ∧ UInt32.ofNat h.pos = g
  | _ => True

/-- The same for a row, which `do_row_edge` collects in a register as well. -/
def RowClear (type : SCAMPProfileType) (hits : Block K) (stored : MpEntry K) : Prop :=
  match type with
  | .oneNNIndex | .matrixSummary | .approxAllNeighbors => NotBelowInit stored ∨ ∃ h ∈ hits, -2 < h.corr
  | _ => True

omit [Field K] [LinearOrder K] in
theorem entryAgrees_refl (type : SCAMPProfileType) (hits : Block K) (stored : MpEntry K) :
    EntryAgrees type hits stored stored stored := ⟨rfl, fun _ => Or.inl rfl, fun _ => Or.inl rfl⟩

omit [Field K] [LinearOrder K] in
/-- Entries that both ways leave alone when their profile is not computed. -/
theorem entryAgrees_when {type : SCAMPProfileType} {hits : Block K} {stored fast edge : MpEntry K}
    {on inside clear : Prop} [Decidable on] [Decidable inside] (hin : inside)
    (h : on → (EntryAgrees type hits stored fast edge ↔ clear)) :
    EntryAgrees type hits stored (if on ∧ inside then fast else stored) (if on ∧ inside then edge else stored) ↔
      (on → clear) := by
  by_cases hon : on
  · rw [if_pos ⟨hon, hin⟩, if_pos ⟨hon, hin⟩]
    exact (h hon).trans ⟨fun hclear _ => hclear, fun hclear => hclear hon⟩
  · rw [if_neg fun hboth => hon hboth.1, if_neg fun hboth => hon hboth.1]
    exact iff_of_true (entryAgrees_refl ..) fun hon' => absurd hon' hon

omit [Field K] [LinearOrder K] in
theorem entryAgrees_of_eq {type : SCAMPProfileType} (hkeeps : ¬keepsIndex type = true) {hits : Block K}
    {stored fast edge : MpEntry K} (h : fast.value = edge.value) : EntryAgrees type hits stored fast edge :=
  ⟨h, fun h' => absurd h' hkeeps, fun h' => absurd h' hkeeps⟩

omit [Field K] in
theorem attained_of_best {hits : Block K} {stored edge : MpEntry K} (h : Best true stored {hits} edge)
    (hstay : stored.value = .nan → edge = stored) : Attained hits stored edge := by
  cases hs : stored.value with
  | nan => exact Or.inl (hstay hs)
  | num s =>
      obtain ⟨v, hv, -, -, hatt⟩ := best_hits h hs
      rcases hatt with heq | ⟨hit, hmem, -, rfl, hidx⟩
      · exact Or.inl heq
      · exact Or.inr ⟨hit, hmem, hv, hidx rfl⟩

/-- What `do_row_edge` takes to a row is attained. -/
theorem attained_reduceRow {hits : Block K} {stored acc : MpEntry K} {g : UInt32}
    (h : Best true ⟨.num (-2), g⟩ {hits} acc) :
    Attained hits stored (mpAtomicMaxCheck stored acc.value acc.index (.num (-2))) := by
  obtain ⟨v, hv, -, -, hatt⟩ := register_cases h
  unfold mpAtomicMaxCheck mpAtomicMax
  rw [hv]
  rcases hatt with ⟨rfl, -⟩ | ⟨hit, hmem, -, rfl, hidx⟩
  · rw [Dbl.gt_num, if_neg (by simp)]
    exact Or.inl rfl
  · split
    · split
      · exact Or.inr ⟨hit, hmem, rfl, hidx rfl⟩
      · exact Or.inl rfl
    · exact Or.inl rfl

/-- What a type keeps: a maximum with its index, a maximum, a sum, or nothing. -/
theorem type_cases (type : SCAMPProfileType) : keepsIndex type = true ∨ type = .oneNN ∨ type = .sumThresh ∨
    ¬keepsIndex type = true ∧
      (type = .invalid ∨ type = .frequencyThresh ∨ type = .knn ∨ type = .oneNNMultidim) := by
  cases type <;> simp [keepsIndex]

theorem columnClear_index {type : SCAMPProfileType} (hkeeps : keepsIndex type = true) {g : UInt32}
    {hits : Block K} {stored : MpEntry K} : ColumnClear type g hits stored ↔
      NotBelowInit stored ∨ (∃ h ∈ hits, -2 < h.corr) ∨ ∃ h ∈ hits, h.corr = -2 ∧ UInt32.ofNat h.pos = g := by
  rcases keepsIndex_cases hkeeps with rfl | rfl | rfl <;> exact Iff.rfl

theorem rowClear_index {type : SCAMPProfileType} (hkeeps : keepsIndex type = true) {hits : Block K}
    {stored : MpEntry K} : RowClear type hits stored ↔ NotBelowInit stored ∨ ∃ h ∈ hits, -2 < h.corr := by
  rcases keepsIndex_cases hkeeps with rfl | rfl | rfl <;> exact Iff.rfl

/-- A type that keeps nothing leaves columns as they are. -/
theorem column_unchanged (raw : RawRegisters K) (info : SCAMPThreadInfo K) (smem : SCAMPSmem K)
    (p : ℕ) (stored : MpEntry K)
    (hnone : k.type = .invalid ∨ k.type = .frequencyThresh ∨ k.type = .knn ∨ k.type = .oneNNMultidim) :
    flushColumn k stored (colReg k raw info smem k.outerUnrolledRows p) = stored ∧
      edgeCol k info smem k.outerUnrolledRows p stored = stored := by
  have hedge : edgeColumn k = fun _ e _ => e := by
    funext _ e _
    unfold edgeColumn
    rcases hnone with h | h | h | h <;> rw [h]
  constructor
  · unfold flushColumn flushMax
    rcases hnone with h | h | h | h <;> rw [h]
  · unfold edgeCol
    rw [hedge, List.foldl_fixed]

theorem row_unchanged (info : SCAMPThreadInfo K) (smem : SCAMPSmem K) (lane row : ℕ) (peers : ℕ → Dbl K)
    (stored reg : MpEntry K)
    (hnone : k.type = .invalid ∨ k.type = .frequencyThresh ∨ k.type = .knn ∨ k.type = .oneNNMultidim) :
    flushRow k lane peers stored reg = stored ∧
      reduceRow k stored (edgeRowReg k info smem row) = stored := by
  unfold flushRow flushMax reduceRow
  rcases hnone with h | h | h | h <;> rw [h] <;> exact ⟨rfl, rfl⟩

/-- **A column**, whatever the type. -/
theorem column_agrees_iff (p : ℕ) (stored : MpEntry K) :
    EntryAgrees k.type (columnHits k info smem p) stored
        (flushColumn k stored (colReg k raw info smem k.outerUnrolledRows p))
        (edgeCol k info smem k.outerUnrolledRows p stored) ↔
      ColumnClear k.type (raw.idxc p) (columnHits k info smem p) stored := by
  rcases type_cases k.type with hkeeps | hone | hsum | ⟨hkeeps, hnone⟩
  · have hreg := colReg_best raw info smem (Or.inl hkeeps) p
    have hedge := edgeCol_best info smem (Or.inl hkeeps) p stored
    have hstay := fun hnan : stored.value = .nan => edgeCol_nan info smem (Or.inl hkeeps) p hnan
    rw [hkeeps] at hreg hedge
    rw [flushColumn_index hkeeps, columnClear_index hkeeps, ← indexColumn_agrees_iff hreg hedge hstay]
    exact ⟨fun h => ⟨h.value, h.fastAttained hkeeps⟩,
      fun h => ⟨h.1, fun _ => h.2, fun _ => attained_of_best hedge hstay⟩⟩
  · have hreg := colReg_best raw info smem (Or.inr hone) p
    have hedge := edgeCol_best info smem (Or.inr hone) p stored
    have hstay := fun hnan : stored.value = .nan => edgeCol_nan info smem (Or.inr hone) p hnan
    rw [keepsIndex_oneNN hone] at hreg hedge
    have hiff := valueColumn_agrees_iff hreg hedge hstay
    unfold flushColumn
    rw [hone]
    refine Iff.trans ⟨fun h => h.value, fun h => entryAgrees_of_eq (by decide) h⟩ hiff
  · rw [flushColumn_total hsum, edgeCol_total hsum, hsum]
    exact iff_of_true (entryAgrees_of_eq (by decide) rfl) trivial
  · obtain ⟨hfast, hedge⟩ := column_unchanged raw info smem p stored hnone
    rw [hfast, hedge]
    refine iff_of_true (entryAgrees_of_eq hkeeps rfl) ?_
    rcases hnone with h | h | h | h <;> rw [h] <;> trivial

/-- **A row** of a type that does not add up. -/
theorem row_agrees_iff (hsum : k.type ≠ .sumThresh) {lane row : ℕ} {peers : ℕ → Dbl K} {reg : MpEntry K}
    (hreg : RowReg k raw info smem row reg) (stored : MpEntry K) :
    EntryAgrees k.type (rowHits k info smem row) stored (flushRow k lane peers stored reg)
        (reduceRow k stored (edgeRowReg k info smem row)) ↔
      RowClear k.type (rowHits k info smem row) stored := by
  rcases type_cases k.type with hkeeps | hone | hthresh | ⟨hkeeps, hnone⟩
  · have hbest := rowReg_best (Or.inl hkeeps) hreg
    have hacc := edgeRowReg_best info smem (Or.inl hkeeps) row
    rw [hkeeps] at hbest hacc
    rw [flushRow_index hkeeps, reduceRow_index hkeeps, rowClear_index hkeeps,
      ← indexRow_agrees_iff hbest hacc]
    exact ⟨fun h => ⟨h.value, h.fastAttained hkeeps⟩,
      fun h => ⟨h.1, fun _ => h.2, fun _ => attained_reduceRow hacc⟩⟩
  · have hbest := rowReg_best (Or.inr hone) hreg
    have hacc := edgeRowReg_best info smem (Or.inr hone) row
    rw [keepsIndex_oneNN hone] at hbest hacc
    unfold flushRow reduceRow
    rw [hone]
    exact iff_of_true (entryAgrees_of_eq (by decide) (valueRow_agrees hbest hacc)) trivial
  · exact absurd hthresh hsum
  · obtain ⟨hfast, hedge⟩ := row_unchanged info smem lane row peers stored reg hnone
    rw [hfast, hedge]
    refine iff_of_true (entryAgrees_of_eq hkeeps rfl) ?_
    rcases hnone with h | h | h | h <;> rw [h] <;> trivial

/-! ## A thread -/

/-- Every column and row of the parallelogram is flushed exactly once, after the last of its correlations. -/
structure FlushedOnce (k : Instance K) : Prop where
  cols : k.computeCols = true → ∀ p < k.unrolledCols,
    Lib.OnceAfter (FlushesCol p) (ReachesCol k p) (iterationSteps k)
  rows : k.computeRows = true → ∀ row < k.outerUnrolledRows,
    Lib.OnceAfter (FlushesRow row) (ReachesRow k row) (iterationSteps k)

/-- What `do_iteration_fast` and the calls of `do_row_edge` leave is the same. The rows of `SUM_THRESH` are a
    matter of the warp. -/
structure ThreadAgrees (k : Instance K) (info : SCAMPThreadInfo K) (smem : SCAMPSmem K)
    (fast edge : SCAMPThreadInfo K × SCAMPSmem K) : Prop where
  moved : Moved info k.outerUnrolledRows fast.1 ∧ Moved info k.outerUnrolledRows edge.1
  cov : ∀ i < k.diagsPerThread, fast.1.cov i = edge.1.cov i
  stats : fast.2.col = edge.2.col ∧ fast.2.row = edge.2.row
  cols : ∀ p < k.unrolledCols, EntryAgrees k.type (columnHits k info smem p)
    (smem.localMpCol (info.localCol + p)) (fast.2.localMpCol (info.localCol + p))
    (edge.2.localMpCol (info.localCol + p))
  rows : k.type ≠ .sumThresh → ∀ row < k.outerUnrolledRows, EntryAgrees k.type (rowHits k info smem row)
    (smem.localMpRow (info.localRow + row)) (fast.2.localMpRow (info.localRow + row))
    (edge.2.localMpRow (info.localRow + row))
  otherCols : ∀ x, ¬(info.localCol ≤ x ∧ x < info.localCol + k.unrolledCols) →
    fast.2.localMpCol x = smem.localMpCol x ∧ edge.2.localMpCol x = smem.localMpCol x
  otherRows : ∀ x, ¬(info.localRow ≤ x ∧ x < info.localRow + k.outerUnrolledRows) →
    fast.2.localMpRow x = smem.localMpRow x ∧ edge.2.localMpRow x = smem.localMpRow x

/-- Neither of the two ways accesses shared memory outside its arrays, and they leave the same. -/
def FastAgrees (k : Instance K) (lane : ℕ) (peers : ℕ → ℕ → Dbl K) (raw : RawRegisters K)
    (diag numDiags : ℕ) (info : SCAMPThreadInfo K) (smem : SCAMPSmem K) : Prop :=
  FlushedOnce k ∧ ∃ fast edge, doIterationFast k lane peers raw info smem = some fast ∧
    doRowsEdge k diag numDiags k.outerUnrolledRows info smem = some edge ∧ ThreadAgrees k info smem fast edge

/-- The `-2` of the registers gets in the way of no entry. -/
structure EntriesClear (k : Instance K) (raw : RawRegisters K) (info : SCAMPThreadInfo K)
    (smem : SCAMPSmem K) : Prop where
  cols : k.computeCols = true → ∀ p < k.unrolledCols, ColumnClear k.type (raw.idxc p)
    (columnHits k info smem p) (smem.localMpCol (info.localCol + p))
  rows : k.computeRows = true → ∀ row < k.outerUnrolledRows, RowClear k.type (rowHits k info smem row)
    (smem.localMpRow (info.localRow + row))

omit [Field K] in
theorem flushedOnce (k : Instance K) : FlushedOnce k :=
  ⟨fun hon _ hp => flushedOnce_col hon hp, fun hon _ hrow => flushedOnce_row hon hrow⟩

theorem rowClear_sumThresh {hits : Block K} {stored : MpEntry K} (hsum : k.type = .sumThresh) :
    RowClear k.type hits stored := by
  rw [hsum]
  trivial

variable {lane : ℕ} {peers : ℕ → ℕ → Dbl K} {diag numDiags : ℕ}

/-- **A thread whose window is in the tile.** -/
theorem threadAgrees_iff {st : IterationState K} {edge : SCAMPThreadInfo K × SCAMPSmem K}
    (h : FastAt k raw lane peers info smem k.outerUnrolledRows k.unrolledCols k.outerUnrolledRows st)
    (h' : EdgeAfter k info smem k.outerUnrolledRows edge.1 edge.2) :
    ThreadAgrees k info smem (st.info.advance k.outerUnrolledRows, st.smem) edge ↔
      EntriesClear k raw info smem := by
  have hcol : ∀ p < k.unrolledCols,
      (EntryAgrees k.type (columnHits k info smem p) (smem.localMpCol (info.localCol + p))
          (st.smem.localMpCol (info.localCol + p)) (edge.2.localMpCol (info.localCol + p)) ↔
        (k.computeCols = true → ColumnClear k.type (raw.idxc p) (columnHits k info smem p)
          (smem.localMpCol (info.localCol + p)))) := by
    intro p hp
    rw [h.mpCol, h'.mpCol_inside, Nat.add_sub_cancel_left]
    exact entryAgrees_when ⟨by omega, by omega⟩ fun _ => column_agrees_iff p _
  have hrow : k.type ≠ .sumThresh → ∀ row < k.outerUnrolledRows,
      (EntryAgrees k.type (rowHits k info smem row) (smem.localMpRow (info.localRow + row))
          (st.smem.localMpRow (info.localRow + row)) (edge.2.localMpRow (info.localRow + row)) ↔
        (k.computeRows = true → RowClear k.type (rowHits k info smem row)
          (smem.localMpRow (info.localRow + row)))) := by
    intro hsum row hlt
    rw [h.mpRow, h'.mpRow, Nat.add_sub_cancel_left]
    exact entryAgrees_when ⟨by omega, by omega⟩ fun hon => row_agrees_iff hsum (h.bestRow hon row hlt) _
  constructor
  · intro hagrees
    refine ⟨fun hon p hp => (hcol p hp).mp (hagrees.cols p hp) hon, fun hon row hlt => ?_⟩
    -- rows of sums agree in any case
    by_cases hsum : k.type = .sumThresh
    · exact rowClear_sumThresh hsum
    · exact (hrow hsum row hlt).mp (hagrees.rows hsum row hlt) hon
  · intro hclear
    refine ⟨⟨?_, h'.pos⟩, fun i hi => (h.cov i hi).trans (h'.cov i hi).symm, ?_, fun p hp => ?_,
      fun hsum row hlt => ?_, fun x hx => ⟨?_, ?_⟩, fun x hx => ⟨?_, ?_⟩⟩
    · obtain ⟨hlocalRow, hlocalCol, hglobalRow, hglobalCol⟩ := h.pos
      refine ⟨?_, ?_, ?_, ?_⟩
      · show st.info.localRow + _ = _
        rw [hlocalRow, Nat.add_zero]
      · show st.info.localCol + _ = _
        rw [hlocalCol, Nat.add_zero]
      · show st.info.globalRow + _ = _
        rw [hglobalRow, Nat.add_zero]
      · show st.info.globalCol + _ = _
        rw [hglobalCol, Nat.add_zero]
    · exact ⟨h.stats.1.trans h'.stats.1.symm, h.stats.2.trans h'.stats.2.symm⟩
    · exact (hcol p hp).mpr fun hon => hclear.cols hon p hp
    · exact (hrow hsum row hlt).mpr fun hon => hclear.rows hon row hlt
    · -- outside the parallelogram both leave the entries as they are
      exact (h.mpCol x).trans (if_neg fun hin => hx hin.2)
    · exact (h'.mpCol_inside x).trans (if_neg fun hin => hx hin.2)
    · exact (h.mpRow x).trans (if_neg fun hin => hx hin.2)
    · exact (h'.mpRow x).trans (if_neg fun hin => hx hin.2)

/-- A thread, for every parallelogram in the tile. -/
theorem fastAgrees_iff (hin : InTile k info diag numDiags) :
    FastAgrees k lane peers raw diag numDiags info smem ↔
      WindowInTile k info ∧ EntriesClear k raw info smem := by
  obtain ⟨edge, hedge, hafter⟩ : ∃ next, doRowsEdge k diag numDiags k.outerUnrolledRows info smem = some next ∧
      EdgeAfter k info smem k.outerUnrolledRows next.1 next.2 := edgeRun hin
  have hfast : ∀ hroom : WindowInTile k info, ∃ st,
      doIterationFast k lane peers raw info smem = some (st.info.advance k.outerUnrolledRows, st.smem) ∧
      FastAt k raw lane peers info smem k.outerUnrolledRows k.unrolledCols k.outerUnrolledRows st := by
    intro hroom
    obtain ⟨st, -, hcall, h⟩ := fastCall hin.rows hroom
    exact ⟨st, hcall, h⟩
  constructor
  · rintro ⟨-, next, edge', hnext, hedge', hagrees⟩
    have hroom := windowInTile_of_call hnext
    obtain ⟨st, hcall, h⟩ := hfast hroom
    obtain rfl := Option.some.inj (hnext.symm.trans hcall)
    obtain rfl := Option.some.inj (hedge'.symm.trans hedge)
    exact ⟨hroom, (threadAgrees_iff h hafter).mp hagrees⟩
  · rintro ⟨hroom, hclear⟩
    obtain ⟨st, hcall, h⟩ := hfast hroom
    exact ⟨flushedOnce k, _, edge, hcall, hedge, (threadAgrees_iff h hafter).mpr hclear⟩

end

/-! ## Every call -/

section
variable {K : Type} [Field K] [LinearOrder K]

/-- **`do_iteration_fast` against the calls of `do_row_edge`**: a thread leaves the same exactly when its window
    is in the tile and the `-2` of its registers gets in the way of no entry; for `SUM_THRESH`, where a warp
    adds up the rows, the threads of a warp leave the same sums exactly when their windows are in the tile. -/
theorem iteration_agrees_iff (k : Instance K) (numDiags : ℕ) (smem : SCAMPSmem K) :
    (∀ lane peers raw diag info, InTile k info diag numDiags →
      (FastAgrees k lane peers raw diag numDiags info smem ↔
        WindowInTile k info ∧ EntriesClear k raw info smem)) ∧
    (k.type = .sumThresh → ∀ raw info diag localRow, (∀ l < 32, InTile k (info l) (diag l) numDiags) →
      (∀ l < 32, (info l).localRow = localRow) →
      ((∃ sm, warpIterationFast k raw info smem = some sm ∧
          warpRowsEdge k diag numDiags info smem = some sm) ↔
        ∀ l < 32, WindowInTile k (info l))) := by
  refine ⟨fun lane peers raw diag info hin => fastAgrees_iff hin, fun hsum raw info diag localRow hin hrow => ?_⟩
  constructor
  · rintro ⟨sm, hwarp, -⟩ l hl
    exact windowInTile_of_warp hwarp hl
  · intro hroom
    exact warpRun hsum hin hroom hrow

/-! ## An entry below `-2` -/

/-- One step of a search for a largest number. -/
def scanMax (x : ℕ → Dbl K) (found : Dbl K × ℕ) (i : ℕ) : Dbl K × ℕ :=
  match x i, found.1 with
  | .num v, .num w => if w < v then (.num v, i) else found
  | .num v, .nan => (.num v, i)
  | .nan, _ => found

/-- What the search has found among `n` entries. -/
def Scanned (x : ℕ → Dbl K) (n : ℕ) (found : Dbl K × ℕ) : Prop :=
  (found.1 = .nan ∧ ∀ i < n, x i = .nan) ∨
    ∃ i < n, ∃ v, x i = .num v ∧ found = (.num v, i) ∧ ∀ j < n, ∀ w, x j = .num w → w ≤ v

omit [Field K] in
theorem scanned_succ {x : ℕ → Dbl K} {n : ℕ} {found : Dbl K × ℕ} (h : Scanned x n found) :
    Scanned x (n + 1) (scanMax x found n) := by
  have hlast : ∀ {P : ℕ → Prop}, (∀ i < n, P i) → P n → ∀ i < n + 1, P i := by
    intro P hall hn i hi
    rcases Nat.lt_succ_iff_lt_or_eq.mp hi with hi | rfl
    · exact hall i hi
    · exact hn
  unfold scanMax
  rcases h with ⟨hfound, hnan⟩ | ⟨i, hi, v, hv, rfl, hmax⟩
  · rw [hfound]
    cases hx : x n with
    | nan => exact Or.inl ⟨hfound, hlast hnan hx⟩
    | num v =>
        refine Or.inr ⟨n, by omega, v, hx, rfl, hlast (fun j hj w hw => ?_) fun w hw => ?_⟩
        · rw [hnan j hj] at hw
          cases hw
        · exact (Dbl.num.inj (hw.symm.trans hx)).le
  · cases hx : x n with
    | nan =>
        refine Or.inr ⟨i, by omega, v, hv, rfl, hlast hmax fun w hw => ?_⟩
        rw [hx] at hw
        cases hw
    | num w =>
        dsimp only
        by_cases hlt : v < w
        · rw [if_pos hlt]
          refine Or.inr ⟨n, by omega, w, hx, rfl, hlast (fun j hj u hu => (hmax j hj u hu).trans hlt.le)
            fun u hu => ?_⟩
          exact (Dbl.num.inj (hu.symm.trans hx)).le
        · rw [if_neg hlt]
          refine Or.inr ⟨i, by omega, v, hv, rfl, hlast hmax fun u hu => ?_⟩
          rw [Dbl.num.inj (hu.symm.trans hx)]
          exact not_lt.mp hlt

omit [Field K] in
theorem scanned_foldl (n : ℕ) (x : ℕ → Dbl K) :
    Scanned x n ((List.range n).foldl (scanMax x) (.nan, 0)) :=
  Lib.foldl_range_inv (Scanned x) n (.nan, 0) (Or.inl ⟨rfl, fun i hi => absurd hi (Nat.not_lt_zero i)⟩)
    fun _ _ _ => scanned_succ

/-- A `maxCoeff` that searches the entries one after the other. -/
def scanMaxCoeff (K : Type) [LinearOrder K] : MaxCoeff K where
  coeff n x := (List.range n).foldl (scanMax x) (.nan, 0)
  coeff_num n x hsome := by
    rcases scanned_foldl n x with ⟨-, hnan⟩ | ⟨i, hi, v, hv, hfound, hmax⟩
    · obtain ⟨i, hi, v, hv⟩ := hsome
      rw [hnan i hi] at hv
      cases hv
    · exact ⟨i, hi, v, hv, hfound, hmax⟩
  coeff_nan n x hnan := by
    rcases scanned_foldl n x with ⟨hfound, -⟩ | ⟨i, hi, v, hv, -⟩
    · exact hfound
    · rw [hnan i hi] at hv
      cases hv

end

/-- A kernel of one diagonal and one row a thread. -/
def oneCell (type : SCAMPProfileType) : Instance ℚ where
  type := type
  computeRows := true
  computeCols := true
  diagsPerThread := 1
  unrolledRows := 1
  outerUnrolledRows := 1
  kernelTileIters := 1
  blocksz := 1
  unrolledRows_pos := Nat.one_pos
  diags_pos := Nat.one_pos
  unrolled_dvd_diags := dvd_rfl
  unrolled_dvd_outer := dvd_rfl
  threshold := 0
  nX := 2
  maxCoeff := scanMaxCoeff ℚ

/-- The norm of the only column is NaN, and every entry holds `stored`. -/
def ignoredColumn (stored : ℚ) : SCAMPSmem ℚ where
  col := ⟨fun _ => .num 0, fun _ => .num 0, fun _ => .nan⟩
  row := ⟨fun _ => .num 0, fun _ => .num 0, fun _ => .num 1⟩
  localMpCol _ := ⟨.num stored, 7⟩
  localMpRow _ := ⟨.num stored, 7⟩

def cornerInfo : SCAMPThreadInfo ℚ := ⟨fun _ => .num 0, 0, 0, 0, 0⟩

def zeroRegisters : RawRegisters ℚ where
  window := ⟨fun _ => .num 0, fun _ => .num 0, fun _ => .num 0⟩
  rowStats := ⟨fun _ => .num 0, fun _ => .num 0, fun _ => .num 0⟩
  idxc _ := 0
  idxr _ := 0

theorem cornerInfo_inTile (type : SCAMPProfileType) : InTile (oneCell type) cornerInfo 0 1 :=
  ⟨Nat.le_refl 1, Nat.le_succ 1, Nat.le_succ 1, Nat.le_refl 1⟩

/-- With entries at `-3` and no correlation to put there, the fast path stores the `-2` of its register, with
    the index the register happened to hold. -/
theorem not_fastAgrees_of_ignored :
    ¬∀ (k : Instance ℚ) lane peers raw diag numDiags info smem, InTile k info diag numDiags →
      FastAgrees k lane peers raw diag numDiags info smem := by
  intro hall
  obtain ⟨-, fast, edge, hfast, hedge, hagrees⟩ := hall (oneCell .approxAllNeighbors) 0 (fun _ _ => .num 0)
    zeroRegisters 0 1 cornerInfo (ignoredColumn (-3)) (cornerInfo_inTile _)
  have hvalue := (hagrees.cols 0 (by decide)).value
  have hfastValue : (doIterationFast (oneCell .approxAllNeighbors) 0 (fun _ _ => .num 0) zeroRegisters
      cornerInfo (ignoredColumn (-3))).map (fun next => (next.2.localMpCol 0).value) = some (.num (-2)) := by
    decide +kernel
  have hedgeValue : (doRowsEdge (oneCell .approxAllNeighbors) 0 1
      (oneCell .approxAllNeighbors).outerUnrolledRows cornerInfo (ignoredColumn (-3))).map
      (fun next => (next.2.localMpCol 0).value) = some (.num (-3)) := by
    decide +kernel
  rw [hfast] at hfastValue
  rw [hedge] at hedgeValue
  have hsame := ((Option.some.inj hfastValue).symm.trans hvalue).trans (Option.some.inj hedgeValue)
  exact absurd hsame (by decide +kernel)

/-- A kernel of two diagonals a thread, which computes two batches of two rows in a call. -/
def smallKernel (type : SCAMPProfileType) : Instance ℚ where
  type := type
  computeRows := true
  computeCols := true
  diagsPerThread := 2
  unrolledRows := 2
  outerUnrolledRows := 4
  kernelTileIters := 1
  blocksz := 32
  unrolledRows_pos := Nat.two_pos
  diags_pos := Nat.two_pos
  unrolled_dvd_diags := dvd_rfl
  unrolled_dvd_outer := ⟨2, rfl⟩
  threshold := 0
  nX := 70
  maxCoeff := scanMaxCoeff ℚ

/-- The statistics of a tile, where the norm of column `3` is NaN, and every entry holds `stored`. -/
def smallSmem (stored : ℚ) : SCAMPSmem ℚ where
  col := ⟨fun c => .num c, fun _ => .num 1, fun c => if c = 3 then .nan else .num (1 / 2)⟩
  row := ⟨fun _ => .num 1, fun r => .num r, fun _ => .num (1 / 2)⟩
  localMpCol _ := ⟨.num stored, 7⟩
  localMpRow _ := ⟨.num stored, 7⟩

/-- The threads of a warp at the first row of the tile. -/
def warpInfo (l : ℕ) : SCAMPThreadInfo ℚ := ⟨fun i => .num i, 0, 2 * l, 0, 2 * l⟩

theorem warpInfo_inTile (type : SCAMPProfileType) {l : ℕ} (hl : l < 32) :
    InTile (smallKernel type) (warpInfo l) (2 * l) 64 := by
  constructor
  · exact le_refl 4
  · show 2 * l + 5 ≤ 68
    omega
  · show 2 * l + 5 ≤ 70
    omega
  · show 2 * l + 2 ≤ 64
    omega

theorem iteration_agrees_iff_smallKernel :
    FastAgrees (smallKernel .oneNNIndex) 1 (fun _ _ => .num 0) zeroRegisters 2 64 (warpInfo 1) (smallSmem (-2)) ∧
    ∃ sm, warpIterationFast (smallKernel .sumThresh) (fun _ => zeroRegisters) warpInfo (smallSmem 0) = some sm ∧
      warpRowsEdge (smallKernel .sumThresh) (fun l => 2 * l) 64 warpInfo (smallSmem 0) = some sm := by
  have hclear : NotBelowInit (⟨.num (-2), 7⟩ : MpEntry ℚ) := by
    unfold NotBelowInit
    decide +kernel
  constructor
  · exact ((iteration_agrees_iff (smallKernel .oneNNIndex) 64 (smallSmem (-2))).1 1 (fun _ _ => .num 0)
      zeroRegisters 2 (warpInfo 1) (warpInfo_inTile _ (by decide))).mpr
      ⟨show 8 ≤ 68 by decide, fun _ _ _ => Or.inl hclear, fun _ _ _ => Or.inl hclear⟩
  · refine ((iteration_agrees_iff (smallKernel .sumThresh) 64 (smallSmem 0)).2 rfl (fun _ => zeroRegisters) warpInfo
      (fun l => 2 * l) 0 (fun l hl => warpInfo_inTile _ hl) fun _ _ => rfl).mpr fun l hl => ?_
    show 2 * l + 6 ≤ 68
    omega

end SlidingWindow

end Scamp
