import Scamp.Core.Correctness.Absorption
import Scamp.Core.Correctness.Cells

/-!
# `Core.Correctness.KernelRun` — a whole pass of the kernel

What `do_tile` does to its memory. The covariances it carries from row to row are those of the recurrence
`covAt`; every profile entry takes in the correlations of its own column or row, in the blocks the loop
partitions the diagonals into (`doTile_absorbs`). Taken together, the blocks are the cells of the pass
(`hitsOf_columnBlocks`, `hitsOf_rowBlocks`).
-/

namespace Scamp

open Lib

section
variable {K : Type} [Field K] [LinearOrder K]

/-! ## Covariances and contributions -/

/-- The covariance of diagonal `d` when the kernel visits row `row`: the initial one and the updates of the
    rows before. -/
def covAt (a : KernelArgs K) (cov : Buffer K) : ℕ → ℕ → K
  | 0, d => cov d
  | row + 1, d => covAt a cov row d + a.dfa (d + row) * a.dgb row + a.dga (d + row) * a.dfb row

/-- The number of diagonals of a row of the block at `tileDiag`. -/
def rowLen (U : ℕ) (a : KernelDims) (tileDiag row : ℕ) : ℕ := a.diagmax U tileDiag row - tileDiag

/-- What a visit to a row of a block offers column `c`. -/
def visitColumn (val : ℕ → ℕ → K) (tileDiag row len c : ℕ) : Multiset (Block K) :=
  if tileDiag + row ≤ c ∧ c < tileDiag + row + len then {[⟨val row c, row⟩]} else 0

/-- What a visit to a row of a block offers row `r`. -/
def visitRow (val : ℕ → ℕ → K) (tileDiag row len r : ℕ) : Multiset (Block K) :=
  if row = r then {rowBlock (fun d => val row (tileDiag + row + d)) (tileDiag + row) len} else 0

/-- What a pass offers column `c`. -/
def columnBlocks (U : ℕ) (a : KernelDims) (val : ℕ → ℕ → K) (c : ℕ) : Multiset (Block K) :=
  (forRange a.exclusionLower a.numDiags U : Multiset ℕ).bind fun tileDiag =>
    (Multiset.range (a.rowIters tileDiag)).bind fun row =>
      visitColumn val tileDiag row (rowLen U a tileDiag row) c

/-- What a pass offers row `r`. -/
def rowBlocks (U : ℕ) (a : KernelDims) (val : ℕ → ℕ → K) (r : ℕ) : Multiset (Block K) :=
  (forRange a.exclusionLower a.numDiags U : Multiset ℕ).bind fun tileDiag =>
    (Multiset.range (a.rowIters tileDiag)).bind fun row =>
      visitRow val tileDiag row (rowLen U a tileDiag row) r

/-- Contributions that only arrive when that side is computed. -/
def whenOn (on : Bool) (bs : Multiset (Block K)) : Multiset (Block K) := if on then bs else 0

/-! ## One row -/

/-- Row `row` of the block at `tileDiag`, by the fast or the slow path. -/
def handleRowAt (bld : KernelBuild K) (type : SCAMPProfileType) (rows cols : Bool) (a : KernelArgs K)
    (tileDiag row : ℕ) (s : KernelState K) : KernelState K :=
  if row < a.fullRowIters bld.unrollWid tileDiag then
    handleRowFast bld type rows cols a tileDiag row s
  else handleRowSlow bld type rows cols a tileDiag row s

omit [Field K] in
theorem unrollWid_pos (bld : Build K) : 0 < bld.unrollWid := bld.toKernelBuild.unrollWid_pos

/-- The fast and the slow loop of a block are one loop over its rows. -/
theorem doTile_eq (bld : KernelBuild K) (type : SCAMPProfileType) (rows cols : Bool) (a : KernelArgs K)
    (s : KernelState K) :
    doTile bld type rows cols a s =
      (forRange a.exclusionLower a.numDiags bld.unrollWid).foldl (fun s tileDiag =>
        (List.range (a.rowIters tileDiag)).foldl (fun s row =>
          handleRowAt bld type rows cols a tileDiag row s) s) s := by
  unfold doTile
  refine List.foldl_ext _ _ _ fun s tileDiag _ => ?_
  have hfast : ∀ s, (List.range (a.fullRowIters bld.unrollWid tileDiag)).foldl
      (fun s row => handleRowFast bld type rows cols a tileDiag row s) s =
      (List.range (a.fullRowIters bld.unrollWid tileDiag)).foldl
        (fun s row => handleRowAt bld type rows cols a tileDiag row s) s :=
    fun s => List.foldl_ext _ _ _ fun s row hrow => (if_pos (List.mem_range.mp hrow)).symm
  have hslow : ∀ s n, (List.range' (a.fullRowIters bld.unrollWid tileDiag) n).foldl
      (fun s row => handleRowSlow bld type rows cols a tileDiag row s) s =
      (List.range' (a.fullRowIters bld.unrollWid tileDiag) n).foldl
        (fun s row => handleRowAt bld type rows cols a tileDiag row s) s :=
    fun s n => List.foldl_ext _ _ _ fun s row hrow =>
      (if_neg (Nat.not_lt.mpr (List.mem_range'_1.mp hrow).1)).symm
  dsimp only
  rw [hfast, hslow, ← List.foldl_append,
    ← range_split (fullRowIters_le bld.unrollWid_pos tileDiag)]

variable {bld : Build K} {type : SCAMPProfileType} {threshold : K} (R : Absorption bld type threshold)

/-- A column update offers each column of the row its cell. -/
theorem updateColumnwise_rel (htype : type ≠ .matrixSummary) {a : KernelArgs K}
    (ha : a.threshold = threshold) (tileDiag row : ℕ) {corr : Vec (Dbl K)} {val : ℕ → ℕ → K}
    (hcorr : ∀ d < corr.size, corr.get d = .num (val row (tileDiag + row + d)))
    (mp : Buffer (MpEntry K)) (c : ℕ) :
    R.rel (mp c) (visitColumn val tileDiag row corr.size c)
      (updateColumnwise type a tileDiag row corr mp c) := by
  unfold updateColumnwise
  refine foldl_range_inv (fun i mp' => ∀ c, R.rel (mp c) (visitColumn val tileDiag row i c) (mp' c))
    corr.size mp ?_ ?_ c
  · intro c
    unfold visitColumn
    rw [if_neg (by omega)]
    exact R.refl _
  · intro i mp' hi hmp c
    rw [hcorr i hi]
    by_cases hc : c = tileDiag + row + i
    · -- the column of this cell had no cell before
      subst hc
      have hbefore := hmp (tileDiag + row + i)
      unfold visitColumn at hbefore ⊢
      rw [if_neg (by omega)] at hbefore
      rw [if_pos (by omega)]
      have := R.trans hbefore (R.column a ha mp' (val row (tileDiag + row + i)) row _)
      rwa [zero_add] at this
    · have hbefore := hmp c
      unfold visitColumn at hbefore ⊢
      rw [updateMp_column_other htype a mp' _ row hc]
      by_cases hin : tileDiag + row ≤ c ∧ c < tileDiag + row + i
      · rw [if_pos hin] at hbefore
        rwa [if_pos (by omega)]
      · rw [if_neg hin] at hbefore
        rwa [if_neg (by omega)]

theorem handleRow_profileA (reduceRow : SCAMPProfileType → Vec (Dbl K) → K → Dbl K × ℕ) (rows cols : Bool)
    (a : KernelArgs K) (tileDiag row len : ℕ) (s : KernelState K) :
    (handleRow reduceRow type rows cols a tileDiag row len s).profileA =
      if cols then updateColumnwise type a tileDiag row (rowCorr type a s.cov tileDiag row len) s.profileA
      else s.profileA := rfl

theorem handleRow_profileB (reduceRow : SCAMPProfileType → Vec (Dbl K) → K → Dbl K × ℕ) (rows cols : Bool)
    (a : KernelArgs K) (tileDiag row len : ℕ) (s : KernelState K) :
    (handleRow reduceRow type rows cols a tileDiag row len s).profileB =
      if rows then
        updateRowwise reduceRow type a tileDiag row (rowCorr type a s.cov tileDiag row len) s.profileB
      else s.profileB := rfl

/-- What one row of a block does to the memory. -/
structure RowEffect (rows cols : Bool) (a : KernelArgs K) (val : ℕ → ℕ → K) (tileDiag row len : ℕ)
    (s s' : KernelState K) : Prop where
  cov_in : ∀ d, tileDiag ≤ d → d < tileDiag + len →
    s'.cov d = s.cov d + a.dfa (d + row) * a.dgb row + a.dga (d + row) * a.dfb row
  cov_out : ∀ d, tileDiag + len ≤ d → s'.cov d = s.cov d
  column : ∀ c, R.rel (s.profileA c) (whenOn cols (visitColumn val tileDiag row len c)) (s'.profileA c)
  row : ∀ r, R.rel (s.profileB r) (whenOn rows (visitRow val tileDiag row len r)) (s'.profileB r)

/-- **One row.** Where the covariances give the correlations `val`, the profiles take these in. -/
theorem handleRowAt_effect (htype : type ≠ .matrixSummary) (rows cols : Bool) {a : KernelArgs K}
    (ha : a.threshold = threshold) {tileDiag row : ℕ} {val : ℕ → ℕ → K} {s : KernelState K}
    (hlen : 0 < rowLen bld.unrollWid a.toKernelDims tileDiag row)
    (hval : ∀ d < rowLen bld.unrollWid a.toKernelDims tileDiag row,
      dropNan type a (((Dbl.num (s.cov (tileDiag + d))).mul (a.normsa (tileDiag + row + d))).mul
        (a.normsb row)) = .num (val row (tileDiag + row + d))) :
    RowEffect R rows cols a val tileDiag row (rowLen bld.unrollWid a.toKernelDims tileDiag row) s
      (handleRowAt bld type rows cols a tileDiag row s) := by
  -- both paths are `handle_row` on the same diagonals, with a reduction that the row may be handed to
  obtain ⟨reduceRow, hred, heq⟩ : ∃ reduceRow : SCAMPProfileType → Vec (Dbl K) → K → Dbl K × ℕ,
      (∀ (mp : Buffer (MpEntry K)) (corr : Vec (Dbl K)) (x : ℕ → K),
        corr.size = rowLen bld.unrollWid a.toKernelDims tileDiag row →
        (∀ d < corr.size, corr.get d = .num (x d)) →
        R.rel (mp row) {rowBlock x (tileDiag + row) corr.size}
          (updateRowwise reduceRow type a tileDiag row corr mp row)) ∧
      handleRowAt bld type rows cols a tileDiag row s =
        handleRow reduceRow type rows cols a tileDiag row
          (rowLen bld.unrollWid a.toKernelDims tileDiag row) s := by
    unfold handleRowAt
    split
    · next hfast =>
        have hU : rowLen bld.unrollWid a.toKernelDims tileDiag row = bld.unrollWid :=
          diagmax_of_fast hfast
        refine ⟨reduceRowFast bld, fun mp corr x hsize hx => ?_, by rw [hU]; rfl⟩
        exact (R.row a ha mp tileDiag row (hsize ▸ hlen) hx).1 (hsize.trans hU)
    · refine ⟨reduceRowEigen bld, fun mp corr x hsize hx => ?_, rfl⟩
      exact (R.row a ha mp tileDiag row (hsize ▸ hlen) hx).2
  rw [heq]
  refine ⟨fun d h1 h2 => if_pos ⟨h1, h2⟩, fun d h => if_neg (by omega), fun c => ?_, fun r => ?_⟩
  · rw [handleRow_profileA]
    unfold whenOn
    cases cols with
    | false => exact R.refl _
    | true =>
        rw [if_pos rfl, if_pos rfl]
        have hcols : ∀ d < (rowCorr type a s.cov tileDiag row
            (rowLen bld.unrollWid a.toKernelDims tileDiag row)).size,
            (rowCorr type a s.cov tileDiag row
              (rowLen bld.unrollWid a.toKernelDims tileDiag row)).get d =
              .num (val row (tileDiag + row + d)) := hval
        exact updateColumnwise_rel R htype ha tileDiag row hcols s.profileA c
  · rw [handleRow_profileB]
    unfold whenOn
    cases rows with
    | false => exact R.refl _
    | true =>
        rw [if_pos rfl, if_pos rfl]
        unfold visitRow
        by_cases hr : row = r
        · subst hr
          rw [if_pos rfl]
          exact hred s.profileB (rowCorr type a s.cov tileDiag row _) _ rfl hval
        · rw [if_neg hr, updateRowwise_apply htype, if_neg (Ne.symm hr)]
          exact R.refl _

/-! ## One block of diagonals -/

/-- The cells of the pass have the correlations `val`, given the covariances of the recurrence. -/
def PassValues (type : SCAMPProfileType) (a : KernelArgs K) (cov : Buffer K) (val : ℕ → ℕ → K) : Prop :=
  ∀ row < a.nY, ∀ d < a.numDiags, row + d < a.nX →
    dropNan type a (((Dbl.num (covAt a cov row d)).mul (a.normsa (row + d))).mul (a.normsb row)) =
      .num (val row (row + d))

/-- What a pass over the blocks from `tileDiag` on, or over some rows of one, does to the profiles. -/
structure PassEffect (rows cols : Bool) (s : KernelState K) (colBs rowBs : ℕ → Multiset (Block K))
    (s' : KernelState K) : Prop where
  column : ∀ c, R.rel (s.profileA c) (whenOn cols (colBs c)) (s'.profileA c)
  row : ∀ r, R.rel (s.profileB r) (whenOn rows (rowBs r)) (s'.profileB r)

omit [Field K] [LinearOrder K] in
theorem whenOn_add (on : Bool) (bs bs' : Multiset (Block K)) :
    whenOn on (bs + bs') = whenOn on bs + whenOn on bs' := by
  cases on <;> rfl

theorem PassEffect.refl (rows cols : Bool) (s : KernelState K) :
    PassEffect R rows cols s (fun _ => 0) (fun _ => 0) s := by
  refine ⟨fun c => ?_, fun r => ?_⟩
  · unfold whenOn
    rw [ite_self]
    exact R.refl _
  · unfold whenOn
    rw [ite_self]
    exact R.refl _

variable {R} in
theorem PassEffect.trans {rows cols : Bool} {s s' s'' : KernelState K}
    {colBs rowBs colBs' rowBs' : ℕ → Multiset (Block K)} (h : PassEffect R rows cols s colBs rowBs s')
    (h' : PassEffect R rows cols s' colBs' rowBs' s'') :
    PassEffect R rows cols s (fun c => colBs c + colBs' c) (fun r => rowBs r + rowBs' r) s'' := by
  refine ⟨fun c => ?_, fun r => ?_⟩
  · rw [whenOn_add]
    exact R.trans (h.column c) (h'.column c)
  · rw [whenOn_add]
    exact R.trans (h.row r) (h'.row r)

section
variable (htype : type ≠ .matrixSummary) (rows cols : Bool) {a : KernelArgs K}
  (ha : a.threshold = threshold) {cov : Buffer K} {val : ℕ → ℕ → K} (hval : PassValues type a cov val)
include htype ha hval

/-- **One block.** Its rows carry the covariances down the diagonals; the invariant is that diagonal `d` has
    the covariance of the next row, as long as the rows before reached it. -/
theorem block_effect {tileDiag : ℕ} (htd : tileDiag < a.numDiags) {s : KernelState K}
    (hcov : ∀ d, tileDiag ≤ d → s.cov d = cov d) :
    let s' := (List.range (a.rowIters tileDiag)).foldl (fun s row =>
      handleRowAt bld type rows cols a tileDiag row s) s
    (∀ d, tileDiag + bld.unrollWid ≤ d → s'.cov d = cov d) ∧
      PassEffect R rows cols s
        (fun c => (Multiset.range (a.rowIters tileDiag)).bind fun row =>
          visitColumn val tileDiag row (rowLen bld.unrollWid a.toKernelDims tileDiag row) c)
        (fun r => (Multiset.range (a.rowIters tileDiag)).bind fun row =>
          visitRow val tileDiag row (rowLen bld.unrollWid a.toKernelDims tileDiag row) r) s' := by
  have hinv := foldl_range_inv (f := fun s row => handleRowAt bld type rows cols a tileDiag row s)
    (fun row st =>
      (∀ d, tileDiag ≤ d → d < tileDiag + bld.unrollWid → d < a.numDiags → row = 0 ∨ row + d ≤ a.nX →
        st.cov d = covAt a cov row d) ∧
      (∀ d, tileDiag + bld.unrollWid ≤ d → st.cov d = cov d) ∧
      PassEffect R rows cols s
        (fun c => (Multiset.range row).bind fun row =>
          visitColumn val tileDiag row (rowLen bld.unrollWid a.toKernelDims tileDiag row) c)
        (fun r => (Multiset.range row).bind fun row =>
          visitRow val tileDiag row (rowLen bld.unrollWid a.toKernelDims tileDiag row) r) st)
    (a.rowIters tileDiag) s ?_ ?_
  · exact hinv.2
  · refine ⟨fun d hd _ _ _ => hcov d hd, fun d hd => hcov d (by omega), ?_⟩
    simp only [Multiset.range_zero, Multiset.zero_bind]
    exact PassEffect.refl R rows cols s
  · rintro row st hrow ⟨hin, hout, heffect⟩
    have hU := unrollWid_pos bld
    have hrows : row < a.nX - tileDiag ∧ row < a.nY := by
      unfold KernelDims.rowIters at hrow
      omega
    -- the diagonals this row is on
    have hmem : ∀ d, tileDiag ≤ d → (d < tileDiag + rowLen bld.unrollWid a.toKernelDims tileDiag row ↔
        d < a.numDiags ∧ row + d < a.nX ∧ d < tileDiag + bld.unrollWid) := by
      intro d hd
      unfold rowLen KernelDims.diagmax
      omega
    have hlen : 0 < rowLen bld.unrollWid a.toKernelDims tileDiag row := by
      have := hmem tileDiag (Nat.le_refl _)
      omega
    have hcorr : ∀ d < rowLen bld.unrollWid a.toKernelDims tileDiag row,
        dropNan type a (((Dbl.num (st.cov (tileDiag + d))).mul (a.normsa (tileDiag + row + d))).mul
          (a.normsb row)) = .num (val row (tileDiag + row + d)) := by
      intro d hd
      obtain ⟨h1, h2, h3⟩ := (hmem (tileDiag + d) (by omega)).mp (by omega)
      rw [hin _ (by omega) h3 h1 (Or.inr (by omega)),
        show tileDiag + row + d = row + (tileDiag + d) by omega]
      exact hval row hrows.2 (tileDiag + d) h1 h2
    have hstep := handleRowAt_effect R htype rows cols ha hlen hcorr
    refine ⟨fun d hd hdU hdn hreach => ?_, fun d hd => ?_, ?_⟩
    · -- a diagonal that reaches the next row is on this one
      have hvisited : row + d < a.nX := by
        rcases hreach with h0 | h0
        · exact absurd h0 (Nat.succ_ne_zero row)
        · omega
      rw [hstep.cov_in d hd ((hmem d hd).mpr ⟨hdn, hvisited, hdU⟩),
        hin d hd hdU hdn (Or.inr (by omega)), covAt]
    · have hlen : tileDiag + rowLen bld.unrollWid a.toKernelDims tileDiag row ≤ d := by
        by_contra hlt
        have := (hmem d (by omega)).mp (by omega)
        omega
      rw [hstep.cov_out d hlen, hout d hd]
    · have := heffect.trans ⟨hstep.column, hstep.row⟩
      simpa only [Multiset.range_succ, Multiset.cons_bind, add_comm] using this

/-! ## A whole pass -/

/-- **A pass of the kernel.** Every column and every row of the local profiles takes in the correlations of
    its cells, and nothing else. -/
theorem doTile_absorbs {s : KernelState K} (hcov : s.cov = cov) :
    PassEffect R rows cols s (columnBlocks bld.unrollWid a.toKernelDims val)
      (rowBlocks bld.unrollWid a.toKernelDims val) (doTile bld type rows cols a s) := by
  have hU := unrollWid_pos bld
  rw [doTile_eq]
  have hall : ∀ start s, (∀ d, start ≤ d → s.cov d = cov d) →
      PassEffect R rows cols s
        (fun c => (forRange start a.numDiags bld.unrollWid : Multiset ℕ).bind fun tileDiag =>
          (Multiset.range (a.rowIters tileDiag)).bind fun row =>
            visitColumn val tileDiag row (rowLen bld.unrollWid a.toKernelDims tileDiag row) c)
        (fun r => (forRange start a.numDiags bld.unrollWid : Multiset ℕ).bind fun tileDiag =>
          (Multiset.range (a.rowIters tileDiag)).bind fun row =>
            visitRow val tileDiag row (rowLen bld.unrollWid a.toKernelDims tileDiag row) r)
        ((forRange start a.numDiags bld.unrollWid).foldl (fun s tileDiag =>
          (List.range (a.rowIters tileDiag)).foldl (fun s row =>
            handleRowAt bld type rows cols a tileDiag row s) s) s) := by
    intro start
    -- over the blocks from the last one back: each starts from initial covariances
    induction start using @forRange_rec a.numDiags bld.unrollWid _ hU with
    | hdone start h =>
        intro s _
        simp only [forRange_nil h, Multiset.coe_nil, Multiset.zero_bind, List.foldl_nil]
        exact PassEffect.refl R rows cols s
    | hnext start h ih =>
        intro s hs
        obtain ⟨hnextCov, hblock⟩ := block_effect R htype rows cols ha hval h hs
        have := hblock.trans (ih _ hnextCov)
        simpa only [forRange_cons hU h, ← Multiset.cons_coe, Multiset.cons_bind, List.foldl_cons]
          using this
  exact hall _ s fun d _ => congrFun hcov d

end

end

/-! ## The cells behind the blocks -/

section
variable {K : Type}

/-- What a list of cells offers column `c`. -/
def columnHits (val : ℕ → ℕ → K) (cells : List (ℕ × ℕ)) (c : ℕ) : Multiset (Hit K) :=
  (cells : Multiset (ℕ × ℕ)).bind fun z => if z.2 = c then {⟨val z.1 z.2, z.1⟩} else 0

/-- What a list of cells offers row `r`. -/
def rowHits (val : ℕ → ℕ → K) (cells : List (ℕ × ℕ)) (r : ℕ) : Multiset (Hit K) :=
  (cells : Multiset (ℕ × ℕ)).bind fun z => if z.1 = r then {⟨val z.1 z.2, z.2⟩} else 0

theorem mem_columnHits {val : ℕ → ℕ → K} {cells : List (ℕ × ℕ)} {c : ℕ} {h : Hit K} :
    h ∈ columnHits val cells c ↔ ∃ r, (r, c) ∈ cells ∧ h = ⟨val r c, r⟩ := by
  unfold columnHits
  rw [Multiset.mem_bind]
  constructor
  · rintro ⟨⟨r, c'⟩, hz, hh⟩
    dsimp only at hh
    split at hh
    · next hc =>
        subst hc
        exact ⟨r, hz, Multiset.mem_singleton.mp hh⟩
    · exact absurd hh (Multiset.notMem_zero _)
  · rintro ⟨r, hz, rfl⟩
    exact ⟨(r, c), hz, by simp⟩

theorem mem_rowHits {val : ℕ → ℕ → K} {cells : List (ℕ × ℕ)} {r : ℕ} {h : Hit K} :
    h ∈ rowHits val cells r ↔ ∃ c, (r, c) ∈ cells ∧ h = ⟨val r c, c⟩ := by
  unfold rowHits
  rw [Multiset.mem_bind]
  constructor
  · rintro ⟨⟨r', c⟩, hz, hh⟩
    dsimp only at hh
    split at hh
    · next hr =>
        subst hr
        exact ⟨c, hz, Multiset.mem_singleton.mp hh⟩
    · exact absurd hh (Multiset.notMem_zero _)
  · rintro ⟨c, hz, rfl⟩
    exact ⟨(r, c), hz, by simp⟩

/-- The hits of all blocks. -/
def hitsOf (bs : Multiset (Block K)) : Multiset (Hit K) := bs.bind fun b => (b : Multiset (Hit K))

@[simp] theorem hitsOf_zero : hitsOf (0 : Multiset (Block K)) = 0 := rfl

@[simp] theorem hitsOf_add (bs bs' : Multiset (Block K)) : hitsOf (bs + bs') = hitsOf bs + hitsOf bs' :=
  Multiset.add_bind _ _ _

theorem hitsOf_bind {α : Type} (s : Multiset α) (f : α → Multiset (Block K)) :
    hitsOf (s.bind f) = s.bind fun x => hitsOf (f x) := Multiset.bind_assoc

theorem columnHits_rowCells (val : ℕ → ℕ → K) (tileDiag row len c : ℕ) :
    columnHits val (rowCells tileDiag row len) c = hitsOf (visitColumn val tileDiag row len c) := by
  unfold columnHits rowCells
  induction len with
  | zero =>
      unfold visitColumn
      rw [if_neg (by omega)]
      rfl
  | succ len ih =>
      rw [List.range_succ, List.map_append, ← Multiset.coe_add, Multiset.add_bind, ih]
      unfold visitColumn
      by_cases hc : tileDiag + row + len = c
      · subst hc
        rw [if_neg (by omega), if_pos (by omega)]
        simp [hitsOf]
      · by_cases hin : tileDiag + row ≤ c ∧ c < tileDiag + row + len
        · rw [if_pos hin, if_pos (by omega)]
          simp [hitsOf, hc]
        · rw [if_neg hin, if_neg (by omega)]
          simp [hitsOf, hc]

theorem rowHits_rowCells (val : ℕ → ℕ → K) (tileDiag row len r : ℕ) :
    rowHits val (rowCells tileDiag row len) r = hitsOf (visitRow val tileDiag row len r) := by
  unfold rowHits rowCells visitRow
  by_cases hr : row = r
  · rw [if_pos hr]
    unfold hitsOf rowBlock
    rw [Multiset.singleton_bind, ← Multiset.map_coe, Multiset.bind_map]
    simp only [hr, if_true, Multiset.bind_singleton, Multiset.map_coe]
  · rw [if_neg hr, ← Multiset.map_coe, Multiset.bind_map]
    simp only [hr, if_false, Multiset.bind_zero]
    rfl

/-- The cells of a pass, block by block. -/
theorem doTileCells_eq {U : ℕ} (hU : 0 < U) (a : KernelDims) :
    (doTileCells U a : Multiset (ℕ × ℕ)) =
      (forRange a.exclusionLower a.numDiags U : Multiset ℕ).bind fun tileDiag =>
        (Multiset.range (a.rowIters tileDiag)).bind fun row =>
          (rowCells tileDiag row (rowLen U a tileDiag row) : Multiset (ℕ × ℕ)) := by
  unfold doTileCells
  rw [← Multiset.coe_bind]
  refine Multiset.bind_congr fun tileDiag _ => ?_
  rw [← Multiset.coe_bind, blockRows_eq hU, ← Multiset.map_coe, Multiset.bind_map, Multiset.coe_range]
  rfl

/-- **What a pass offers a column are its cells in that column.** -/
theorem hitsOf_columnBlocks {U : ℕ} (hU : 0 < U) (a : KernelDims) (val : ℕ → ℕ → K) (c : ℕ) :
    hitsOf (columnBlocks U a val c) = columnHits val (doTileCells U a) c := by
  unfold columnBlocks columnHits
  simp only [doTileCells_eq hU, hitsOf_bind, ← columnHits_rowCells, Multiset.bind_assoc]
  rfl

theorem hitsOf_rowBlocks {U : ℕ} (hU : 0 < U) (a : KernelDims) (val : ℕ → ℕ → K) (r : ℕ) :
    hitsOf (rowBlocks U a val r) = rowHits val (doTileCells U a) r := by
  unfold rowBlocks rowHits
  simp only [doTileCells_eq hU, hitsOf_bind, ← rowHits_rowCells, Multiset.bind_assoc]
  rfl

end

end Scamp
