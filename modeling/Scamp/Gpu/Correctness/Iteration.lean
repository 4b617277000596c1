import Scamp.Gpu.Correctness.Registers
import Scamp.Lib.Steps

/-!
# `Gpu.Correctness.Iteration` — what a call leaves in registers and shared memory

`do_iteration_fast`, and as many calls of `do_row_edge`, in closed form. The covariances and the distances
of the parallelogram are a recurrence over the statistics in shared memory (`covRow`, `distAt`); a column and
a row of it take in the distances that lie in them (`columnOffers`, `rowOffers`).

- `do_row_edge`: `edgeRun`, from one row to the next.
- `do_iteration_fast`: `fastRun`, along the list of its statements. The invariant of the loop over the batches
  says which columns the window shows, which rows are merged and which registers are flushed; a register is
  flushed when no later row can change it (`columnOffers_eq_of_lt`).
-/

namespace Scamp

open Lib

namespace SlidingWindow

section
variable {K : Type} [Field K] [LinearOrder K] (k : Instance K) (info : SCAMPThreadInfo K) (smem : SCAMPSmem K)

/-! ## The cells of the parallelogram -/

/-- The covariance of diagonal `i` in row `row` of the parallelogram. -/
def covRow : ℕ → ℕ → Dbl K
  | 0, i => info.cov i
  | row + 1, i =>
      ((covRow row i).add ((smem.col.df (info.localCol + row + i)).mul (smem.row.dg (info.localRow + row)))).add
        ((smem.col.dg (info.localCol + row + i)).mul (smem.row.df (info.localRow + row)))

def distAt (row i : ℕ) : Dbl K :=
  ((covRow info smem row i).mul (smem.col.inorm (info.localCol + row + i))).mul
    (smem.row.inorm (info.localRow + row))

/-- What the first `n` rows offer column `p` of the parallelogram. -/
def columnOffers (n p : ℕ) : List (Dbl K × ℕ) :=
  ((List.range n).filter fun row => decide (row ≤ p ∧ p < row + k.diagsPerThread)).map fun row =>
    (distAt info smem row (p - row), info.globalRow + row)

/-- What row `row` is offered. -/
def rowOffers (row : ℕ) : List (Dbl K × ℕ) :=
  (List.range k.diagsPerThread).map fun i => (distAt info smem row i, info.globalCol + row + i)

variable {k info smem}

theorem columnOffers_succ_of_mem {n p : ℕ} (h : n ≤ p ∧ p < n + k.diagsPerThread) :
    columnOffers k info smem (n + 1) p =
      columnOffers k info smem n p ++ [(distAt info smem n (p - n), info.globalRow + n)] := by
  unfold columnOffers
  rw [List.range_succ, List.filter_append, List.map_append, List.filter_singleton]
  rw [decide_eq_true h]
  rfl

theorem columnOffers_succ_of_notMem {n p : ℕ} (h : ¬(n ≤ p ∧ p < n + k.diagsPerThread)) :
    columnOffers k info smem (n + 1) p = columnOffers k info smem n p := by
  unfold columnOffers
  rw [List.range_succ, List.filter_append, List.map_append, List.filter_singleton, decide_eq_false h]
  exact List.append_nil _

/-- Rows below a column offer it nothing. -/
theorem columnOffers_eq_of_lt {n m p : ℕ} (hp : p < n) (hnm : n ≤ m) :
    columnOffers k info smem m p = columnOffers k info smem n p := by
  induction m, hnm using Nat.le_induction with
  | base => rfl
  | succ m hnm ih => rw [columnOffers_succ_of_notMem (by omega), ih]

/-- Beyond the parallelogram no column is offered anything. -/
theorem columnOffers_eq_nil {p : ℕ} (hp : k.unrolledCols ≤ p) :
    columnOffers k info smem k.outerUnrolledRows p = [] := by
  have hwidth : k.unrolledCols = k.diagsPerThread + k.outerUnrolledRows - 1 := rfl
  unfold columnOffers
  rw [List.filter_eq_nil_iff.mpr fun row hrow => ?_, List.map_nil]
  have hlt := List.mem_range.mp hrow
  rw [decide_eq_true_eq]
  omega

section
variable {sm : SCAMPSmem K}

omit [LinearOrder K] in
theorem covRow_congr (hcol : sm.col = smem.col) (hrow : sm.row = smem.row) :
    covRow info sm = covRow info smem := by
  funext row i
  induction row with
  | zero => rfl
  | succ row ih =>
      unfold covRow
      rw [ih, hcol, hrow]

omit [LinearOrder K] in
/-- The distances do not depend on the best-so-far values. -/
theorem distAt_congr (hcol : sm.col = smem.col) (hrow : sm.row = smem.row) :
    distAt info sm = distAt info smem := by
  funext row i
  unfold distAt
  rw [covRow_congr hcol hrow, hcol, hrow]

end

end

section
variable {K : Type} [Field K] [LinearOrder K] (k : Instance K) (info : SCAMPThreadInfo K) (smem : SCAMPSmem K)
  (diag numDiags : ℕ)

/-- The parallelogram of a call is inside the tile, and its cells are computed: `do_tile` takes the fast path
    only then. -/
structure InTile : Prop where
  rows : info.localRow + k.outerUnrolledRows ≤ k.tileHeight
  cols : info.localCol + k.unrolledCols ≤ k.tileWidth
  inMatrix : info.globalCol + k.unrolledCols ≤ k.nX
  onDiags : diag + k.diagsPerThread ≤ numDiags

/-! ## `do_row_edge` -/

/-- What the entry of a column holds after `n` rows. -/
def edgeCol (n p : ℕ) (stored : MpEntry K) : MpEntry K :=
  (columnOffers k info smem n p).foldl (fun e o => edgeColumn k o.2 e o.1) stored

/-- What `dist_row` and `idx_row` hold at the end of a row. -/
def edgeRowReg (row : ℕ) : MpEntry K :=
  (rowOffers k info smem row).foldl (fun e o => edgeRow k o.2 e o.1) ⟨.num (initDist k.type), 0⟩

/-- A thread is `n` positions further on. -/
structure Moved (n : ℕ) (inf : SCAMPThreadInfo K) : Prop where
  localRow : inf.localRow = info.localRow + n
  localCol : inf.localCol = info.localCol + n
  globalRow : inf.globalRow = info.globalRow + n
  globalCol : inf.globalCol = info.globalCol + n

/-- A thread and shared memory after `n` calls. -/
structure EdgeAfter (n : ℕ) (inf : SCAMPThreadInfo K) (sm : SCAMPSmem K) : Prop where
  pos : Moved info n inf
  cov : ∀ i < k.diagsPerThread, inf.cov i = covRow info smem n i
  stats : sm.col = smem.col ∧ sm.row = smem.row
  mpCol : ∀ x, sm.localMpCol x =
    if k.computeCols = true ∧ info.localCol ≤ x then
      edgeCol k info smem n (x - info.localCol) (smem.localMpCol x)
    else smem.localMpCol x
  mpRow : ∀ x, sm.localMpRow x =
    if k.computeRows = true ∧ info.localRow ≤ x ∧ x < info.localRow + n then
      reduceRow k (smem.localMpRow x) (edgeRowReg k info smem (x - info.localRow))
    else smem.localMpRow x

variable {k info smem diag numDiags}

theorem edgeCol_succ_of_mem {n p : ℕ} {stored : MpEntry K} (h : n ≤ p ∧ p < n + k.diagsPerThread) :
    edgeCol k info smem (n + 1) p stored =
      edgeColumn k (info.globalRow + n) (edgeCol k info smem n p stored) (distAt info smem n (p - n)) := by
  unfold edgeCol
  rw [columnOffers_succ_of_mem h, List.foldl_append]
  rfl

theorem edgeCol_succ_of_notMem {n p : ℕ} {stored : MpEntry K} (h : ¬(n ≤ p ∧ p < n + k.diagsPerThread)) :
    edgeCol k info smem (n + 1) p stored = edgeCol k info smem n p stored := by
  unfold edgeCol
  rw [columnOffers_succ_of_notMem h]

theorem edgeRowReg_eq {dist : ℕ → Dbl K} {row globalCol : ℕ} (hcol : globalCol = info.globalCol + row)
    (hdist : ∀ i < k.diagsPerThread, dist i = distAt info smem row i) :
    (List.range k.diagsPerThread).foldl (fun e i => edgeRow k (globalCol + i) e (dist i))
      ⟨.num (initDist k.type), 0⟩ = edgeRowReg k info smem row := by
  unfold edgeRowReg rowOffers
  rw [List.foldl_map]
  refine List.foldl_ext _ _ _ fun e i hi => ?_
  rw [hdist i (List.mem_range.mp hi), hcol]

/-- The column profile after `n` diagonals of a row. -/
def edgeRowCols (k : Instance K) (info : SCAMPThreadInfo K) (dist : ℕ → Dbl K) (n : ℕ) (mp : ℕ → MpEntry K) :
    ℕ → MpEntry K :=
  fun x => if info.localCol ≤ x ∧ x < info.localCol + n then
    edgeColumn k info.globalRow (mp x) (dist (x - info.localCol)) else mp x

theorem edgeRowCols_zero (dist : ℕ → Dbl K) (mp : ℕ → MpEntry K) : edgeRowCols k info dist 0 mp = mp :=
  funext fun x => if_neg (by omega)

theorem edgeRowCols_succ (dist : ℕ → Dbl K) (n : ℕ) (mp : ℕ → MpEntry K) :
    edgeRowCols k info dist (n + 1) mp =
      Function.update (edgeRowCols k info dist n mp) (info.localCol + n)
        (edgeColumn k info.globalRow (edgeRowCols k info dist n mp (info.localCol + n)) (dist n)) := by
  funext x
  unfold edgeRowCols
  by_cases hx : x = info.localCol + n
  · rw [hx, Function.update_self, if_pos (by omega), if_neg (by omega), Nat.add_sub_cancel_left]
  · rw [Function.update_of_ne hx]
    by_cases hlt : info.localCol ≤ x ∧ x < info.localCol + n
    · rw [if_pos hlt, if_pos (by omega)]
    · rw [if_neg hlt, if_neg (by omega)]

/-- The loop over the diagonals of a row, all of whose cells are computed. -/
theorem foldl_reduceEdge {dist : ℕ → Dbl K} {s : MpEntry K × (ℕ → MpEntry K)} {n : ℕ}
    (hin : ∀ i < n, info.globalCol + i < k.nX ∧ diag + i < numDiags) :
    (List.range n).foldl (reduceEdge k diag numDiags info dist) s =
      (if k.computeRows then
          (List.range n).foldl (fun e i => edgeRow k (info.globalCol + i) e (dist i)) s.1
        else s.1,
       if k.computeCols then edgeRowCols k info dist n s.2 else s.2) := by
  induction n with
  | zero =>
      rw [edgeRowCols_zero, List.range_zero, List.foldl_nil, List.foldl_nil, ite_self, ite_self]
  | succ n ih =>
      rw [List.range_succ, List.foldl_append, ih fun i hi => hin i (by omega), List.foldl_append,
        edgeRowCols_succ]
      simp only [List.foldl_cons, List.foldl_nil]
      unfold reduceEdge
      rw [if_pos (hin n (by omega))]
      cases k.computeRows <;> cases k.computeCols <;> rfl

/-- **One call of `do_row_edge`.** -/
theorem edgeAfter_succ (hin : InTile k info diag numDiags) {n : ℕ} (hn : n < k.outerUnrolledRows)
    {inf : SCAMPThreadInfo K} {sm : SCAMPSmem K} (h : EdgeAfter k info smem n inf sm) :
    ∃ next, doRowEdge k diag numDiags inf sm = some next ∧
      EdgeAfter k info smem (n + 1) (next.1.advance 1) next.2 := by
  have hD := k.diags_pos
  have hwidth : k.unrolledCols = k.diagsPerThread + k.outerUnrolledRows - 1 := rfl
  obtain ⟨hrows, hcols, hmatrix, hdiags⟩ := hin
  obtain ⟨hlocalRow, hlocalCol, hglobalRow, hglobalCol⟩ := h.pos
  -- the correlations of this row are those that the state before the calls determines
  have hdist : ∀ i < k.diagsPerThread,
      ((inf.cov i).mul (sm.col.inorm (inf.localCol + i))).mul (sm.row.inorm inf.localRow) =
        distAt info smem n i := by
    intro i hi
    rw [h.cov i hi, h.stats.1, h.stats.2, hlocalRow, hlocalCol]
    rfl
  unfold doRowEdge
  rw [if_pos (by
    rw [Bool.and_eq_true]
    exact ⟨decide_eq_true (Or.inr (by omega)), decide_eq_true (Or.inr (by omega))⟩)]
  refine ⟨_, rfl, ?_⟩
  rw [foldl_reduceEdge (fun i hi => ⟨by omega, by omega⟩)]
  refine ⟨⟨?_, ?_, ?_, ?_⟩, fun i hi => ?_, h.stats, fun x => ?_, fun x => ?_⟩
  · show inf.localRow + 1 = _
    omega
  · show inf.localCol + 1 = _
    omega
  · show inf.globalRow + 1 = _
    omega
  · show inf.globalCol + 1 = _
    omega
  · show ((inf.cov i).add ((sm.col.df (inf.localCol + i)).mul (sm.row.dg inf.localRow))).add
      ((sm.col.dg (inf.localCol + i)).mul (sm.row.df inf.localRow)) = _
    rw [h.cov i hi, h.stats.1, h.stats.2, hlocalRow, hlocalCol]
    rfl
  · show (if k.computeCols then edgeRowCols k inf _ k.diagsPerThread sm.localMpCol else sm.localMpCol) x = _
    have hold := h.mpCol x
    cases hcols : k.computeCols with
    | false => simpa [hcols] using hold
    | true =>
        rw [hcols] at hold
        simp only [if_true, true_and] at hold ⊢
        unfold edgeRowCols
        by_cases hx : inf.localCol ≤ x ∧ x < inf.localCol + k.diagsPerThread
        · -- a column this row reaches has one more candidate
          rw [if_pos (by omega)] at hold
          rw [if_pos hx, if_pos (by omega), hold, edgeCol_succ_of_mem (by omega)]
          dsimp only
          rw [hdist _ (by omega), hglobalRow, show x - inf.localCol = x - info.localCol - n by omega]
        · rw [if_neg hx, hold]
          by_cases hle : info.localCol ≤ x
          · rw [if_pos hle, if_pos hle, edgeCol_succ_of_notMem (by omega)]
          · rw [if_neg hle, if_neg hle]
  · show (if k.computeRows then Function.update sm.localMpRow inf.localRow (reduceRow k (sm.localMpRow inf.localRow)
      (if k.computeRows then (List.range k.diagsPerThread).foldl _ _ else _)) else sm.localMpRow) x = _
    have hold := h.mpRow
    cases hcomp : k.computeRows with
    | false => simpa [hcomp] using hold x
    | true =>
        rw [hcomp] at hold
        simp only [if_true, true_and] at hold ⊢
        rw [edgeRowReg_eq hglobalCol hdist]
        -- of the rows only this one changes
        by_cases hx : x = inf.localRow
        · rw [hx, Function.update_self, hold, if_neg (by omega), if_pos (by omega), hlocalRow,
            Nat.add_sub_cancel_left]
        · rw [Function.update_of_ne hx, hold]
          by_cases hlt : info.localRow ≤ x ∧ x < info.localRow + n
          · rw [if_pos hlt, if_pos (by omega)]
          · rw [if_neg hlt, if_neg (by omega)]

/-- The calls of `do_row_edge` from row `n` on. -/
theorem edgeAfter_rows (hin : InTile k info diag numDiags) {m n : ℕ} (hn : n + m ≤ k.outerUnrolledRows)
    {inf : SCAMPThreadInfo K} {sm : SCAMPSmem K} (h : EdgeAfter k info smem n inf sm) :
    ∃ next, doRowsEdge k diag numDiags m inf sm = some next ∧
      EdgeAfter k info smem (n + m) next.1 next.2 := by
  induction m generalizing n inf sm with
  | zero => exact ⟨_, rfl, h⟩
  | succ m ih =>
      obtain ⟨next, hnext, hafter⟩ := edgeAfter_succ hin (by omega) h
      obtain ⟨last, hlast, hdone⟩ := ih (by omega) hafter
      refine ⟨last, ?_, ?_⟩
      · unfold doRowsEdge
        rw [hnext]
        exact hlast
      · rwa [show n + 1 + m = n + (m + 1) by omega] at hdone

/-- **The calls of `do_row_edge` for the parallelogram.** -/
theorem edgeRun (hin : InTile k info diag numDiags) :
    ∃ next, doRowsEdge k diag numDiags k.outerUnrolledRows info smem = some next ∧
      EdgeAfter k info smem k.outerUnrolledRows next.1 next.2 := by
  have hstart : EdgeAfter k info smem 0 info smem := by
    refine ⟨⟨rfl, rfl, rfl, rfl⟩, fun i _ => rfl, ⟨rfl, rfl⟩, fun x => ?_, fun x => ?_⟩
    · exact (ite_self _).symm
    · rw [if_neg (by omega)]
  have hrun := edgeAfter_rows (m := k.outerUnrolledRows) hin (by omega) hstart
  rwa [Nat.zero_add] at hrun

/-- The columns the calls have changed are those of the parallelogram. -/
theorem EdgeAfter.mpCol_inside {inf : SCAMPThreadInfo K} {sm : SCAMPSmem K}
    (h : EdgeAfter k info smem k.outerUnrolledRows inf sm) (x : ℕ) : sm.localMpCol x =
      if k.computeCols = true ∧ info.localCol ≤ x ∧ x < info.localCol + k.unrolledCols then
        edgeCol k info smem k.outerUnrolledRows (x - info.localCol) (smem.localMpCol x)
      else smem.localMpCol x := by
  rw [h.mpCol x]
  by_cases hon : k.computeCols = true ∧ info.localCol ≤ x
  · rw [if_pos hon]
    by_cases hlt : x < info.localCol + k.unrolledCols
    · rw [if_pos ⟨hon.1, hon.2, hlt⟩]
    · rw [if_neg fun h' => hlt h'.2.2]
      unfold edgeCol
      rw [columnOffers_eq_nil (by omega)]
      rfl
  · rw [if_neg hon, if_neg fun h' => hon ⟨h'.1, h'.2.1⟩]

end

/-! ## The window -/

section
variable {K : Type} {src dst dst' : Stats K} {start n extent : ℕ}

/-- Registers hold `n` statistics of a side from `start` on. -/
def Shows (src : Stats K) (start n : ℕ) (dst : Stats K) : Prop :=
  ∀ q < n, dst.df q = src.df (start + q) ∧ dst.dg q = src.dg (start + q) ∧ dst.inorm q = src.inorm (start + q)

theorem vecLoadArray_of_mem {src dst : ℕ → Dbl K} {pos q : ℕ} (h : pos ≤ q ∧ q < pos + n) :
    vecLoadArray src start n pos dst q = src (start + (q - pos)) := if_pos h

theorem vecLoadArray_of_lt {src dst : ℕ → Dbl K} {pos q : ℕ} (h : q < pos) :
    vecLoadArray src start n pos dst q = dst q := if_neg (by omega)

theorem vecLoad_eq_some {pos : ℕ} (h : vecLoad extent src start n pos dst = some dst') :
    (n = 0 ∨ start + n ≤ extent) ∧
      dst' = ⟨vecLoadArray src.df start n pos dst.df, vecLoadArray src.dg start n pos dst.dg,
        vecLoadArray src.inorm start n pos dst.inorm⟩ := by
  unfold vecLoad at h
  split at h
  · next hin => exact ⟨of_decide_eq_true hin, (Option.some.inj h).symm⟩
  · cases h

theorem vecLoad_inside {pos : ℕ} (h : start + n ≤ extent) :
    vecLoad extent src start n pos dst =
      some ⟨vecLoadArray src.df start n pos dst.df, vecLoadArray src.dg start n pos dst.dg,
        vecLoadArray src.inorm start n pos dst.inorm⟩ :=
  if_pos (decide_eq_true (Or.inr h))

/-- The first load. -/
theorem shows_load (dst : Stats K) :
    Shows src start n ⟨vecLoadArray src.df start n 0 dst.df, vecLoadArray src.dg start n 0 dst.dg,
      vecLoadArray src.inorm start n 0 dst.inorm⟩ := by
  intro q hq
  have hin : 0 ≤ q ∧ q < 0 + n := ⟨Nat.zero_le q, by omega⟩
  refine ⟨?_, ?_, ?_⟩ <;> exact vecLoadArray_of_mem hin

/-- The window moves on by `u`: what is kept slides, the rest is loaded. -/
theorem shows_slide {d u : ℕ} (h : Shows src start (d + u) dst) :
    Shows src (start + u) (d + u)
      ⟨vecLoadArray src.df (start + u + d) u d (slide d u dst).df,
        vecLoadArray src.dg (start + u + d) u d (slide d u dst).dg,
        vecLoadArray src.inorm (start + u + d) u d (slide d u dst).inorm⟩ := by
  intro q hq
  by_cases hlt : q < d
  · obtain ⟨hdf, hdg, hinorm⟩ := h (q + u) (by omega)
    rw [show start + (q + u) = start + u + q by omega] at hdf hdg hinorm
    refine ⟨?_, ?_, ?_⟩
    · exact (vecLoadArray_of_lt hlt).trans ((if_pos hlt).trans hdf)
    · exact (vecLoadArray_of_lt hlt).trans ((if_pos hlt).trans hdg)
    · exact (vecLoadArray_of_lt hlt).trans ((if_pos hlt).trans hinorm)
  · have hin : d ≤ q ∧ q < d + u := by omega
    have hpos : start + u + q = start + u + d + (q - d) := by omega
    rw [hpos]
    refine ⟨?_, ?_, ?_⟩ <;> exact vecLoadArray_of_mem hin

end

/-! ## `do_iteration_fast` -/

section
variable {K : Type} [Field K] [LinearOrder K] (k : Instance K) (raw : RawRegisters K) (lane : ℕ)
  (peers : ℕ → ℕ → Dbl K) (info : SCAMPThreadInfo K) (smem : SCAMPSmem K)

/-- What the register of a column holds after `n` rows. -/
def colReg (n p : ℕ) : MpEntry K :=
  (columnOffers k info smem n p).foldl (fun e o => mergeColumn k o.2 e o.1)
    ⟨.num (initDist k.type), raw.idxc p⟩

/-- What the register of a row holds once the row is merged. What the distances are beyond the diagonals of
    the thread does not matter. -/
def RowReg (row : ℕ) (reg : MpEntry K) : Prop :=
  ∃ dist, (∀ i < k.diagsPerThread, dist i = distAt info smem row i) ∧
    reg = mergeToRow k row info dist ⟨.num (initDist k.type), raw.idxr row⟩

/-- A call in which `rows` rows are merged, and the registers of `cols` columns and of `flushed` rows have
    been taken to shared memory. -/
structure FastAt (rows cols flushed : ℕ) (st : IterationState K) : Prop where
  pos : Moved info 0 st.info
  cov : ∀ i < k.diagsPerThread, st.info.cov i = covRow info smem rows i
  stats : st.smem.col = smem.col ∧ st.smem.row = smem.row
  bestCol : k.computeCols = true → ∀ p, st.bestCol p = colReg k raw info smem rows p
  bestRow : k.computeRows = true → ∀ row < rows, RowReg k raw info smem row (st.bestRow row)
  freshRow : k.computeRows = true → ∀ row, rows ≤ row → st.bestRow row = ⟨.num (initDist k.type), raw.idxr row⟩
  mpCol : ∀ x, st.smem.localMpCol x =
    if k.computeCols = true ∧ info.localCol ≤ x ∧ x < info.localCol + cols then
      flushColumn k (smem.localMpCol x) (colReg k raw info smem k.outerUnrolledRows (x - info.localCol))
    else smem.localMpCol x
  mpRow : ∀ x, st.smem.localMpRow x =
    if k.computeRows = true ∧ info.localRow ≤ x ∧ x < info.localRow + flushed then
      flushRow k lane (peers (x - info.localRow)) (smem.localMpRow x) (st.bestRow (x - info.localRow))
    else smem.localMpRow x

/-- A call inside the batch that starts with row `base`: the window and the statistics of the rows are
    loaded. -/
structure InBatch (base rows : ℕ) (st : IterationState K) : Prop extends
    FastAt k raw lane peers info smem rows base base st where
  window : Shows smem.col (info.localCol + base) (k.diagsPerThread + k.unrolledRows) st.window
  rowStats : Shows smem.row (info.localRow + base) k.unrolledRows st.rowStats

variable {k raw lane peers info smem}

theorem mergeToRow_congr {inf : SCAMPThreadInfo K} {row : ℕ} {dist : ℕ → Dbl K} {best : MpEntry K}
    (h : inf.globalCol = info.globalCol) : mergeToRow k row inf dist best = mergeToRow k row info dist best := by
  unfold mergeToRow
  rw [h]

theorem colReg_succ (n p : ℕ) : colReg k raw info smem (n + 1) p =
    if n ≤ p ∧ p < n + k.diagsPerThread then
      mergeColumn k (info.globalRow + n) (colReg k raw info smem n p) (distAt info smem n (p - n))
    else colReg k raw info smem n p := by
  unfold colReg
  by_cases h : n ≤ p ∧ p < n + k.diagsPerThread
  · rw [if_pos h, columnOffers_succ_of_mem h, List.foldl_append]
    rfl
  · rw [if_neg h, columnOffers_succ_of_notMem h]

/-- **A row of a batch.** -/
theorem inBatch_doRow {base r : ℕ} {st : IterationState K} (hr : r < k.unrolledRows)
    (h : InBatch k raw lane peers info smem base (base + r) st) :
    InBatch k raw lane peers info smem base (base + (r + 1)) (doRow k (base + r) r st) := by
  obtain ⟨hlocalRow, hlocalCol, hglobalRow, hglobalCol⟩ := h.pos
  have hrow := h.rowStats r hr
  -- row `r` of the batch reads the window from `r` on
  have hcol : ∀ i < k.diagsPerThread, st.window.df (r + i) = smem.col.df (info.localCol + (base + r) + i) ∧
      st.window.dg (r + i) = smem.col.dg (info.localCol + (base + r) + i) ∧
      st.window.inorm (r + i) = smem.col.inorm (info.localCol + (base + r) + i) := by
    intro i hi
    have hshow := h.window (r + i) (by omega)
    rwa [show info.localCol + base + (r + i) = info.localCol + (base + r) + i by omega] at hshow
  rw [Nat.add_assoc] at hrow
  have hdist : ∀ i < k.diagsPerThread,
      ((st.info.cov i).mul (st.window.inorm (r + i))).mul (st.rowStats.inorm r) =
        distAt info smem (base + r) i := by
    intro i hi
    rw [h.cov i hi, (hcol i hi).2.2, hrow.2.2]
    rfl
  refine ⟨⟨⟨hlocalRow, hlocalCol, hglobalRow, hglobalCol⟩, fun i hi => ?_, h.stats, fun hon p => ?_,
    fun hon row hlt => ?_, fun hon row hle => ?_, h.mpCol, fun x => ?_⟩, h.window, h.rowStats⟩
  · show ((st.info.cov i).add ((st.window.df (r + i)).mul (st.rowStats.dg r))).add
      ((st.window.dg (r + i)).mul (st.rowStats.df r)) = covRow info smem (base + r + 1) i
    rw [h.cov i hi, (hcol i hi).1, (hcol i hi).2.1, hrow.1, hrow.2.1]
    rfl
  · show (if k.computeCols then mergeToColumn k (base + r) _ st.bestCol _ else st.bestCol) p =
      colReg k raw info smem (base + r + 1) p
    rw [if_pos hon, colReg_succ]
    unfold mergeToColumn
    by_cases hp : base + r ≤ p ∧ p < base + r + k.diagsPerThread
    · rw [if_pos hp, if_pos hp, h.bestCol hon]
      dsimp only
      rw [hdist _ (by omega), hglobalRow, Nat.add_zero]
    · rw [if_neg hp, if_neg hp, h.bestCol hon]
  · show RowReg k raw info smem row ((if k.computeRows then Function.update st.bestRow (base + r) _ else _) row)
    rw [if_pos hon]
    -- a row has its own register, fresh before it
    by_cases hthis : row = base + r
    · rw [hthis, Function.update_self, h.freshRow hon _ le_rfl]
      exact ⟨_, hdist, mergeToRow_congr hglobalCol⟩
    · rw [Function.update_of_ne hthis]
      exact h.bestRow hon row (by omega)
  · show (if k.computeRows then Function.update st.bestRow (base + r) _ else _) row = _
    rw [if_pos hon, Function.update_of_ne (by omega)]
    exact h.freshRow hon row (by omega)
  · have hold := h.mpRow x
    show st.smem.localMpRow x = if _ then flushRow k lane _ _
      ((if k.computeRows then Function.update st.bestRow (base + r) _ else st.bestRow) (x - info.localRow)) else _
    by_cases hx : k.computeRows = true ∧ info.localRow ≤ x ∧ x < info.localRow + base
    · rw [if_pos hx, if_pos hx.1, Function.update_of_ne (by omega)]
      rwa [if_pos hx] at hold
    · rw [if_neg hx]
      rwa [if_neg hx] at hold

omit [Field K] [LinearOrder K] in
/-- Entries flushed up to some register, and then `n` more. -/
theorem flushEntries_next {on : Prop} [Decidable on] (flush : ℕ → MpEntry K → MpEntry K → MpEntry K)
    (start : ℕ) (old final : ℕ → MpEntry K) {done n : ℕ} {best mp : ℕ → MpEntry K} (hon : on)
    (hmp : ∀ x, mp x = if on ∧ start ≤ x ∧ x < start + done then flush (x - start) (old x) (final (x - start))
      else old x)
    (hfinal : ∀ p < done + n, best p = final p) (x : ℕ) :
    flushEntries flush (start + done) n done best mp x =
      if on ∧ start ≤ x ∧ x < start + (done + n) then flush (x - start) (old x) (final (x - start)) else old x := by
  have hold := hmp x
  unfold flushEntries
  by_cases hx : start + done ≤ x ∧ x < start + done + n
  · rw [if_neg (by omega)] at hold
    rw [if_pos hx, if_pos ⟨hon, by omega, by omega⟩, hold,
      show done + (x - (start + done)) = x - start by omega, hfinal _ (by omega)]
  · rw [if_neg hx, hold]
    by_cases hlt : on ∧ start ≤ x ∧ x < start + done
    · rw [if_pos hlt, if_pos ⟨hon, by omega, by omega⟩]
    · rw [if_neg hlt, if_neg fun h => hlt ⟨hon, h.2.1, by omega⟩]

/-- Flushing the columns of a batch, which no later row changes. -/
theorem fastAt_updateCols {rows cols flushed n : ℕ} {st : IterationState K}
    (h : FastAt k raw lane peers info smem rows cols flushed st) (hon : k.computeCols = true)
    (hdone : ∀ p < cols + n, colReg k raw info smem rows p = colReg k raw info smem k.outerUnrolledRows p)
    (hin : n = 0 ∨ info.localCol + cols + n ≤ k.tileWidth) :
    ∃ st', execStep k lane peers st (.updateCols cols n) = some st' ∧
      FastAt k raw lane peers info smem rows (cols + n) flushed st' ∧ st'.window = st.window ∧
      st'.rowStats = st.rowStats := by
  have hlocalCol : st.info.localCol = info.localCol := h.pos.localCol
  unfold execStep
  rw [hlocalCol]
  dsimp only
  rw [if_pos (show inArray k.tileWidth (info.localCol + cols) n = true from decide_eq_true hin)]
  refine ⟨_, rfl, ⟨h.pos, h.cov, h.stats, h.bestCol, h.bestRow, h.freshRow, ?_, h.mpRow⟩, rfl, rfl⟩
  exact flushEntries_next (fun _ => flushColumn k) info.localCol smem.localMpCol _ hon h.mpCol fun p hp => (h.bestCol hon p).trans (hdone p hp)

/-- Flushing the rows of a batch, all of which are merged. -/
theorem fastAt_updateRows {rows cols flushed n : ℕ} {st : IterationState K}
    (h : FastAt k raw lane peers info smem rows cols flushed st) (hon : k.computeRows = true)
    (hin : n = 0 ∨ info.localRow + flushed + n ≤ k.tileHeight) :
    ∃ st', execStep k lane peers st (.updateRows flushed n) = some st' ∧
      FastAt k raw lane peers info smem rows cols (flushed + n) st' ∧ st'.window = st.window ∧
      st'.rowStats = st.rowStats := by
  have hlocalRow : st.info.localRow = info.localRow := h.pos.localRow
  unfold execStep
  rw [hlocalRow]
  dsimp only
  rw [if_pos (show inArray k.tileHeight (info.localRow + flushed) n = true from decide_eq_true hin)]
  refine ⟨_, rfl, ⟨h.pos, h.cov, h.stats, h.bestCol, h.bestRow, h.freshRow, h.mpCol, ?_⟩, rfl, rfl⟩
  exact flushEntries_next (fun r => flushRow k lane (peers r)) info.localRow smem.localMpRow _ hon h.mpRow fun _ _ => rfl

theorem colReg_eq_of_lt {n m p : ℕ} (hp : p < n) (hnm : n ≤ m) :
    colReg k raw info smem m p = colReg k raw info smem n p := by
  unfold colReg
  rw [columnOffers_eq_of_lt hp hnm]

section
variable {rows cols flushed : ℕ} {st : IterationState K}

theorem FastAt.withWindow (h : FastAt k raw lane peers info smem rows cols flushed st) (window : Stats K) :
    FastAt k raw lane peers info smem rows cols flushed { st with window := window } :=
  ⟨h.pos, h.cov, h.stats, h.bestCol, h.bestRow, h.freshRow, h.mpCol, h.mpRow⟩

theorem FastAt.inBatch {base : ℕ} {rowStats : Stats K} (h : FastAt k raw lane peers info smem base base base st)
    (hwindow : Shows smem.col (info.localCol + base) (k.diagsPerThread + k.unrolledRows) st.window)
    (hrows : Shows smem.row (info.localRow + base) k.unrolledRows rowStats) :
    InBatch k raw lane peers info smem base base { st with rowStats := rowStats } :=
  ⟨⟨h.pos, h.cov, h.stats, h.bestCol, h.bestRow, h.freshRow, h.mpCol, h.mpRow⟩, hwindow, hrows⟩

/-- Without columns there is nothing to flush. -/
theorem FastAt.skipCols {n : ℕ} (h : FastAt k raw lane peers info smem rows cols flushed st)
    (hoff : ¬k.computeCols = true) : FastAt k raw lane peers info smem rows n flushed st :=
  { h with mpCol := fun x => by rw [h.mpCol x, if_neg fun h' => hoff h'.1, if_neg fun h' => hoff h'.1] }

theorem FastAt.skipRows {n : ℕ} (h : FastAt k raw lane peers info smem rows cols flushed st)
    (hoff : ¬k.computeRows = true) : FastAt k raw lane peers info smem rows cols n st :=
  { h with mpRow := fun x => by rw [h.mpRow x, if_neg fun h' => hoff h'.1, if_neg fun h' => hoff h'.1] }

end

/-- **A batch**: it starts with the window of the batch before. -/
theorem achieves_batch {j : ℕ} (hj : j < k.outerIters)
    (hin : info.localRow + k.outerUnrolledRows ≤ k.tileHeight)
    (hroom : info.localCol + (k.diagsPerThread + k.outerUnrolledRows) ≤ k.tileWidth) {st : IterationState K}
    (h : FastAt k raw lane peers info smem (j * k.unrolledRows) (j * k.unrolledRows) (j * k.unrolledRows) st)
    (hwindow : Shows smem.col (info.localCol + (j - 1) * k.unrolledRows) (k.diagsPerThread + k.unrolledRows)
      st.window) :
    Achieves (execStep k lane peers)
      (fun st' => FastAt k raw lane peers info smem ((j + 1) * k.unrolledRows) ((j + 1) * k.unrolledRows)
        ((j + 1) * k.unrolledRows) st' ∧
        Shows smem.col (info.localCol + j * k.unrolledRows) (k.diagsPerThread + k.unrolledRows) st'.window)
      (batchSteps k j) st := by
  have hrows : (j + 1) * k.unrolledRows ≤ k.outerUnrolledRows := by
    have hmul := Nat.mul_le_mul_right k.unrolledRows (Nat.succ_le_of_lt hj)
    rwa [show k.outerIters * k.unrolledRows = k.outerUnrolledRows from
      Nat.div_mul_cancel k.unrolled_dvd_outer] at hmul
  rw [Nat.succ_mul] at hrows ⊢
  generalize hbase : j * k.unrolledRows = base at *
  have hwidth : k.innerUnrolledCols - k.unrolledRows = k.diagsPerThread := Nat.add_sub_cancel ..
  unfold batchSteps
  -- the window moves on
  have hslide : Achieves (execStep k lane peers)
      (fun st' => FastAt k raw lane peers info smem base base base st' ∧
        Shows smem.col (info.localCol + base) (k.diagsPerThread + k.unrolledRows) st'.window)
      (if 0 < j then [.slideWindow j] else []) st := by
    refine achieves_if (fun hpos => ?_) fun hpos => ⟨h, ?_⟩
    · have hprev : (j - 1) * k.unrolledRows + k.unrolledRows = base := by
        rw [← Nat.succ_mul, Nat.succ_eq_add_one, Nat.sub_add_cancel hpos, hbase]
      have hshow := shows_slide hwindow
      rw [Nat.add_assoc info.localCol, hprev] at hshow
      refine achieves_one ?_ ⟨h.withWindow _, hshow⟩
      unfold execStep
      dsimp only
      rw [hwidth, hbase, h.stats.1, h.pos.localCol, Nat.add_zero, vecLoad_inside (by omega)]
      rfl
    · rw [show j = 0 by omega, Nat.zero_mul] at hbase
      rw [show j = 0 by omega, Nat.zero_sub, Nat.zero_mul] at hwindow
      rw [← hbase]
      exact hwindow
  -- the statistics of the rows are loaded
  have hload : ∀ st', FastAt k raw lane peers info smem base base base st' ∧
      Shows smem.col (info.localCol + base) (k.diagsPerThread + k.unrolledRows) st'.window →
      Achieves (execStep k lane peers) (InBatch k raw lane peers info smem base base) [.loadRows j] st' := by
    rintro st' ⟨h', hshow⟩
    refine achieves_one ?_ (h'.inBatch hshow (shows_load st'.rowStats))
    unfold execStep
    dsimp only
    rw [hbase, h'.stats.2, h'.pos.localRow, Nat.add_zero, vecLoad_inside (by omega)]
    rfl
  have hmerge : ∀ st', InBatch k raw lane peers info smem base base st' →
      Achieves (execStep k lane peers) (InBatch k raw lane peers info smem base (base + k.unrolledRows))
        ((List.range k.unrolledRows).map (.doRow j)) st' := by
    intro st' h'
    refine achieves_loop_map (I := fun r => InBatch k raw lane peers info smem base (base + r)) h'
      fun r hr t ht => achieves_one ?_ (inBatch_doRow hr ht)
    rw [← hbase]
    rfl
  -- the columns to the left of the next batch are flushed, then its rows
  have hcols : ∀ st', InBatch k raw lane peers info smem base (base + k.unrolledRows) st' →
      Achieves (execStep k lane peers)
        (fun st'' => FastAt k raw lane peers info smem (base + k.unrolledRows) (base + k.unrolledRows) base st'' ∧
          Shows smem.col (info.localCol + base) (k.diagsPerThread + k.unrolledRows) st''.window)
        (if k.computeCols then [.updateCols base k.unrolledRows] else []) st' := by
    intro st' h'
    refine achieves_if (fun hon => ?_) fun hoff => ⟨h'.toFastAt.skipCols hoff, h'.window⟩
    obtain ⟨st'', hstep, hafter, hsame, -⟩ := fastAt_updateCols (n := k.unrolledRows) h'.toFastAt hon
      (fun p hp => (colReg_eq_of_lt hp hrows).symm) (Or.inr (by omega))
    exact achieves_one hstep ⟨hafter, hsame ▸ h'.window⟩
  have hflush : ∀ st', FastAt k raw lane peers info smem (base + k.unrolledRows) (base + k.unrolledRows) base st' ∧
      Shows smem.col (info.localCol + base) (k.diagsPerThread + k.unrolledRows) st'.window →
      Achieves (execStep k lane peers)
        (fun st'' => FastAt k raw lane peers info smem (base + k.unrolledRows) (base + k.unrolledRows)
          (base + k.unrolledRows) st'' ∧
          Shows smem.col (info.localCol + base) (k.diagsPerThread + k.unrolledRows) st''.window)
        (if k.computeRows then [.updateRows base k.unrolledRows] else []) st' := by
    rintro st' ⟨h', hshow⟩
    refine achieves_if (fun hon => ?_) fun hoff => ⟨h'.skipRows hoff, hshow⟩
    obtain ⟨st'', hstep, hafter, hsame, -⟩ := fastAt_updateRows (n := k.unrolledRows) h' hon (Or.inr (by omega))
    exact achieves_one hstep ⟨hafter, hsame ▸ hshow⟩
  rw [hbase]
  exact (((hslide.append hload).append hmerge).append hcols).append hflush

/-- The window of a call, with the column it reads beyond those of the parallelogram, is inside the tile. -/
def WindowInTile (k : Instance K) (info : SCAMPThreadInfo K) : Prop :=
  info.localCol + (k.diagsPerThread + max k.unrolledRows k.outerUnrolledRows) ≤ k.tileWidth

omit [Field K] in
theorem outerIters_mul (k : Instance K) : k.outerIters * k.unrolledRows = k.outerUnrolledRows :=
  Nat.div_mul_cancel k.unrolled_dvd_outer

/-- **The loops of `do_iteration_fast`** reach their end. -/
theorem fastRun (hin : info.localRow + k.outerUnrolledRows ≤ k.tileHeight) (hroom : WindowInTile k info) :
    ∃ st, runIteration k lane peers raw info smem = some st ∧
      FastAt k raw lane peers info smem k.outerUnrolledRows k.unrolledCols k.outerUnrolledRows st := by
  have hD := k.diags_pos
  have hwidth : k.unrolledCols = k.diagsPerThread + k.outerUnrolledRows - 1 := rfl
  have hleU := Nat.le_max_left k.unrolledRows k.outerUnrolledRows
  have hleO := Nat.le_max_right k.unrolledRows k.outerUnrolledRows
  have hcols : info.localCol + (k.diagsPerThread + max k.unrolledRows k.outerUnrolledRows) ≤ k.tileWidth := hroom
  have hstart : FastAt k raw lane peers info smem 0 0 0 (startIteration k raw info smem) := by
    refine ⟨⟨rfl, rfl, rfl, rfl⟩, fun i _ => rfl, ⟨rfl, rfl⟩, fun _ p => rfl, fun _ row hrow => ?_,
      fun _ row _ => rfl, fun x => ?_, fun x => ?_⟩
    · omega
    · rw [if_neg (by omega)]
      rfl
    · rw [if_neg (by omega)]
      rfl
  -- the first window
  have hload : Achieves (execStep k lane peers)
      (fun st => FastAt k raw lane peers info smem 0 0 0 st ∧
        Shows smem.col info.localCol (k.diagsPerThread + k.unrolledRows) st.window)
      [.loadWindow] (startIteration k raw info smem) := by
    refine achieves_one ?_ ⟨hstart.withWindow _, shows_load raw.window⟩
    unfold execStep
    dsimp only [startIteration]
    rw [vecLoad_inside (show info.localCol + k.innerUnrolledCols ≤ k.tileWidth by
      unfold Instance.innerUnrolledCols; omega)]
    rfl
  -- the batches; only the first one does not slide the window
  have hloop : ∀ st, FastAt k raw lane peers info smem 0 0 0 st ∧
      Shows smem.col info.localCol (k.diagsPerThread + k.unrolledRows) st.window →
      Achieves (execStep k lane peers)
        (fun st => FastAt k raw lane peers info smem k.outerUnrolledRows k.outerUnrolledRows
          k.outerUnrolledRows st)
        ((List.range k.outerIters).flatMap (batchSteps k)) st := by
    intro st h
    let inv (j : ℕ) (st : IterationState K) : Prop :=
      FastAt k raw lane peers info smem (j * k.unrolledRows) (j * k.unrolledRows) (j * k.unrolledRows) st ∧
        Shows smem.col (info.localCol + (j - 1) * k.unrolledRows) (k.diagsPerThread + k.unrolledRows) st.window
    have hrun : Achieves (execStep k lane peers) (inv k.outerIters)
        ((List.range k.outerIters).flatMap (batchSteps k)) st :=
      achieves_loop (I := inv) (by simpa only [inv, Nat.zero_mul, Nat.zero_sub, Nat.add_zero] using h)
        fun j hj t ht => achieves_batch hj hin (by omega) ht.1 ht.2
    obtain ⟨st', hst', hafter, -⟩ := hrun
    rw [outerIters_mul] at hafter
    exact ⟨st', hst', hafter⟩
  -- the columns whose entries are still in registers
  have htail : ∀ st, FastAt k raw lane peers info smem k.outerUnrolledRows k.outerUnrolledRows
        k.outerUnrolledRows st →
      Achieves (execStep k lane peers)
        (FastAt k raw lane peers info smem k.outerUnrolledRows k.unrolledCols k.outerUnrolledRows)
        (if k.computeCols then [.updateCols k.outerUnrolledRows (k.unrolledCols - k.outerUnrolledRows)]
          else []) st := by
    intro st h
    refine achieves_if (fun hon => ?_) fun hoff => h.skipCols hoff
    obtain ⟨st', hstep, hafter, -, -⟩ := fastAt_updateCols h hon (fun _ _ => rfl)
      (show k.unrolledCols - k.outerUnrolledRows = 0 ∨ _ by omega)
    rw [show k.outerUnrolledRows + (k.unrolledCols - k.outerUnrolledRows) = k.unrolledCols by omega] at hafter
    exact achieves_one hstep hafter
  exact (hload.append hloop).append htail

/-- A statement leaves the position as it is. -/
theorem moved_execStep {x : IterationStep} {st st' : IterationState K} (h : Moved info 0 st.info)
    (hstep : execStep k lane peers st x = some st') : Moved info 0 st'.info := by
  cases x with
  | loadWindow | slideWindow j | loadRows j =>
      obtain ⟨loaded, -, hloaded⟩ := Option.bind_eq_some_iff.mp hstep
      obtain rfl := Option.some.inj hloaded
      exact h
  | doRow j r =>
      obtain rfl := Option.some.inj hstep
      exact ⟨h.localRow, h.localCol, h.globalRow, h.globalCol⟩
  | updateCols start num | updateRows start num =>
      simp only [execStep] at hstep
      split at hstep
      · obtain rfl := Option.some.inj hstep
        exact h
      · cases hstep

/-- **A call that succeeds has its window in the tile.** -/
theorem windowInTile_of_run {st : IterationState K}
    (hrun : runIteration k lane peers raw info smem = some st) : WindowInTile k info := by
  have hD := k.diags_pos
  have hiters := outerIters_mul k
  have hexec : ∀ x ∈ iterationSteps k, ∃ t t', Moved info 0 t.info ∧ execStep k lane peers t x = some t' :=
    fun x hx => executed_of_run (I := fun st => Moved info 0 st.info) (fun _ _ _ => moved_execStep) hrun
      ⟨rfl, rfl, rfl, rfl⟩ hx
  have hfirst : info.localCol + k.innerUnrolledCols ≤ k.tileWidth := by
    obtain ⟨t, t', hpos, hstep⟩ := hexec .loadWindow (by simp [iterationSteps])
    obtain ⟨window, hload, -⟩ := Option.bind_eq_some_iff.mp hstep
    have hread := (vecLoad_eq_some hload).1
    rw [hpos.localCol] at hread
    unfold Instance.innerUnrolledCols at hread ⊢
    omega
  unfold Instance.innerUnrolledCols at hfirst
  unfold WindowInTile
  by_cases hone : k.outerIters ≤ 1
  · have hle := Nat.mul_le_mul_right k.unrolledRows hone
    rw [max_eq_left (by omega)]
    exact hfirst
  · -- the window of the last batch
    obtain ⟨t, t', hpos, hstep⟩ := hexec (.slideWindow (k.outerIters - 1)) (by
      unfold iterationSteps
      refine List.mem_append_left _ (List.mem_append_right _ (List.mem_flatMap.mpr ⟨k.outerIters - 1, ?_, ?_⟩))
      · exact List.mem_range.mpr (by omega)
      · unfold batchSteps
        rw [if_pos (by omega)]
        simp)
    obtain ⟨window, hload, -⟩ := Option.bind_eq_some_iff.mp hstep
    have hread := (vecLoad_eq_some hload).1
    have hlast : (k.outerIters - 1) * k.unrolledRows + k.unrolledRows = k.outerUnrolledRows := by
      rw [← Nat.succ_mul, Nat.succ_eq_add_one, Nat.sub_add_cancel (by omega), hiters]
    have hU := k.unrolledRows_pos
    rw [hpos.localCol] at hread
    unfold Instance.innerUnrolledCols at hread
    rw [max_eq_right (by omega)]
    omega

/-- **`do_iteration_fast`**, when its window is inside the tile. -/
theorem fastCall (hin : info.localRow + k.outerUnrolledRows ≤ k.tileHeight) (hroom : WindowInTile k info) :
    ∃ st, runIteration k lane peers raw info smem = some st ∧
      doIterationFast k lane peers raw info smem = some (st.info.advance k.outerUnrolledRows, st.smem) ∧
      FastAt k raw lane peers info smem k.outerUnrolledRows k.unrolledCols k.outerUnrolledRows st := by
  obtain ⟨st, hrun, hafter⟩ : ∃ st, runIteration k lane peers raw info smem = some st ∧
      FastAt k raw lane peers info smem k.outerUnrolledRows k.unrolledCols k.outerUnrolledRows st :=
    fastRun hin hroom
  refine ⟨st, hrun, ?_, hafter⟩
  unfold doIterationFast
  rw [hrun]
  rfl

/-- A call fails when its window is not inside the tile. -/
theorem windowInTile_of_call {next : SCAMPThreadInfo K × SCAMPSmem K}
    (hcall : doIterationFast k lane peers raw info smem = some next) : WindowInTile k info := by
  obtain ⟨st, hrun, -⟩ := Option.bind_eq_some_iff.mp hcall
  exact windowInTile_of_run hrun

end

/-! ## What is flushed, and when -/

section
variable {K : Type} [LinearOrder K]

/-- The statement takes the register of column `p` to shared memory. -/
def FlushesCol (p : ℕ) : IterationStep → Prop
  | .updateCols startIndex num => startIndex ≤ p ∧ p < startIndex + num
  | _ => False

def FlushesRow (row : ℕ) : IterationStep → Prop
  | .updateRows rowIter num => rowIter ≤ row ∧ row < rowIter + num
  | _ => False

/-- The statement merges a correlation into the register of column `p`. -/
def ReachesCol (k : Instance K) (p : ℕ) : IterationStep → Prop
  | .doRow j r => j * k.unrolledRows + r ≤ p ∧ p < j * k.unrolledRows + r + k.diagsPerThread
  | _ => False

def ReachesRow (k : Instance K) (row : ℕ) : IterationStep → Prop
  | .doRow j r => j * k.unrolledRows + r = row
  | _ => False

variable {k : Instance K}

theorem flushesCol_batch {j p : ℕ} {x : IterationStep} (hx : x ∈ batchSteps k j) (hflush : FlushesCol p x) :
    j * k.unrolledRows ≤ p ∧ p < j * k.unrolledRows + k.unrolledRows := by
  cases x with
  | updateCols startIndex num =>
      obtain ⟨-, rfl, rfl⟩ : k.computeCols = true ∧ startIndex = j * k.unrolledRows ∧ num = k.unrolledRows := by
        simpa [batchSteps] using hx
      exact hflush
  | _ => exact hflush.elim

theorem flushesRow_batch {j row : ℕ} {x : IterationStep} (hx : x ∈ batchSteps k j) (hflush : FlushesRow row x) :
    j * k.unrolledRows ≤ row ∧ row < j * k.unrolledRows + k.unrolledRows := by
  cases x with
  | updateRows rowIter num =>
      obtain ⟨-, rfl, rfl⟩ : k.computeRows = true ∧ rowIter = j * k.unrolledRows ∧ num = k.unrolledRows := by
        simpa [batchSteps] using hx
      exact hflush
  | _ => exact hflush.elim

/-- A batch merges nothing into the columns to the left of it. -/
theorem reachesCol_batch {j p : ℕ} {x : IterationStep} (hx : x ∈ batchSteps k j) (hreach : ReachesCol k p x) :
    j * k.unrolledRows ≤ p := by
  cases x with
  | doRow i r =>
      obtain ⟨-, rfl⟩ : r < k.unrolledRows ∧ j = i := by simpa [batchSteps] using hx
      exact (Nat.le_add_right _ _).trans hreach.1
  | _ => exact hreach.elim

theorem reachesRow_batch {j row : ℕ} {x : IterationStep} (hx : x ∈ batchSteps k j) (hreach : ReachesRow k row x) :
    j * k.unrolledRows ≤ row := by
  cases x with
  | doRow i r =>
      obtain ⟨-, rfl⟩ : r < k.unrolledRows ∧ j = i := by simpa [batchSteps] using hx
      exact (Nat.le_add_right _ _).trans hreach.le
  | _ => exact hreach.elim

/-- The batch of a row. -/
theorem batch_of_lt {row : ℕ} (hrow : row < k.outerUnrolledRows) :
    row / k.unrolledRows < k.outerIters ∧ row / k.unrolledRows * k.unrolledRows ≤ row ∧
      row < row / k.unrolledRows * k.unrolledRows + k.unrolledRows := by
  refine ⟨?_, Nat.div_mul_le_self row _, Nat.lt_div_mul_add k.unrolledRows_pos⟩
  rw [Nat.div_lt_iff_lt_mul k.unrolledRows_pos, outerIters_mul]
  exact hrow

/-- A later batch starts below the row. -/
theorem lt_batch {i row : ℕ} (hi : row / k.unrolledRows < i) : row < i * k.unrolledRows :=
  (Nat.div_lt_iff_lt_mul k.unrolledRows_pos).mp hi

/-- The loop over the batches flushes what belongs to a row of the outer loop once, in the batch of the row:
    no other batch flushes it, and none after that one merges anything into it. -/
theorem onceAfter_batches {F C : IterationStep → Prop} {n : ℕ} (hn : n < k.outerUnrolledRows)
    (hbatch : OnceAfter F C (batchSteps k (n / k.unrolledRows)))
    (hflush : ∀ j, ∀ x ∈ batchSteps k j, F x → j * k.unrolledRows ≤ n ∧ n < j * k.unrolledRows + k.unrolledRows)
    (hreach : ∀ j, ∀ x ∈ batchSteps k j, C x → j * k.unrolledRows ≤ n) :
    OnceAfter F C ((List.range k.outerIters).flatMap (batchSteps k)) := by
  obtain ⟨hj, hle, -⟩ := batch_of_lt hn
  refine onceAfter_loop hj hbatch (fun i hi x hx hF => ?_) fun i _ hi x hx => ⟨fun hF => ?_, fun hC => ?_⟩
  · have hnext := Nat.mul_le_mul_right k.unrolledRows hi
    rw [Nat.succ_mul] at hnext
    exact absurd (hflush i x hx hF).2 (not_lt.mpr (hnext.trans hle))
  · exact absurd (lt_batch hi) (not_lt.mpr (hflush i x hx hF).1)
  · exact absurd (lt_batch hi) (not_lt.mpr (hreach i x hx hC))

/-- **Every column is flushed exactly once**, after the last correlation merged into its register. -/
theorem flushedOnce_col (hon : k.computeCols = true) {p : ℕ} (hp : p < k.unrolledCols) :
    OnceAfter (FlushesCol p) (ReachesCol k p) (iterationSteps k) := by
  unfold iterationSteps
  rw [if_pos hon]
  by_cases hrow : p < k.outerUnrolledRows
  · -- in the batch of the row with its number
    obtain ⟨-, hle, hlt⟩ := batch_of_lt hrow
    have hbatch : OnceAfter (FlushesCol p) (ReachesCol k p) (batchSteps k (p / k.unrolledRows)) := by
      unfold batchSteps
      rw [if_pos hon]
      refine (OnceAfter.append_left (onceAfter_one ⟨hle, hlt⟩) fun x hx => ?_).append_right fun x hx => ?_
      · intro hflush
        cases x with
        | updateCols startIndex num => simp at hx
        | _ => exact hflush
      · cases x with
        | updateRows rowIter num => exact ⟨id, id⟩
        | _ => simp at hx
    refine ((onceAfter_batches hrow hbatch (fun _ _ => flushesCol_batch) fun _ _ => reachesCol_batch).append_left
      ?_).append_right fun x hx => ?_
    · simp [FlushesCol]
    · rw [List.mem_singleton.mp hx]
      exact ⟨fun hflush => absurd hflush.1 (not_le.mpr hrow), id⟩
  · -- in the end
    have hwidth : k.unrolledCols = k.diagsPerThread + k.outerUnrolledRows - 1 := rfl
    refine (onceAfter_one ⟨by omega, by omega⟩).append_left fun x hx hflush => ?_
    rcases List.mem_append.mp hx with hx | hx
    · rw [List.mem_singleton.mp hx] at hflush
      exact hflush
    · obtain ⟨j, hj, hx⟩ := List.mem_flatMap.mp hx
      have hlast := Nat.mul_le_mul_right k.unrolledRows (List.mem_range.mp hj)
      rw [Nat.succ_mul, outerIters_mul] at hlast
      have hbounds := flushesCol_batch hx hflush
      omega

/-- **Every row is flushed exactly once**, after its correlations are merged. -/
theorem flushedOnce_row (hon : k.computeRows = true) {row : ℕ} (hrow : row < k.outerUnrolledRows) :
    OnceAfter (FlushesRow row) (ReachesRow k row) (iterationSteps k) := by
  obtain ⟨-, hle, hlt⟩ := batch_of_lt hrow
  have hbatch : OnceAfter (FlushesRow row) (ReachesRow k row) (batchSteps k (row / k.unrolledRows)) := by
    unfold batchSteps
    rw [if_pos hon]
    refine OnceAfter.append_left (onceAfter_one ⟨hle, hlt⟩) fun x hx hflush => ?_
    cases x with
    | updateRows rowIter num => simp at hx
    | _ => exact hflush
  unfold iterationSteps
  refine ((onceAfter_batches hrow hbatch (fun _ _ => flushesRow_batch) fun _ _ => reachesRow_batch).append_left
    ?_).append_right fun x hx => ?_
  · simp [FlushesRow]
  · cases x with
    | updateCols startIndex num => exact ⟨id, id⟩
    | _ => simp at hx

end

end SlidingWindow

end Scamp
