import Scamp.Gpu.Correctness.Iteration
import Mathlib.Algebra.BigOperators.Group.Finset.Basic

/-!
# `Gpu.Correctness.WarpSums` — the sums of `SUM_THRESH`

A `SUM_THRESH` profile adds up the correlations above the threshold, which is the same sum whether they go to
a register first or to shared memory one by one (`colReg_total`, `edgeCol_total`). The rows are added up over
a warp in between: the first lane has the sum over all lanes after the shuffles (`shflDownSum_num`), and what
the other lanes add to a row otherwise is then there already (`warpRun`).
-/

namespace Scamp

open Lib

namespace SlidingWindow

section
variable {K : Type} [Field K] [LinearOrder K]

/-! ## Adding to an entry -/

/-- What a correlation adds to a sum. -/
def amount (threshold : K) : Dbl K → K
  | .num v => gate threshold v
  | .nan => 0

/-- What a list of correlations adds. -/
def total (threshold : K) (offers : List (Dbl K × ℕ)) : K := (offers.map fun o => amount threshold o.1).sum

theorem gated_eq (threshold : K) (dist : Dbl K) : gated threshold dist = .num (amount threshold dist) := by
  cases dist with
  | num v =>
      show gated threshold (.num v) = .num (gate threshold v)
      unfold gated gate
      rw [Dbl.gt_num]
      by_cases hlt : threshold < v
      · rw [if_pos (decide_eq_true hlt), if_pos hlt]
      · rw [if_neg (by simpa using hlt), if_neg hlt]
  | nan => rfl

omit [LinearOrder K] in
theorem add_num_zero (x : Dbl K) : x.add (.num 0) = x := by
  cases x with
  | num v => rw [Dbl.add_num, add_zero]
  | nan => rfl

omit [LinearOrder K] in
theorem add_num_num (x : Dbl K) (a b : K) : (x.add (.num a)).add (.num b) = x.add (.num (a + b)) := by
  cases x with
  | num v => rw [Dbl.add_num, Dbl.add_num, Dbl.add_num, add_assoc]
  | nan => rfl

omit [LinearOrder K] in
theorem doAtomicAdd_zero (e : MpEntry K) : doAtomicAdd e (.num 0) = e := by
  unfold doAtomicAdd
  rw [add_num_zero]

omit [LinearOrder K] in
theorem doAtomicAdd_add (e : MpEntry K) (a b : K) :
    doAtomicAdd (doAtomicAdd e (.num a)) (.num b) = doAtomicAdd e (.num (a + b)) := by
  unfold doAtomicAdd
  rw [add_num_num]

omit [LinearOrder K] in
/-- Amounts added one after the other. -/
theorem foldl_doAtomicAdd {β : Type} (g : β → K) (offers : List β) (e : MpEntry K) :
    offers.foldl (fun e o => doAtomicAdd e (.num (g o))) e = doAtomicAdd e (.num (offers.map g).sum) := by
  induction offers generalizing e with
  | nil => rw [List.foldl_nil, List.map_nil, List.sum_nil, doAtomicAdd_zero]
  | cons o offers ih => rw [List.foldl_cons, ih, doAtomicAdd_add, List.map_cons, List.sum_cons]

/-- A correlation that is added only when it is above the threshold. -/
theorem doAtomicAdd_if_gt (threshold : K) (e : MpEntry K) (dist : Dbl K) :
    (if dist.gt (.num threshold) then doAtomicAdd e dist else e) =
      doAtomicAdd e (.num (amount threshold dist)) := by
  rw [← gated_eq]
  unfold gated
  split
  · rfl
  · rw [doAtomicAdd_zero]

/-! ## What a call adds -/

variable {k : Instance K} {raw : RawRegisters K} {info : SCAMPThreadInfo K} {smem : SCAMPSmem K}

/-- What the thread adds to column `p` of its parallelogram. -/
def colTotal (k : Instance K) (info : SCAMPThreadInfo K) (smem : SCAMPSmem K) (p : ℕ) : K :=
  total k.threshold (columnOffers k info smem k.outerUnrolledRows p)

/-- What the thread adds to a row. -/
def rowTotal (k : Instance K) (info : SCAMPThreadInfo K) (smem : SCAMPSmem K) (row : ℕ) : K :=
  total k.threshold (rowOffers k info smem row)

/-- The register of a column is added to shared memory. -/
theorem flushColumn_total (hsum : k.type = .sumThresh) (e : MpEntry K) (p : ℕ) :
    flushColumn k e (colReg k raw info smem k.outerUnrolledRows p) =
      doAtomicAdd e (.num (colTotal k info smem p)) := by
  have hmerge : mergeColumn k = fun _ best dist => doAtomicAdd best (.num (amount k.threshold dist)) := by
    funext _ best dist
    unfold mergeColumn
    rw [hsum]
    dsimp only
    rw [gated_eq]
    rfl
  unfold flushColumn colReg
  rw [hsum, hmerge]
  dsimp only
  rw [foldl_doAtomicAdd]
  unfold doAtomicAdd initDist
  dsimp only
  rw [Dbl.add_num, zero_add]
  rfl

/-- The correlations of a column are added one by one. -/
theorem edgeCol_total (hsum : k.type = .sumThresh) (e : MpEntry K) (p : ℕ) :
    edgeCol k info smem k.outerUnrolledRows p e = doAtomicAdd e (.num (colTotal k info smem p)) := by
  have hedge : edgeColumn k = fun _ e dist => doAtomicAdd e (.num (amount k.threshold dist)) := by
    funext _ e dist
    unfold edgeColumn
    rw [hsum]
    exact doAtomicAdd_if_gt ..
  unfold edgeCol
  rw [hedge]
  exact foldl_doAtomicAdd ..

/-- The register of a row. -/
theorem rowReg_total (hsum : k.type = .sumThresh) {row : ℕ} {reg : MpEntry K}
    (h : RowReg k raw info smem row reg) : reg.value = .num (rowTotal k info smem row) := by
  obtain ⟨dist, hdist, rfl⟩ := h
  have hgated : gatedSum k dist = .num (rowTotal k info smem row) := by
    have hfold : ∀ n ≤ k.diagsPerThread,
        (List.range n).foldl (fun sum i => sum.add (gated k.threshold (dist i))) (.num 0) =
          Dbl.num ((List.range n).map fun i => amount k.threshold (distAt info smem row i)).sum := by
      intro n
      induction n with
      | zero => exact fun _ => rfl
      | succ n ih =>
          intro hn
          rw [List.range_succ, List.foldl_append, ih (by omega), List.foldl_cons, List.foldl_nil, gated_eq,
            Dbl.add_num, hdist n (by omega), List.map_append, List.sum_append, List.map_singleton,
            List.sum_singleton]
    unfold gatedSum rowTotal total rowOffers
    rw [hfold _ le_rfl, List.map_map]
    rfl
  unfold mergeToRow
  rw [hsum]
  dsimp only [initDist]
  rw [hgated, Dbl.add_num, zero_add]

/-- The correlations of a row are added up and taken to shared memory. -/
theorem reduceRow_total (hsum : k.type = .sumThresh) (e : MpEntry K) (row : ℕ) :
    reduceRow k e (edgeRowReg k info smem row) = doAtomicAdd e (.num (rowTotal k info smem row)) := by
  have hedge : edgeRow k = fun _ e dist => doAtomicAdd e (.num (amount k.threshold dist)) := by
    funext _ e dist
    unfold edgeRow
    rw [hsum]
    exact doAtomicAdd_if_gt ..
  unfold reduceRow edgeRowReg
  rw [hsum, hedge, foldl_doAtomicAdd]
  dsimp only [initDist]
  unfold doAtomicAdd
  rw [Dbl.add_num, zero_add]
  rfl

/-! ## The shuffles of a warp -/

omit [LinearOrder K] in
/-- **The shuffles**: after those with offsets below `2 ^ n`, a lane has the sum over `2 ^ n` lanes from its
    own on, as long as there are so many. -/
theorem shflDownSum_num {n lane : ℕ} {sum : ℕ → Dbl K} {f : ℕ → K} (hin : lane + 2 ^ n ≤ 32)
    (hsum : ∀ l < 32, sum l = .num (f l)) :
    shflDownSum (2 ^ n / 2) sum lane = .num (∑ i ∈ Finset.range (2 ^ n), f (lane + i)) := by
  induction n generalizing sum f with
  | zero =>
      unfold shflDownSum
      rw [if_pos (by decide), hsum lane (by omega), pow_zero, Finset.sum_range_one, Nat.add_zero]
  | succ n ih =>
      have hpow := Nat.two_pow_pos n
      rw [pow_succ, Nat.mul_div_cancel _ (by decide)]
      rw [pow_succ] at hin
      unfold shflDownSum
      rw [if_neg (by omega)]
      rw [ih (f := fun l => f l + if l + 2 ^ n < 32 then f (l + 2 ^ n) else f l) (by omega) fun l hl => ?_]
      · rw [mul_two, Finset.sum_range_add, ← Finset.sum_add_distrib]
        congr 1
        refine Finset.sum_congr rfl fun i hi => ?_
        have hi := Finset.mem_range.mp hi
        rw [if_pos (by omega), show lane + i + 2 ^ n = lane + (2 ^ n + i) by omega]
      · rw [hsum l hl]
        by_cases hlt : l + 2 ^ n < 32
        · rw [if_pos hlt, if_pos hlt, hsum _ hlt, Dbl.add_num]
        · rw [if_neg hlt, if_neg hlt, Dbl.add_num]

/-! ## A warp -/

/-- The rows from `localRow` on with something added to them. -/
def rowsAdded (k : Instance K) (localRow : ℕ) (a : ℕ → K) (mp : ℕ → MpEntry K) : ℕ → MpEntry K :=
  fun x => if k.computeRows = true ∧ localRow ≤ x ∧ x < localRow + k.outerUnrolledRows then
    doAtomicAdd (mp x) (.num (a (x - localRow))) else mp x

theorem rowsAdded_zero (localRow : ℕ) (mp : ℕ → MpEntry K) : rowsAdded k localRow (fun _ => 0) mp = mp := by
  funext x
  unfold rowsAdded
  rw [doAtomicAdd_zero, ite_self]

theorem rowsAdded_add (localRow : ℕ) (a b : ℕ → K) (mp : ℕ → MpEntry K) :
    rowsAdded k localRow b (rowsAdded k localRow a mp) = rowsAdded k localRow (fun row => a row + b row) mp := by
  funext x
  unfold rowsAdded
  by_cases hx : k.computeRows = true ∧ localRow ≤ x ∧ x < localRow + k.outerUnrolledRows
  · rw [if_pos hx, if_pos hx, if_pos hx, doAtomicAdd_add]
  · rw [if_neg hx, if_neg hx, if_neg hx]

theorem rowsAdded_congr {localRow : ℕ} {a b : ℕ → K} (mp : ℕ → MpEntry K)
    (h : k.computeRows = true → ∀ row < k.outerUnrolledRows, a row = b row) :
    rowsAdded k localRow a mp = rowsAdded k localRow b mp := by
  funext x
  unfold rowsAdded
  by_cases hx : k.computeRows = true ∧ localRow ≤ x ∧ x < localRow + k.outerUnrolledRows
  · rw [if_pos hx, if_pos hx, h hx.1 _ (by omega)]
  · rw [if_neg hx, if_neg hx]

/-- The columns of the parallelogram with the thread's sums added to them. -/
def colsAdded (k : Instance K) (info : SCAMPThreadInfo K) (smem : SCAMPSmem K) : ℕ → MpEntry K :=
  fun x => if k.computeCols = true ∧ info.localCol ≤ x ∧ x < info.localCol + k.unrolledCols then
    doAtomicAdd (smem.localMpCol x) (.num (colTotal k info smem (x - info.localCol))) else smem.localMpCol x

/-- A thread of the warp calls `do_iteration_fast`: the first one adds the sums of all lanes to the rows. -/
theorem fastLane (raw : RawRegisters K) (lane : ℕ) (peers : ℕ → ℕ → Dbl K) (hsum : k.type = .sumThresh)
    (hin : info.localRow + k.outerUnrolledRows ≤ k.tileHeight) (hroom : WindowInTile k info) {f : ℕ → ℕ → K}
    (hown : ∀ row, f row lane = rowTotal k info smem row)
    (hpeers : k.computeRows = true → ∀ row < k.outerUnrolledRows, ∀ l < 32, peers row l = .num (f row l)) :
    ∃ next, doIterationFast k lane peers raw info smem = some next ∧ next.2.col = smem.col ∧
      next.2.row = smem.row ∧ next.2.localMpCol = colsAdded k info smem ∧
      next.2.localMpRow = rowsAdded k info.localRow
        (fun row => if lane = 0 then ∑ l ∈ Finset.range 32, f row l else 0) smem.localMpRow := by
  obtain ⟨st, -, hcall, h⟩ : ∃ st, runIteration k lane peers raw info smem = some st ∧
      doIterationFast k lane peers raw info smem = some (st.info.advance k.outerUnrolledRows, st.smem) ∧
      FastAt k raw lane peers info smem k.outerUnrolledRows k.unrolledCols k.outerUnrolledRows st :=
    fastCall hin hroom
  refine ⟨_, hcall, h.stats.1, h.stats.2, ?_, ?_⟩
  · funext x
    rw [h.mpCol x]
    unfold colsAdded
    rw [flushColumn_total hsum]
  · funext x
    rw [h.mpRow x]
    unfold rowsAdded
    by_cases hx : k.computeRows = true ∧ info.localRow ≤ x ∧ x < info.localRow + k.outerUnrolledRows
    · rw [if_pos hx, if_pos hx]
      unfold flushRow
      rw [hsum]
      dsimp only
      by_cases hlane : lane = 0
      · have hlt : x - info.localRow < k.outerUnrolledRows := by omega
        have hvalues : ∀ l < 32, Function.update (peers (x - info.localRow)) lane
            (st.bestRow (x - info.localRow)).value l = .num (f (x - info.localRow) l) := by
          intro l hl
          by_cases hthis : l = lane
          · rw [hthis, Function.update_self, rowReg_total hsum (h.bestRow hx.1 _ hlt), hown]
          · rw [Function.update_of_ne hthis, hpeers hx.1 _ hlt l hl]
        have hshfl : shflDownSum 16 _ lane = .num (∑ i ∈ Finset.range 32, f (x - info.localRow) (lane + i)) :=
          shflDownSum_num (n := 5) (by omega) hvalues
        rw [if_pos hlane, if_pos hlane, hshfl, hlane]
        simp only [Nat.zero_add]
      · rw [if_neg hlane, if_neg hlane, doAtomicAdd_zero]
    · rw [if_neg hx, if_neg hx]

/-- A thread of the warp calls `do_row_edge` for its rows. -/
theorem edgeLane (smem : SCAMPSmem K) {diag numDiags : ℕ} (hsum : k.type = .sumThresh)
    (hin : InTile k info diag numDiags) :
    ∃ next, doRowsEdge k diag numDiags k.outerUnrolledRows info smem = some next ∧ next.2.col = smem.col ∧
      next.2.row = smem.row ∧ next.2.localMpCol = colsAdded k info smem ∧
      next.2.localMpRow = rowsAdded k info.localRow (rowTotal k info smem) smem.localMpRow := by
  obtain ⟨next, hcall, h⟩ : ∃ next, doRowsEdge k diag numDiags k.outerUnrolledRows info smem = some next ∧
      EdgeAfter k info smem k.outerUnrolledRows next.1 next.2 := edgeRun hin
  refine ⟨next, hcall, h.stats.1, h.stats.2, ?_, ?_⟩
  · funext x
    rw [h.mpCol_inside x]
    unfold colsAdded
    rw [edgeCol_total hsum]
  · funext x
    rw [h.mpRow x]
    unfold rowsAdded
    rw [reduceRow_total hsum]

/-- What a lane hands over for a row. -/
theorem rowRegister_total (hsum : k.type = .sumThresh)
    (hin : info.localRow + k.outerUnrolledRows ≤ k.tileHeight) (hroom : WindowInTile k info)
    (hon : k.computeRows = true) {row : ℕ} (hrow : row < k.outerUnrolledRows) :
    rowRegister k raw info smem row = .num (rowTotal k info smem row) := by
  obtain ⟨st, hrun, h⟩ : ∃ st, runIteration k 0 (fun _ _ => .num 0) raw info smem = some st ∧
      FastAt k raw 0 (fun _ _ => .num 0) info smem k.outerUnrolledRows k.unrolledCols k.outerUnrolledRows st :=
    fastRun hin hroom
  unfold rowRegister
  rw [hrun]
  exact rowReg_total hsum (h.bestRow hon row hrow)

end

section
variable {K : Type} [Field K] [LinearOrder K] {k : Instance K} {raw : ℕ → RawRegisters K}
  {info : ℕ → SCAMPThreadInfo K} {smem : SCAMPSmem K} {diag : ℕ → ℕ} {numDiags localRow : ℕ}

/-- The shared memory of both ways after `n` lanes: the columns are the same, and in the rows the first lane
    has added the sums of all lanes where the others come one after the other. -/
structure WarpAt (k : Instance K) (info : ℕ → SCAMPThreadInfo K) (smem : SCAMPSmem K) (localRow n : ℕ)
    (fast edge : SCAMPSmem K) : Prop where
  fastStats : fast.col = smem.col ∧ fast.row = smem.row
  edgeStats : edge.col = smem.col ∧ edge.row = smem.row
  cols : fast.localMpCol = edge.localMpCol
  fastRows : fast.localMpRow = rowsAdded k localRow
    (fun row => if n = 0 then 0 else ∑ l ∈ Finset.range 32, rowTotal k (info l) smem row) smem.localMpRow
  edgeRows : edge.localMpRow = rowsAdded k localRow
    (fun row => ∑ l ∈ Finset.range n, rowTotal k (info l) smem row) smem.localMpRow

/-- The sums do not depend on the best-so-far values. -/
theorem rowTotal_congr {sm : SCAMPSmem K} {inf : SCAMPThreadInfo K} (hstats : sm.col = smem.col ∧ sm.row = smem.row)
    (row : ℕ) : rowTotal k inf sm row = rowTotal k inf smem row := by
  unfold rowTotal rowOffers
  rw [distAt_congr hstats.1 hstats.2]

theorem colsAdded_congr {sm sm' : SCAMPSmem K} {inf : SCAMPThreadInfo K} (hcol : sm.col = sm'.col)
    (hrow : sm.row = sm'.row) (hmp : sm.localMpCol = sm'.localMpCol) :
    colsAdded k inf sm = colsAdded k inf sm' := by
  unfold colsAdded colTotal columnOffers
  rw [distAt_congr hcol hrow, hmp]

/-- **One lane.** -/
theorem warpAt_lane (raw : ℕ → RawRegisters K) (hsum : k.type = .sumThresh)
    (hin : ∀ l < 32, InTile k (info l) (diag l) numDiags) (hroom : ∀ l < 32, WindowInTile k (info l))
    (hrow : ∀ l < 32, (info l).localRow = localRow) {lane : ℕ} (hlane : lane < 32)
    {fast edge : SCAMPSmem K} (h : WarpAt k info smem localRow lane fast edge) :
    ∃ fast' edge',
      doIterationFast k lane (fun row peer => rowRegister k (raw peer) (info peer) smem row) (raw lane)
        (info lane) fast = some fast' ∧
      doRowsEdge k (diag lane) numDiags k.outerUnrolledRows (info lane) edge = some edge' ∧
      WarpAt k info smem localRow (lane + 1) fast'.2 edge'.2 := by
  obtain ⟨fast', hfast, hfcol, hfrow, hfcols, hfrows⟩ := fastLane (raw lane) lane
    (fun row peer => rowRegister k (raw peer) (info peer) smem row)
    (f := fun row l => rowTotal k (info l) smem row) hsum (hin lane hlane).rows (hroom lane hlane)
    (fun row => (rowTotal_congr h.fastStats row).symm)
    fun hon row hlt l hl => rowRegister_total hsum (hin l hl).rows (hroom l hl) hon hlt
  obtain ⟨edge', hedge, hecol, herow, hecols, herows⟩ := edgeLane edge hsum (hin lane hlane)
  refine ⟨fast', edge', hfast, hedge, ⟨?_, ?_⟩, ⟨?_, ?_⟩, ?_, ?_, ?_⟩
  · exact hfcol.trans h.fastStats.1
  · exact hfrow.trans h.fastStats.2
  · exact hecol.trans h.edgeStats.1
  · exact herow.trans h.edgeStats.2
  · rw [hfcols, hecols]
    exact colsAdded_congr (h.fastStats.1.trans h.edgeStats.1.symm) (h.fastStats.2.trans h.edgeStats.2.symm) h.cols
  · rw [hfrows, h.fastRows, hrow lane hlane, rowsAdded_add]
    refine rowsAdded_congr _ fun _ row _ => ?_
    rw [if_neg (Nat.succ_ne_zero lane)]
    by_cases hfirst : lane = 0
    · rw [if_pos hfirst, if_pos hfirst, zero_add]
    · rw [if_neg hfirst, if_neg hfirst, add_zero]
  · rw [herows, h.edgeRows, hrow lane hlane, rowsAdded_add]
    refine rowsAdded_congr _ fun _ row _ => ?_
    rw [rowTotal_congr h.edgeStats, Finset.sum_range_succ]

/-- **A warp**: both ways leave the same shared memory. -/
theorem warpRun (hsum : k.type = .sumThresh) (hin : ∀ l < 32, InTile k (info l) (diag l) numDiags)
    (hroom : ∀ l < 32, WindowInTile k (info l)) (hrow : ∀ l < 32, (info l).localRow = localRow) :
    ∃ sm, warpIterationFast k raw info smem = some sm ∧ warpRowsEdge k diag numDiags info smem = some sm := by
  have hlanes : ∀ n ≤ 32, ∃ fast edge,
      (List.range n).foldlM (fun sm lane => do
        let next ← doIterationFast k lane (fun row peer => rowRegister k (raw peer) (info peer) smem row)
          (raw lane) (info lane) sm
        return next.2) smem = some fast ∧
      (List.range n).foldlM (fun sm lane => do
        let next ← doRowsEdge k (diag lane) numDiags k.outerUnrolledRows (info lane) sm
        return next.2) smem = some edge ∧
      WarpAt k info smem localRow n fast edge := by
    intro n
    induction n with
    | zero =>
        intro _
        refine ⟨smem, smem, rfl, rfl, ⟨rfl, rfl⟩, ⟨rfl, rfl⟩, rfl, ?_, ?_⟩ <;> exact (rowsAdded_zero ..).symm
    | succ n ih =>
        intro hn
        obtain ⟨fast, edge, hfast, hedge, h⟩ := ih (by omega)
        obtain ⟨fast', edge', hcall, hcalls, h'⟩ := warpAt_lane raw hsum hin hroom hrow hn h
        refine ⟨fast'.2, edge'.2, ?_, ?_, h'⟩
        · rw [List.range_succ, List.foldlM_append, hfast]
          simp [hcall]
        · rw [List.range_succ, List.foldlM_append, hedge]
          simp [hcalls]
  obtain ⟨fast, edge, hfast, hedge, h⟩ := hlanes 32 le_rfl
  have hsame : fast = edge := by
    have hcol := h.fastStats.1.trans h.edgeStats.1.symm
    have hrows := h.fastStats.2.trans h.edgeStats.2.symm
    have hmpRow : fast.localMpRow = edge.localMpRow := h.fastRows.trans h.edgeRows.symm
    have hmpCol := h.cols
    cases fast
    cases edge
    simp_all only
  exact ⟨fast, hfast, hsame ▸ hedge⟩

/-- A warp that succeeds has the windows of all its lanes in the tile. -/
theorem windowInTile_of_warp {sm : SCAMPSmem K} (hwarp : warpIterationFast k raw info smem = some sm) {lane : ℕ}
    (hlane : lane < 32) : WindowInTile k (info lane) := by
  obtain ⟨before, after, -, hcall⟩ := executed_of_run (I := fun _ => True) (fun _ _ _ _ _ => trivial) hwarp
    trivial (List.mem_range.mpr hlane)
  obtain ⟨next, hnext, -⟩ := Option.bind_eq_some_iff.mp hcall
  exact windowInTile_of_call hnext

end

end SlidingWindow

end Scamp
