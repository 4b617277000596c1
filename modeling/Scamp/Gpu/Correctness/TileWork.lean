import Scamp.Gpu.Correctness.TileAccesses

/-!
# `Gpu.Correctness.TileWork` — what a thread does with a tile

The accesses of a thread between the two barriers of a tile offer the correlations of its cells in the tile
and nothing else (`tileWork_offers`), on the fast path as on the slow one. The covariances of the thread are
those of the recurrence all along (`OnDiagonal`), until it leaves the matrix (`LeftMatrix`).
-/

namespace Scamp

open Lib

namespace SlidingWindow

namespace DoTile

section
variable {K : Type} [Field K] [LinearOrder K]

/-! ## Registers and hits -/

section
variable {keeps : Bool} {g : UInt32} {hits : Block K} {o : MpEntry K}

/-- A register that took in hits may be offered to an entry that these hits are for. -/
theorem genuine_of_best (h : Best keeps ⟨.num (-2), g⟩ {hits} o) {S : Set (Hit K)} (hsub : ∀ x ∈ hits, x ∈ S) :
    Genuine keeps S o := by
  intro w hw hlt
  obtain ⟨v, hv, -, -, hsame | ⟨x, hx, -, rfl, hindex⟩⟩ := best_hits h rfl
  · rw [hsame] at hw
    exact absurd hlt (Dbl.num.inj hw).ge.not_gt
  · exact ⟨x, hsub x hx, Dbl.num.inj (hv.symm.trans hw), hindex⟩

theorem num_of_best (h : Best keeps ⟨.num (-2), g⟩ {hits} o) : ∃ w, o.value = .num w := by
  obtain ⟨v, hv, -⟩ := best_hits h rfl
  exact ⟨v, hv⟩

theorem atLeast_of_best (h : Best keeps ⟨.num (-2), g⟩ {hits} o) {x : Hit K} (hx : x ∈ hits) : AtLeast x.corr o := by
  obtain ⟨v, hv, -, hdom, -⟩ := best_hits h rfl
  exact ⟨v, hv, hdom x hx⟩

end

/-! ## A thread on its diagonals -/

section
variable (L : Launch K) (block k thread : ℕ)

/-- The statistics of a position are in shared memory. -/
def HoldsStats (smem : SCAMPSmem K) (side : Side) (pos globalPos : ℕ) : Prop :=
  match side with
  | .a => (smem.col.df pos, smem.col.dg pos, smem.col.inorm pos) = L.stats .a globalPos
  | .b => (smem.row.df pos, smem.row.dg pos, smem.row.inorm pos) = L.stats .b globalPos

/-- The tile is in shared memory. -/
def TileLoaded (smem : SCAMPSmem K) : Prop :=
  ∀ side pos, pos < L.extent side → L.tileStart block k side + pos < L.size side →
    HoldsStats L smem side pos (L.tileStart block k side + pos)

/-- The first diagonal of the thread. -/
def diagOf : ℕ := startDiag L.cfg L.dims block thread

/-- The thread is in row `row` of its diagonals, with their covariances. -/
structure OnDiagonal (row : ℕ) (info : SCAMPThreadInfo K) : Prop where
  globalCol : info.globalCol = diagOf L block thread + row
  globalRow : info.globalRow = row
  cov : ∀ i < L.cfg.diagsPerThread, diagOf L block thread + row + i < L.args.nX →
    info.cov i = .num (covAt L.args L.cov row (diagOf L block thread + i))

/-- The thread is in row `j` of tile `k`. -/
structure InTileRow (j : ℕ) (info : SCAMPThreadInfo K) : Prop extends
    OnDiagonal L block thread (k * L.cfg.tileHeight + j) info where
  localRow : info.localRow = j
  localCol : info.localCol = thread * L.cfg.diagsPerThread + j

variable {L block k thread}

omit [Field K] in
theorem diagOf_eq (L : Launch K) (block thread : ℕ) :
    diagOf L block thread = L.tileStart block 0 .a + thread * L.cfg.diagsPerThread := by
  show startDiag L.cfg L.dims block thread = blockStartCol L.cfg L.dims block + 0 * _ + _
  rw [startDiag_eq, Nat.zero_mul, Nat.add_zero]

omit [Field K] in
theorem tileStart_a (L : Launch K) (block k : ℕ) :
    L.tileStart block k .a = L.tileStart block 0 .a + k * L.cfg.tileHeight := by
  show blockStartCol L.cfg L.dims block + _ = blockStartCol L.cfg L.dims block + 0 * _ + _
  omega

omit [Field K] in
theorem thread_diags (L : Launch K) (hthread : thread < L.cfg.blocksz) :
    thread * L.cfg.diagsPerThread + L.cfg.diagsPerThread ≤ L.cfg.blockDiags := by
  rw [← Nat.succ_mul]
  exact Nat.mul_le_mul_right _ hthread

/-- **The correlations of a row**: what a thread in a row of a tile computes, where the tile is loaded. -/
theorem edgeDist_eq {smem : SCAMPSmem K} (hload : TileLoaded L block k smem) (hthread : thread < L.cfg.blocksz)
    {j : ℕ} {info : SCAMPThreadInfo K} (h : InTileRow L block k thread j info) (hj : j < L.cfg.tileHeight)
    (hrow : info.globalRow < L.args.nY) {i : ℕ} (hi : i < L.cfg.diagsPerThread)
    (hcol : info.globalCol + i < L.args.nX) :
    edgeDist smem info i = L.corr info.globalRow (info.globalCol + i) ∧
      edgeCov smem info i = .num (covAt L.args L.cov (info.globalRow + 1) (diagOf L block thread + i)) := by
  have hdiags := thread_diags L hthread
  have hdiag := diagOf_eq L block thread
  have hstart := tileStart_a L block k
  have hcols := h.globalCol
  have hrows := h.globalRow
  have hcov := h.cov i hi (by omega)
  have hstatsCol := hload .a (info.localCol + i) (by
    rw [h.localCol]
    show _ < L.cfg.tileHeight + L.cfg.blockDiags
    omega) (by
    rw [h.localCol, hstart]
    show _ < L.args.nX
    omega)
  have hstatsRow := hload .b info.localRow (by rw [h.localRow]; exact hj) (by
    rw [h.localRow]
    show k * L.cfg.tileHeight + j < L.args.nY
    omega)
  rw [show L.tileStart block k .a + (info.localCol + i) = info.globalCol + i by
    rw [h.localCol, hstart]; omega] at hstatsCol
  rw [show L.tileStart block k .b + info.localRow = info.globalRow by
    rw [h.localRow, hrows]; rfl] at hstatsRow
  simp only [HoldsStats, Launch.stats, Prod.mk.injEq] at hstatsCol hstatsRow
  obtain ⟨hdf, hdg, hnorm⟩ := hstatsCol
  obtain ⟨hdf', hdg', hnorm'⟩ := hstatsRow
  rw [← hrows] at hcov
  constructor
  · unfold edgeDist Launch.corr
    rw [hcov, hnorm, hnorm', show info.globalCol + i - info.globalRow = diagOf L block thread + i by omega]
  · unfold edgeCov
    rw [hcov, hdf, hdg, hdf', hdg', show info.globalCol + i = diagOf L block thread + i + info.globalRow by omega]
    rfl

/-- **One row on.** -/
theorem InTileRow.next {smem : SCAMPSmem K} (hload : TileLoaded L block k smem) (hthread : thread < L.cfg.blocksz)
    {j : ℕ} {info : SCAMPThreadInfo K} (h : InTileRow L block k thread j info) (hj : j < L.cfg.tileHeight)
    (hrow : info.globalRow < L.args.nY) :
    InTileRow L block k thread (j + 1) ({ info with cov := edgeCov smem info }.advance 1) where
  globalCol := by
    show info.globalCol + 1 = _
    rw [h.globalCol]
    rfl
  globalRow := by
    show info.globalRow + 1 = _
    rw [h.globalRow]
    rfl
  cov := by
    intro i hi hcol
    show edgeCov smem info i = _
    have hcols := h.globalCol
    rw [(edgeDist_eq hload hthread h hj hrow hi (by omega)).2, h.globalRow]
    rfl
  localRow := by
    show info.localRow + 1 = _
    rw [h.localRow]
  localCol := by
    show info.localCol + 1 = _
    rw [h.localCol]
    rfl

/-! ## The fast path -/

/-- The thread of a call, `n` rows further on. -/
def rowsOn (info : SCAMPThreadInfo K) (smem : SCAMPSmem K) (n : ℕ) : SCAMPThreadInfo K :=
  { info with cov := covRow info smem n }.advance n

theorem InTileRow.rowsOn {smem : SCAMPSmem K} (hload : TileLoaded L block k smem) (hthread : thread < L.cfg.blocksz)
    {j : ℕ} {info : SCAMPThreadInfo K} (h : InTileRow L block k thread j info) {n : ℕ}
    (hn : j + n ≤ L.cfg.tileHeight) (hrows : k * L.cfg.tileHeight + j + n ≤ L.args.nY) :
    InTileRow L block k thread (j + n) (rowsOn info smem n) := by
  induction n with
  | zero => exact h
  | succ n ih =>
      have hprev := ih (by omega) (by omega)
      have hglobal := hprev.globalRow
      exact hprev.next hload hthread (by omega) (by omega)

/-- What the fast path is taken under: the tile and the diagonals of the thread are inside the matrix. -/
structure OnFastPath (L : Launch K) (block k thread : ℕ) : Prop where
  cols : L.tileStart block k .a + (L.cfg.tileHeight + L.cfg.blockDiags) < L.args.nX
  rows : k * L.cfg.tileHeight + L.cfg.tileHeight < L.args.nY
  diags : diagOf L block thread + L.cfg.diagsPerThread ≤ L.dims.numDiags

section
variable {smem : SCAMPSmem K} {j : ℕ} {info : SCAMPThreadInfo K} (hload : TileLoaded L block k smem)
  (hthread : thread < L.cfg.blocksz) (hfast : OnFastPath L block k thread) (h : InTileRow L block k thread j info)
include hload hthread hfast h

/-- The correlations of a call. -/
theorem distAt_eq {row i : ℕ} (hrow : j + row < L.cfg.tileHeight) (hi : i < L.cfg.diagsPerThread) :
    distAt info smem row i = L.corr (info.globalRow + row) (info.globalCol + row + i) := by
  have hdiags := thread_diags L hthread
  have hrows := hfast.rows
  have hcols := hfast.cols
  have hstart := tileStart_a L block k
  have hdiag := diagOf_eq L block thread
  have hon := h.rowsOn hload hthread (n := row) (by omega) (by omega)
  have hglobal := hon.globalRow
  have hcol := hon.globalCol
  exact (edgeDist_eq hload hthread hon hrow (by omega) hi (by omega)).1

variable (hj : j + L.cfg.outerUnrolledRows ≤ L.cfg.tileHeight)
include hj

omit hload in
/-- The cells of a call. -/
theorem mem_callCells {z : ℕ × ℕ} :
    z ∈ rowsCells L block thread (k * L.cfg.tileHeight + j) L.cfg.outerUnrolledRows ↔
      ∃ row < L.cfg.outerUnrolledRows, ∃ i < L.cfg.diagsPerThread,
        z = (info.globalRow + row, info.globalCol + row + i) := by
  have hdiags := thread_diags L hthread
  have hrows := hfast.rows
  have hcols := hfast.cols
  have hdiag' := hfast.diags
  have hstart := tileStart_a L block k
  have hdiag := diagOf_eq L block thread
  have hglobal := h.globalRow
  have hcol := h.globalCol
  obtain ⟨r, c⟩ := z
  show (_ ∧ (r, c) ∈ slidingLane L.cfg L.dims (diagOf L block thread) r) ↔ _
  rw [mem_slidingLane]
  constructor
  · rintro ⟨⟨hle, hlt⟩, -, -, i, hi, hz, -, -⟩
    dsimp only at hle hlt hz
    exact ⟨r - info.globalRow, by omega, i, hi, Prod.ext (by simp only; omega) (by simp only; omega)⟩
  · rintro ⟨row, hrow, i, hi, hz⟩
    obtain ⟨rfl, rfl⟩ := Prod.mk.inj hz
    refine ⟨⟨by simp only; omega, by simp only; omega⟩, rfl, ?_, i, hi, by simp only; omega, ?_, by omega⟩
    · show _ < L.args.nY
      omega
    · show _ < L.args.nX
      omega

/-- **The hits of a column** of a call. -/
theorem mem_columnHits_call {p : ℕ} {x : Hit K} : x ∈ columnHits L.inst info smem p ↔
    x ∈ sideHits L (rowsCells L block thread (k * L.cfg.tileHeight + j) L.cfg.outerUnrolledRows) .a
      (L.tileStart block k .a + (info.localCol + p)) := by
  have hstart := tileStart_a L block k
  have hdiag := diagOf_eq L block thread
  have hglobal := h.globalRow
  have hcol := h.globalCol
  have hlocal := h.localCol
  unfold columnHits columnOffers
  rw [mem_numbers]
  simp only [List.mem_map, List.mem_filter, List.mem_range, decide_eq_true_eq, Prod.mk.injEq]
  constructor
  · rintro ⟨row, ⟨hrow, hle, hlt⟩, hcorr, hpos⟩
    have hrow : row < L.cfg.outerUnrolledRows := hrow
    have hlt : p < row + L.cfg.diagsPerThread := hlt
    rw [distAt_eq hload hthread hfast h (by omega) (by omega)] at hcorr
    exact ⟨_, (mem_callCells hthread hfast h hj).mpr ⟨row, hrow, p - row, by omega, rfl⟩,
      by show info.globalCol + row + (p - row) = _; omega, hcorr, hpos⟩
  · rintro ⟨z, hz, hpos, hcorr, hmatch⟩
    obtain ⟨row, hrow, i, hi, rfl⟩ := (mem_callCells hthread hfast h hj).mp hz
    have hpos : info.globalCol + row + i = _ := hpos
    obtain rfl : p = row + i := by omega
    refine ⟨row, ⟨hrow, by omega, Nat.add_lt_add_left hi row⟩, ?_, hmatch⟩
    rw [distAt_eq hload hthread hfast h (by omega) (by omega), Nat.add_sub_cancel_left]
    exact hcorr

/-- **The hits of a row** of a call. -/
theorem mem_rowHits_call {row : ℕ} (hrow : row < L.cfg.outerUnrolledRows) {x : Hit K} :
    x ∈ rowHits L.inst info smem row ↔
      x ∈ sideHits L (rowsCells L block thread (k * L.cfg.tileHeight + j) L.cfg.outerUnrolledRows) .b
        (L.tileStart block k .b + (info.localRow + row)) := by
  have hglobal := h.globalRow
  have hlocal := h.localRow
  have hstart : L.tileStart block k .b = k * L.cfg.tileHeight := rfl
  rw [mem_rowHits]
  constructor
  · rintro ⟨i, hi, hcorr, hpos⟩
    rw [distAt_eq hload hthread hfast h (by omega) hi] at hcorr
    exact ⟨_, (mem_callCells hthread hfast h hj).mpr ⟨row, hrow, i, hi, rfl⟩,
      by show info.globalRow + row = _; omega, hcorr, hpos⟩
  · rintro ⟨z, hz, hpos, hcorr, hmatch⟩
    obtain ⟨row', hrow', i, hi, rfl⟩ := (mem_callCells hthread hfast h hj).mp hz
    have hpos : info.globalRow + row' = _ := hpos
    obtain rfl : row' = row := by omega
    exact ⟨i, hi, by rw [distAt_eq hload hthread hfast h (by omega) hi]; exact hcorr, hmatch⟩

/-- **A call of the fast path.** -/
theorem call_offers (hmax : KeepsMax L.type) (lane : ℕ) (peers : ℕ → ℕ → Dbl K) (raw : RawRegisters K) :
    ∃ next accesses, doIterationFast L.inst lane peers raw info smem = some (next, accesses) ∧
      InTileRow L block k thread (j + L.cfg.outerUnrolledRows) next ∧
      TileOffers L (L.tileStart block k)
        (rowsCells L block thread (k * L.cfg.tileHeight + j) L.cfg.outerUnrolledRows) accesses := by
  have hO := L.cfg.rows_pos
  have hU : L.cfg.unrolledRows ≤ L.cfg.outerUnrolledRows := Nat.le_of_dvd hO L.unrolled_dvd_outer
  have hdiags := thread_diags L hthread
  have hrows := hfast.rows
  have hcols := hfast.cols
  have hstart := tileStart_a L block k
  have hdiag := diagOf_eq L block thread
  have hglobal := h.globalRow
  have hcol := h.globalCol
  have hlocal := h.localRow
  have hlocalCol := h.localCol
  have htype : L.inst.type ≠ .sumThresh := fun hsum => by
    rcases hmax with hkeeps | hone
    · rw [show L.type = .sumThresh from hsum] at hkeeps
      cases hkeeps
    · rw [show L.type = .sumThresh from hsum] at hone
      cases hone
  have hroom : WindowInTile L.inst info := by
    show info.localCol + (L.cfg.diagsPerThread + max L.cfg.unrolledRows L.cfg.outerUnrolledRows) ≤
      L.cfg.tileHeight + L.cfg.blockDiags
    rw [max_eq_right hU]
    omega
  obtain ⟨st, hrun, hat⟩ : ∃ st, runIteration L.inst lane peers raw info smem = some st ∧
      FastAt L.inst raw lane peers info smem L.cfg.outerUnrolledRows L.inst.unrolledCols
        L.cfg.outerUnrolledRows st := fastRun (by rw [hlocal]; exact hj) hroom
  have hwidth : L.inst.unrolledCols = L.cfg.diagsPerThread + L.cfg.outerUnrolledRows - 1 := rfl
  have hD := L.cfg.diags_pos
  have hafter := h.rowsOn hload hthread hj (by omega)
  -- the register of each column and of each row
  have hcolBest : ∀ p, L.computeCols = true → Best (keepsIndex L.type) ⟨.num (-2), raw.idxc p⟩
      {columnHits L.inst info smem p} (st.bestCol p) := by
    intro p hon
    rw [hat.bestCol hon p]
    exact colReg_best raw info smem hmax p
  have hrowBest : ∀ row < L.cfg.outerUnrolledRows, L.computeRows = true →
      Best (keepsIndex L.type) ⟨.num (-2), raw.idxr row⟩ {rowHits L.inst info smem row} (st.bestRow row) :=
    fun row hrow hon => rowReg_best hmax (hat.bestRow hon row hrow)
  refine ⟨st.info.advance L.cfg.outerUnrolledRows, _, by rw [doIterationFast_eq, hrun]; rfl, ?_, ?_⟩
  · have hmoved := hat.pos
    refine ⟨⟨?_, ?_, fun i hi hin => ?_⟩, ?_, ?_⟩
    · show st.info.globalCol + L.cfg.outerUnrolledRows = _
      rw [hmoved.globalCol, hcol]
      omega
    · show st.info.globalRow + L.cfg.outerUnrolledRows = _
      rw [hmoved.globalRow, hglobal]
      omega
    · exact (hat.cov i hi).trans (hafter.cov i hi hin)
    · show st.info.localRow + L.cfg.outerUnrolledRows = _
      rw [hmoved.localRow, hlocal]
      omega
    · show st.info.localCol + L.cfg.outerUnrolledRows = _
      rw [hmoved.localCol, hlocalCol]
      omega
  · refine ⟨fun x hx => ?_, fun x hx side slot o ho => ?_, fun z hz side hon w hw => ?_,
      guarded_emitted htype _ _⟩
    · rcases (mem_call_iff htype hrun).mp hx with ⟨hon, p, -, rfl | rfl⟩ | ⟨hon, row, hrow, rfl | rfl⟩
      · trivial
      · exact num_of_best (hcolBest p hon)
      · trivial
      · exact num_of_best (hrowBest row hrow hon)
    · rcases (mem_call_iff htype hrun).mp hx with ⟨hon, p, hp, rfl | rfl⟩ | ⟨hon, row, hrow, rfl | rfl⟩
      · cases ho
      · obtain ⟨rfl, rfl, rfl⟩ : Side.a = side ∧ info.localCol + p = slot ∧ st.bestCol p = o := by
          simpa [Access.offer] using ho
        refine ⟨⟨hon, ?_, ?_⟩, genuine_of_best (hcolBest p hon) fun x hx =>
          (mem_columnHits_call hload hthread hfast h hj).mp hx⟩
        · show _ < L.cfg.tileHeight + L.cfg.blockDiags
          omega
        · show _ < L.args.nX
          omega
      · cases ho
      · have hrow : row < L.cfg.outerUnrolledRows := hrow
        obtain ⟨rfl, rfl, rfl⟩ : Side.b = side ∧ info.localRow + row = slot ∧ st.bestRow row = o := by
          simpa [Access.offer] using ho
        refine ⟨⟨hon, ?_, ?_⟩, genuine_of_best (hrowBest row hrow hon) fun x hx =>
          (mem_rowHits_call hload hthread hfast h hj hrow).mp hx⟩
        · show _ < L.cfg.tileHeight
          omega
        · show k * L.cfg.tileHeight + (info.localRow + row) < L.args.nY
          omega
    · obtain ⟨row, hrow, i, hi, rfl⟩ := (mem_callCells hthread hfast h hj).mp hz
      cases side with
      | a =>
          refine ⟨_, (mem_call_iff htype hrun).mpr (Or.inl ⟨hon, row + i, by omega, Or.inr rfl⟩), _, ?_,
            atLeast_of_best (hcolBest (row + i) hon) (x := ⟨w, info.globalRow + row⟩)
              ((mem_columnHits_call hload hthread hfast h hj).mpr ⟨_, hz, ?_, hw, rfl⟩)⟩
          · show some (Side.a, info.localCol + (row + i), _) =
              some (Side.a, info.globalCol + row + i - L.tileStart block k .a, _)
            rw [show info.globalCol + row + i - L.tileStart block k .a = info.localCol + (row + i) by omega]
          · show info.globalCol + row + i = _
            omega
      | b =>
          have hstartRow : L.tileStart block k .b = k * L.cfg.tileHeight := rfl
          refine ⟨_, (mem_call_iff htype hrun).mpr (Or.inr ⟨hon, row, hrow, Or.inr rfl⟩), _, ?_,
            atLeast_of_best (hrowBest row hrow hon) (x := ⟨w, info.globalCol + row + i⟩)
              ((mem_rowHits_call hload hthread hfast h hj hrow).mpr ⟨_, hz, ?_, hw, rfl⟩)⟩
          · show some (Side.b, info.localRow + row, _) =
              some (Side.b, info.globalRow + row - L.tileStart block k .b, _)
            rw [show info.globalRow + row - L.tileStart block k .b = info.localRow + row by omega]
          · show info.globalRow + row = _
            omega

end

omit [Field K] in
theorem rowsCells_zero (L : Launch K) (block thread row : ℕ) : rowsCells L block thread row 0 = ∅ := by
  refine Set.eq_empty_of_forall_notMem fun z hz => ?_
  have hle := hz.1.1
  have hlt := hz.1.2
  omega

/-- **The fast path of a tile**: `n` calls from row `j` on. -/
theorem fastPath_offers {smem : SCAMPSmem K} (hload : TileLoaded L block k smem) (hthread : thread < L.cfg.blocksz)
    (hfast : OnFastPath L block k thread) (hmax : KeepsMax L.type) (lane : ℕ) (peers : ℕ → ℕ → ℕ → Dbl K)
    (raw : ℕ → RawRegisters K) {n : ℕ} : ∀ (left call j : ℕ) (info : SCAMPThreadInfo K), n ≤ left →
    InTileRow L block k thread j info → j + n * L.cfg.outerUnrolledRows = L.cfg.tileHeight →
    ∃ next accesses, fastPath L.inst lane peers raw smem left call info = some (next, accesses) ∧
      InTileRow L block k thread L.cfg.tileHeight next ∧
      TileOffers L (L.tileStart block k)
        (rowsCells L block thread (k * L.cfg.tileHeight + j) (n * L.cfg.outerUnrolledRows)) accesses := by
  have hO := L.cfg.rows_pos
  have hheight : L.inst.tileHeight = L.cfg.tileHeight := rfl
  induction n with
  | zero =>
      intro left call j info _ h hj
      rw [Nat.zero_mul, Nat.add_zero] at hj
      refine ⟨info, [], ?_, hj ▸ h, ?_⟩
      · unfold fastPath
        rw [if_neg (by rw [h.localRow, hheight]; omega)]
      · rw [Nat.zero_mul, rowsCells_zero]
        exact tileOffers_nil L _
  | succ n ih =>
      intro left call j info hleft h hj
      rw [Nat.succ_mul] at hj ⊢
      obtain ⟨left, rfl⟩ : ∃ l, left = l + 1 := ⟨left - 1, by omega⟩
      obtain ⟨next, accesses, hcall, hnext, hoffers⟩ :=
        call_offers hload hthread hfast h (by omega) hmax lane (peers call) (raw call)
      obtain ⟨last, rest, hpath, hlast, hrest⟩ := ih left (call + 1) _ next (by omega) hnext (by omega)
      refine ⟨last, accesses ++ rest, ?_, hlast, ?_⟩
      · unfold fastPath
        rw [if_pos (by rw [h.localRow, hheight]; omega)]
        simp only [hcall, hpath, Option.bind_eq_bind, Option.bind_some]
        rfl
      · rw [Nat.add_comm (n * _), rowsCells_add]
        exact hoffers.append (by rwa [← Nat.add_assoc] at hrest)

/-! ## The slow path -/

/-- **The register of a row** that `do_row_edge` merges into. -/
theorem edgeRow_best {k : Instance K} (hmax : KeepsMax k.type) (offers : List (Dbl K × ℕ)) (e : MpEntry K) :
    Best (keepsIndex k.type) e {numbers offers} (offers.foldl (fun best o => edgeRow k o.2 best o.1) e) := by
  rcases hmax with hkeeps | hone
  · refine best_foldl (fun e v col => ?_) (fun e col => ?_) _ _
    · rw [edgeRow_index hkeeps]
      exact best_column e v col fun _ => rfl
    · rw [edgeRow_index hkeeps]
      rfl
  · refine best_foldl (fun e v col => ?_) (fun e col => ?_) _ _ <;> unfold edgeRow <;> rw [hone]
    · exact best_max e v col (f := fun o => fmaxf o (.num v)) fun _ => rfl
    · rfl

section
variable {smem : SCAMPSmem K} (hload : TileLoaded L block k smem) (hthread : thread < L.cfg.blocksz)
  {j : ℕ} {info : SCAMPThreadInfo K} (h : InTileRow L block k thread j info) (hj : j < L.cfg.tileHeight)
  (hrow : info.globalRow < L.args.nY)
include h hrow

/-- The cells of a row. -/
theorem mem_edgeCells {z : ℕ × ℕ} : z ∈ rowsCells L block thread (k * L.cfg.tileHeight + j) 1 ↔
    ∃ i ∈ edgeDiags L.inst (diagOf L block thread) L.dims.numDiags info,
      z = (info.globalRow, info.globalCol + i) := by
  have hglobal := h.globalRow
  have hcol := h.globalCol
  obtain ⟨r, c⟩ := z
  show (_ ∧ (r, c) ∈ slidingLane L.cfg L.dims (diagOf L block thread) r) ↔ _
  unfold edgeDiags
  rw [mem_slidingLane]
  simp only [List.mem_filter, List.mem_range, decide_eq_true_eq]
  constructor
  · rintro ⟨⟨hle, hlt⟩, -, -, i, hi, hz, hin, hdiag⟩
    have hin : c < L.args.nX := hin
    exact ⟨i, ⟨hi, show info.globalCol + i < L.args.nX by omega, hdiag⟩, Prod.ext (by simp only; omega)
      (by simp only; omega)⟩
  · rintro ⟨i, ⟨hi, hin, hdiag⟩, hz⟩
    obtain ⟨rfl, rfl⟩ := Prod.mk.inj hz
    exact ⟨⟨by omega, by omega⟩, trivial, hrow, i, hi, by omega, hin, hdiag⟩

include hload hthread hj

/-- **A row of the slow path.** -/
theorem edge_offers (hmax : KeepsMax L.type) : TileOffers L (L.tileStart block k)
    (rowsCells L block thread (k * L.cfg.tileHeight + j) 1)
    (edgeAccesses L.inst (diagOf L block thread) L.dims.numDiags smem info) := by
  have hdiags := thread_diags L hthread
  have hstart := tileStart_a L block k
  have hdiag := diagOf_eq L block thread
  have hglobal := h.globalRow
  have hcol := h.globalCol
  have hlocal := h.localRow
  have hlocalCol := h.localCol
  have hmem : ∀ i ∈ edgeDiags L.inst (diagOf L block thread) L.dims.numDiags info,
      i < L.cfg.diagsPerThread ∧ info.globalCol + i < L.args.nX := by
    intro i hi
    have hi := List.mem_filter.mp hi
    exact ⟨List.mem_range.mp hi.1, (of_decide_eq_true hi.2).1⟩
  have hdist : ∀ i ∈ edgeDiags L.inst (diagOf L block thread) L.dims.numDiags info,
      edgeDist smem info i = L.corr info.globalRow (info.globalCol + i) := fun i hi =>
    (edgeDist_eq hload hthread h hj hrow (hmem i hi).1 (hmem i hi).2).1
  -- what the row is offered
  let offers := (edgeDiags L.inst (diagOf L block thread) L.dims.numDiags info).map fun i =>
    (edgeDist smem info i, info.globalCol + i)
  have hfold : (edgeDiags L.inst (diagOf L block thread) L.dims.numDiags info).foldl
      (fun best i => edgeRow L.inst (info.globalCol + i) best (edgeDist smem info i))
      ⟨.num (initDist L.inst.type), 0⟩ =
      offers.foldl (fun best o => edgeRow L.inst o.2 best o.1) ⟨.num (initDist L.inst.type), 0⟩ := by
    rw [List.foldl_map]
  have hbest := edgeRow_best (k := L.inst) hmax offers ⟨.num (initDist L.inst.type), 0⟩
  rw [← hfold, initDist_of_keepsMax (show KeepsMax L.inst.type from hmax)] at hbest
  have hhits : ∀ x : Hit K, x ∈ numbers offers ↔
      x ∈ sideHits L (rowsCells L block thread (k * L.cfg.tileHeight + j) 1) .b
        (L.tileStart block k .b + info.localRow) := by
    intro x
    rw [mem_numbers]
    simp only [offers, List.mem_map, Prod.mk.injEq]
    constructor
    · rintro ⟨i, hi, hcorr, hpos⟩
      rw [hdist i hi] at hcorr
      refine ⟨_, (mem_edgeCells h hrow).mpr ⟨i, hi, rfl⟩, ?_, hcorr, hpos⟩
      show info.globalRow = k * L.cfg.tileHeight + info.localRow
      omega
    · rintro ⟨z, hz, -, hcorr, hmatch⟩
      obtain ⟨i, hi, rfl⟩ := (mem_edgeCells h hrow).mp hz
      exact ⟨i, hi, (hdist i hi).trans hcorr, hmatch⟩
  have hin : ∀ x, x ∈ edgeAccesses L.inst (diagOf L block thread) L.dims.numDiags smem info ↔
      (L.computeCols = true ∧ ∃ i ∈ edgeDiags L.inst (diagOf L block thread) L.dims.numDiags info,
        .reduceEdge (info.localCol + i) info.globalRow (edgeDist smem info i) = x) ∨
      (L.computeRows = true ∧ x = .reduceRow info.localRow
        ((edgeDiags L.inst (diagOf L block thread) L.dims.numDiags info).foldl
          (fun best i => edgeRow L.inst (info.globalCol + i) best (edgeDist smem info i))
          ⟨.num (initDist L.inst.type), 0⟩)) := by
    intro x
    unfold edgeAccesses
    show x ∈ (if L.computeCols = true then _ else _) ++ (if L.computeRows = true then _ else _) ↔ _
    rw [List.mem_append]
    refine or_congr ?_ ?_
    · split
      · next hon => simp only [hon, List.mem_map, true_and]
      · next hoff => simp [hoff]
    · split
      · next hon => simp only [hon, List.mem_singleton, true_and]
      · next hoff => simp [hoff]
  rw [show L.inst.type = L.type from rfl, initDist_of_keepsMax hmax] at hin
  refine ⟨fun x hx => ?_, fun x hx side slot o ho => ?_, fun z hz side hon w hw => ?_,
    guarded_of_noFlush fun side slot best hx => ?_⟩
  · rcases (hin x).mp hx with ⟨-, i, -, rfl⟩ | ⟨-, rfl⟩
    · trivial
    · exact num_of_best hbest
  · rcases (hin x).mp hx with ⟨hon, i, hi, rfl⟩ | ⟨hon, rfl⟩
    · obtain ⟨rfl, rfl, rfl⟩ : Side.a = side ∧ info.localCol + i = slot ∧
          (⟨edgeDist smem info i, UInt32.ofNat info.globalRow⟩ : MpEntry K) = o := by
        simpa [Access.offer] using ho
      obtain ⟨hi', hlt⟩ := hmem i hi
      refine ⟨⟨hon, ?_, ?_⟩, fun w hw _ => ⟨⟨w, info.globalRow⟩, ⟨_, (mem_edgeCells h hrow).mpr ⟨i, hi, rfl⟩,
        ?_, (hdist i hi).symm.trans hw, rfl⟩, rfl, fun _ => rfl⟩⟩
      · show _ < L.cfg.tileHeight + L.cfg.blockDiags
        omega
      · show _ < L.args.nX
        omega
      · show info.globalCol + i = _
        omega
    · obtain ⟨rfl, rfl, rfl⟩ : Side.b = side ∧ info.localRow = slot ∧ _ = o := by
        simpa only [Access.offer, Option.some.injEq, Prod.mk.injEq] using ho
      refine ⟨⟨hon, ?_, ?_⟩, genuine_of_best hbest fun x hx => (hhits x).mp hx⟩
      · show _ < L.cfg.tileHeight
        omega
      · show k * L.cfg.tileHeight + info.localRow < L.args.nY
        omega
  · obtain ⟨i, hi, rfl⟩ := (mem_edgeCells h hrow).mp hz
    cases side with
    | a =>
        refine ⟨_, (hin _).mpr (Or.inl ⟨hon, i, hi, rfl⟩), ⟨edgeDist smem info i, UInt32.ofNat info.globalRow⟩,
          ?_, w, (hdist i hi).trans hw, le_rfl⟩
        show some (Side.a, info.localCol + i, _) = some (Side.a, info.globalCol + i - L.tileStart block k .a, _)
        rw [show info.globalCol + i - L.tileStart block k .a = info.localCol + i by omega]
    | b =>
        have hstartRow : L.tileStart block k .b = k * L.cfg.tileHeight := rfl
        refine ⟨_, (hin _).mpr (Or.inr ⟨hon, rfl⟩), _, ?_, atLeast_of_best hbest
          (x := ⟨w, info.globalCol + i⟩) ((hhits _).mpr ⟨_, hz, ?_, hw, rfl⟩)⟩
        · show some (Side.b, info.localRow, _) = some (Side.b, info.globalRow - L.tileStart block k .b, _)
          rw [show info.globalRow - L.tileStart block k .b = info.localRow by omega]
        · show info.globalRow = _
          omega
  · rcases (hin _).mp hx with ⟨-, i, -, hx⟩ | ⟨-, hx⟩ <;> cases hx

end

/-- The thread has left the matrix before row `row` of its diagonals. -/
structure LeftMatrix (L : Launch K) (block thread row : ℕ) (info : SCAMPThreadInfo K) : Prop where
  globalCol : info.globalCol ≤ diagOf L block thread + row
  globalRow : info.globalRow ≤ row
  outside : L.args.nX ≤ info.globalCol ∨ L.args.nY ≤ info.globalRow

omit [Field K] in
/-- Past the edge of the matrix there are no cells. -/
theorem rowsCells_outside {row : ℕ} (h : L.args.nX ≤ diagOf L block thread + row ∨ L.args.nY ≤ row) (n : ℕ) :
    rowsCells L block thread row n = ∅ := by
  refine Set.eq_empty_of_forall_notMem fun z hz => ?_
  have hle := hz.1.1
  have hlane := hz.2
  have hout : L.dims.nX ≤ diagOf L block thread + z.1 ∨ L.dims.nY ≤ z.1 := h.imp (fun h => h.trans (by omega))
    fun h => h.trans hle
  have hnil : slidingLane L.cfg L.dims (diagOf L block thread) z.1 = [] := slidingLane_eq_nil hout
  exact absurd (hnil ▸ hlane) List.not_mem_nil

/-- **The slow path of a tile**, from row `j` on, for a thread that may have left the matrix. -/
theorem slowPath_offers {smem : SCAMPSmem K} (hload : TileLoaded L block k smem) (hthread : thread < L.cfg.blocksz)
    (hmax : KeepsMax L.type) {n : ℕ} : ∀ (j : ℕ) (info : SCAMPThreadInfo K), j + n = L.cfg.tileHeight →
    InTileRow L block k thread j info ∨ LeftMatrix L block thread (k * L.cfg.tileHeight + j) info →
    ∃ next accesses,
      slowPath L.inst L.args.nY (diagOf L block thread) L.dims.numDiags smem info = some (next, accesses) ∧
      (OnDiagonal L block thread ((k + 1) * L.cfg.tileHeight) next ∨
        LeftMatrix L block thread ((k + 1) * L.cfg.tileHeight) next) ∧
      TileOffers L (L.tileStart block k) (rowsCells L block thread (k * L.cfg.tileHeight + j) n) accesses := by
  have hheight : L.inst.tileHeight = L.cfg.tileHeight := rfl
  have hwidth : L.inst.tileWidth = L.cfg.tileHeight + L.cfg.blockDiags := rfl
  have hnX : L.inst.nX = L.args.nX := rfl
  have hD : L.inst.diagsPerThread = L.cfg.diagsPerThread := rfl
  have hdiags := thread_diags L hthread
  induction n with
  | zero =>
      intro j info hj h
      rw [Nat.add_zero] at hj
      have hnext : (k + 1) * L.cfg.tileHeight = k * L.cfg.tileHeight + j := by rw [Nat.succ_mul, hj]
      rw [rowsCells_zero, hnext]
      refine ⟨info, [], ?_, h.imp_left fun h => h.toOnDiagonal, tileOffers_nil L _⟩
      unfold slowPath
      refine if_neg fun hin => ?_
      rcases h with h | h
      · rw [h.localRow] at hin
        omega
      · have := h.outside
        omega
  | succ n ih =>
      intro j info hj h
      unfold slowPath
      by_cases hin : info.globalCol < L.args.nX ∧ info.globalRow < L.args.nY
      · -- a row of the matrix
        have h : InTileRow L block k thread j info := by
          rcases h with h | h
          · exact h
          · have := h.outside
            omega
        have hlocal := h.localRow
        have hlocalCol := h.localCol
        obtain ⟨next, accesses, hpath, hnext, hoffers⟩ := ih (j + 1) _ (by omega)
          (Or.inl (h.next hload hthread (by omega) hin.2))
        refine ⟨next, edgeAccesses L.inst (diagOf L block thread) L.dims.numDiags smem info ++ accesses, ?_, hnext, ?_⟩
        · rw [if_pos ⟨hin.1, hin.2, by omega⟩, if_pos, hpath]
          · rfl
          · rw [Bool.and_eq_true]
            exact ⟨decide_eq_true (by omega), decide_eq_true (by omega)⟩
        · rw [Nat.add_comm n, rowsCells_add]
          exact (edge_offers hload hthread h (by omega) hin.2 hmax).append hoffers
      · -- past its edge
        refine ⟨info, [], if_neg fun hc => hin ⟨hc.1, hc.2.1⟩, Or.inr ?_, ?_⟩
        · rcases h with h | h
          · have hcol := h.globalCol
            have hrow := h.globalRow
            rw [Nat.succ_mul]
            exact ⟨by omega, by omega, by omega⟩
          · have hcol := h.globalCol
            have hrow := h.globalRow
            rw [Nat.succ_mul]
            exact ⟨by omega, by omega, by omega⟩
        · rw [rowsCells_outside ?_]
          · exact tileOffers_nil L _
          · rcases h with h | h
            · have hcol := h.globalCol
              have hrow := h.globalRow
              omega
            · have hcol := h.globalCol
              have hrow := h.globalRow
              omega

/-! ## A tile -/

/-- A thread before tile `k`, if it has diagonals. -/
def BeforeTile (L : Launch K) (block k thread : ℕ) (info : SCAMPThreadInfo K) : Prop :=
  diagOf L block thread < L.dims.numDiags →
    OnDiagonal L block thread (k * L.cfg.tileHeight) info ∨ LeftMatrix L block thread (k * L.cfg.tileHeight) info

/-- **What a thread does with a tile.** -/
theorem tileWork_offers {smem : SCAMPSmem K} (hload : TileLoaded L block k smem) (hthread : thread < L.cfg.blocksz)
    (hmax : KeepsMax L.type) (raw : RawTile K) {info : ℕ → SCAMPThreadInfo K}
    (h : BeforeTile L block k thread (info thread)) :
    ∃ next accesses, tileWork L block raw smem info k thread = some (next, accesses) ∧
      BeforeTile L block (k + 1) thread next ∧
      TileOffers L (L.tileStart block k) (rowsCells L block thread (k * L.cfg.tileHeight) L.cfg.tileHeight)
        accesses := by
  have hdiags := thread_diags L hthread
  have hstart := tileStart_a L block k
  have hdiag := diagOf_eq L block thread
  have hD := L.cfg.diags_pos
  -- at the start of a tile
  have hon : ∀ {info : SCAMPThreadInfo K}, OnDiagonal L block thread (k * L.cfg.tileHeight) info →
      InTileRow L block k thread 0 (startOfTile L thread info) :=
    fun h => ⟨⟨h.globalCol, h.globalRow, h.cov⟩, rfl, rfl⟩
  unfold tileWork
  dsimp only
  by_cases hfast : onFastPath L block k thread = true
  · rw [if_pos hfast, if_pos]
    · obtain ⟨hcols, hrows, hin⟩ := of_decide_eq_true hfast
      have hfast : OnFastPath L block k thread := ⟨hcols, hrows, hin⟩
      have hcols := hfast.cols
      have hrows := hfast.rows
      have hin := hfast.diags
      have hthere : InTileRow L block k thread 0 (startOfTile L thread (info thread)) := by
        rcases h (by omega) with h | h
        · exact hon h
        · have hcol := h.globalCol
          have hrow := h.globalRow
          have hout := h.outside
          omega
      obtain ⟨next, accesses, hpath, hnext, hoffers⟩ := fastPath_offers hload hthread hfast hmax (thread % 32)
        (warpPeers L (raw k) smem info (thread / 32)) (raw k thread) (n := L.cfg.kernelTileIters)
        L.cfg.tileHeight 0 0 _ (Nat.le_mul_of_pos_right _ L.cfg.rows_pos) hthere (Nat.zero_add _)
      refine ⟨next, accesses, hpath, fun _ => Or.inl ?_, hoffers⟩
      rw [Nat.succ_mul]
      exact hnext.toOnDiagonal
    · intro hsum
      rcases hmax with hkeeps | hone
      · rw [hsum] at hkeeps
        cases hkeeps
      · rw [hsum] at hone
        cases hone
  · rw [if_neg hfast]
    by_cases hlt : diagOf L block thread < L.dims.numDiags
    · rw [if_pos (show startDiag L.cfg L.dims block thread < _ from hlt)]
      obtain ⟨next, accesses, hpath, hnext, hoffers⟩ := slowPath_offers hload hthread hmax (n := L.cfg.tileHeight)
        0 (startOfTile L thread (info thread)) (Nat.zero_add _)
        ((h hlt).imp hon fun h => ⟨h.globalCol, h.globalRow, h.outside⟩)
      exact ⟨next, accesses, hpath, fun _ => hnext, hoffers⟩
    · rw [if_neg (show ¬startDiag L.cfg L.dims block thread < _ from hlt)]
      refine ⟨_, _, rfl, fun hin => absurd hin hlt, ?_⟩
      rw [Set.eq_empty_of_forall_notMem (s := rowsCells L block thread (k * L.cfg.tileHeight) L.cfg.tileHeight)]
      · exact tileOffers_nil L _
      · rintro z ⟨-, hz⟩
        obtain ⟨-, -, i, -, -, -, hin⟩ := mem_slidingLane.mp hz
        have hin : diagOf L block thread + i < L.dims.numDiags := hin
        omega

end

end

end DoTile

end SlidingWindow

end Scamp
