import Scamp.Gpu.Correctness.LaunchCompletes
import Scamp.Gpu.Correctness.Launch

/-!
# `Gpu.Correctness.LaunchResult` — what a launch leaves in the profiles

However the threads of a launch take turns, the values it leaves in the profiles are those of the CPU kernel,
and with an index an entry names a cell that has this value (`launch_agrees`). There is such an end after any
turns (`launch_completes`).
-/

namespace Scamp

open Lib

namespace SlidingWindow

namespace DoTile

section
variable {K : Type} [Field K] [LinearOrder K] {L : Launch K} {base : Side → Buffer (MpEntry K)} {side : Side} {pos : ℕ}

/-! ## The cells of a launch -/

omit [Field K] in
/-- The cells of the launch are those of the pass, if the last diagonal is not lost. -/
theorem mem_cells_iff (hdims : L.args.exclusionLower + L.args.exclusionUpper < L.args.nX)
    (hkept : ¬LastDiagonalLost L.cfg L.dims) {z : ℕ × ℕ} : z ∈ L.cells ↔ PassCell L.dims z.1 z.2 := by
  have hunrolled : L.cfg.unrolledRows ≠ 0 := L.unrolledRows_pos.ne'
  have hlane : ∀ b, (∃ t < L.cfg.blocksz, z ∈ slidingLane L.cfg L.dims (diagOf L b t) z.1) ↔
      BlockCell L.cfg L.dims b z := by
    intro b
    rw [← exists_lane_iff]
    unfold lane
    simp only [if_neg hunrolled]
    rfl
  constructor
  · rintro ⟨b, -, hz⟩
    exact passCell_of_blockCell ((hlane b).mp hz) hdims
  · intro hcell
    obtain ⟨b, hb, hz⟩ := exists_block_of_passCell hdims hkept hcell
    exact ⟨b, hb, (hlane b).mpr hz⟩

/-- A finished launch has taken all its cells to the profiles. -/
theorem covers_of_finished {g : Grid K} (h : LaunchInv L base g) (hfin : g.Finished L)
    (hon : L.computing side = true) {z : ℕ × ℕ} (hz : z ∈ L.cells) :
    Covers L z (g.mem.profile side (cellPos side z)) := by
  obtain ⟨b, hb, t, ht, hlane⟩ := hz
  obtain ⟨hphase, hempty⟩ := hfin b hb
  have hends : Ends L base g.mem b (g.block b) := by
    have hblock := h.block b hb
    unfold BlockInv at hblock
    rwa [hphase] at hblock
  have hrow := row_lt_of_noTile hends.noTile hlane
  refine (hends.held z ⟨t, ht, ⟨by omega, by omega⟩, hlane⟩ side hon).resolve_right ?_
  rintro ⟨t', ht', pos', hx, -⟩
  rw [hempty t' ht'] at hx
  cases hx

/-! ## The CPU kernel -/

/-- What the CPU kernel makes of the profiles. -/
def Launch.cpuProfile (L : Launch K) (bld : Build K) (profile : Side → Buffer (MpEntry K)) (side : Side) :
    Buffer (MpEntry K) :=
  let out := Scamp.doTile bld L.type L.computeRows L.computeCols L.args ⟨L.cov, profile .a, profile .b⟩
  match side with
  | .a => out.profileA
  | .b => out.profileB

/-- Taking in hits, for a type that keeps the best of each entry. -/
theorem exists_perEntryAbsorption (bld : Build K) {type : SCAMPProfileType} (h : PerEntry type) (threshold : K) :
    ∃ R : Absorption bld type threshold, R.rel = Best (keepsIndex type) := by
  rcases h with rfl | rfl
  · exact ⟨bestValueAbsorption bld threshold, rfl⟩
  · exact ⟨bestIndexAbsorption bld threshold, rfl⟩

/-- **An entry of the CPU kernel.** -/
theorem cpuProfile_best (hper : PerEntry L.type) (bld : Build K) (base : Side → Buffer (MpEntry K)) {val : ℕ → ℕ → K}
    (hval : PassValues L.type L.args L.cov val) (hon : L.computing side = true) (pos : ℕ) :
    ∃ bs, Best (keepsIndex L.type) (base side pos) bs (L.cpuProfile bld base side pos) ∧
      ∀ x : Hit K, (∃ b ∈ bs, x ∈ b) ↔
        ∃ z ∈ doTileCells bld.unrollWid L.dims, cellPos side z = pos ∧ x = ⟨val z.1 z.2, cellMatch side z⟩ := by
  have htype : L.type ≠ .matrixSummary := by
    rcases hper with h | h <;> rw [h] <;> decide
  have hU := unrollWid_pos bld
  obtain ⟨R, hR⟩ := exists_perEntryAbsorption bld hper L.args.threshold
  have heffect := doTile_absorbs R htype L.computeRows L.computeCols rfl hval
    (s := ⟨L.cov, base .a, base .b⟩) rfl
  rw [← hR]
  cases side with
  | a =>
      refine ⟨_, heffect.column pos, fun x => ?_⟩
      have hcols : L.computeCols = true := hon
      rw [hcols]
      show (∃ b ∈ columnBlocks bld.unrollWid L.dims val pos, x ∈ b) ↔ _
      rw [show (∃ b ∈ columnBlocks bld.unrollWid L.dims val pos, x ∈ b) ↔
        x ∈ hitsOf (columnBlocks bld.unrollWid L.dims val pos) by unfold hitsOf; rw [Multiset.mem_bind]; rfl,
        hitsOf_columnBlocks hU, Scamp.mem_columnHits]
      constructor
      · rintro ⟨r, hz, rfl⟩
        exact ⟨(r, pos), hz, rfl, rfl⟩
      · rintro ⟨z, hz, rfl, rfl⟩
        exact ⟨z.1, hz, rfl⟩
  | b =>
      refine ⟨_, heffect.row pos, fun x => ?_⟩
      have hrows : L.computeRows = true := hon
      rw [hrows]
      show (∃ b ∈ rowBlocks bld.unrollWid L.dims val pos, x ∈ b) ↔ _
      rw [show (∃ b ∈ rowBlocks bld.unrollWid L.dims val pos, x ∈ b) ↔
        x ∈ hitsOf (rowBlocks bld.unrollWid L.dims val pos) by unfold hitsOf; rw [Multiset.mem_bind]; rfl,
        hitsOf_rowBlocks hU, Scamp.mem_rowHits]
      constructor
      · rintro ⟨c, hz, rfl⟩
        exact ⟨(pos, c), hz, rfl, rfl⟩
      · rintro ⟨z, hz, rfl, rfl⟩
        exact ⟨z.2, hz, rfl⟩

/-! ## The result -/

omit [Field K] in
/-- A cell that both kernels visit. -/
theorem passCell_iff_doTileCells (bld : Build K) (hdims : L.args.exclusionLower + L.args.exclusionUpper < L.args.nX)
    {z : ℕ × ℕ} : PassCell L.dims z.1 z.2 ↔ z ∈ doTileCells bld.unrollWid L.dims := by
  have hdims : L.dims.exclusionLower + L.dims.exclusionUpper < L.dims.nX := hdims
  obtain ⟨r, c⟩ := z
  rw [mem_doTileCells (unrollWid_pos bld)]
  unfold PassCell KernelDims.numDiags
  omega

/-- The correlation that the CPU kernel has for a cell: a NaN counts as the value profiles start with. -/
theorem val_of_corr (hper : PerEntry L.type) {val : ℕ → ℕ → K} (hval : PassValues L.type L.args L.cov val)
    (hdims : L.args.exclusionLower + L.args.exclusionUpper < L.args.nX) {z : ℕ × ℕ} (hz : PassCell L.dims z.1 z.2) :
    L.corr z.1 z.2 = .num (val z.1 z.2) ∨ L.corr z.1 z.2 = .nan ∧ val z.1 z.2 = -2 := by
  obtain ⟨hrow, hcol, hlower, hupper⟩ := hz
  have hdims : L.dims.exclusionLower + L.dims.exclusionUpper < L.dims.nX := hdims
  have hvalue := hval z.1 hrow (z.2 - z.1) (show _ < L.dims.nX + 1 - L.dims.exclusionUpper by omega)
    (show z.1 + (z.2 - z.1) < L.dims.nX by omega)
  rw [show z.1 + (z.2 - z.1) = z.2 by omega] at hvalue
  have hvalue : dropNan L.type L.args (L.corr z.1 z.2) = .num (val z.1 z.2) := hvalue
  unfold dropNan at hvalue
  cases hcorr : L.corr z.1 z.2 with
  | num w =>
      rw [hcorr, Dbl.isFinite_num, if_pos rfl, ite_self] at hvalue
      exact Or.inl hvalue
  | nan =>
      rw [hcorr] at hvalue
      split at hvalue
      · rw [Dbl.isFinite_nan, if_neg Bool.false_ne_true, initDist_of_keepsMax hper.keepsMax] at hvalue
        exact Or.inr ⟨rfl, (Dbl.num.inj hvalue).symm⟩
      · cases hvalue

/-- **A launch agrees with the CPU kernel.** In the end of every interleaving of the threads of a launch, for
    the types that keep the best value of each entry, whatever the registers and shared memory held at the
    start: the entries of the computed profiles have the values that the CPU kernel gives them, each is the
    entry the launch found or has the index of a cell with this value, and no other entry has changed. The
    last diagonal must not be lost to the rounding of the grid size. -/
theorem launch_agrees (L : Launch K) (hper : PerEntry L.type)
    (hdims : L.args.exclusionLower + L.args.exclusionUpper < L.args.nX) (hkept : ¬LastDiagonalLost L.cfg L.dims)
    (bld : Build K) (val : ℕ → ℕ → K) (hval : PassValues L.type L.args L.cov val) (mem : GlobalMemory K)
    (habove : StartsAbove L mem.profile) (rawInfo : ℕ → ℕ → SCAMPThreadInfo K) (smem : ℕ → BlockSmem K)
    (raw : ℕ → RawTile K) (turns : List Turn) (g : Grid K)
    (hrun : run L raw (start L mem rawInfo smem) turns = some g) (hfin : g.Finished L) :
    ∀ side pos,
      (L.computing side = true ∧ pos < L.size side →
        (g.mem.profile side pos).value = (L.cpuProfile bld mem.profile side pos).value ∧
        (g.mem.profile side pos = mem.profile side pos ∨
          ∃ z ∈ doTileCells bld.unrollWid L.dims, cellPos side z = pos ∧
            (g.mem.profile side pos).value = .num (val z.1 z.2) ∧
            (keepsIndex L.type = true → (g.mem.profile side pos).index = UInt32.ofNat (cellMatch side z)))) ∧
      (¬(L.computing side = true ∧ pos < L.size side) → g.mem.profile side pos = mem.profile side pos) := by
  have hinv : LaunchInv L mem.profile g := launchInv_run hper habove (launchInv_start mem rawInfo smem) hrun
  have hcells : ∀ {z : ℕ × ℕ}, z ∈ L.cells ↔ z ∈ doTileCells bld.unrollWid L.dims := fun {z} =>
    (mem_cells_iff hdims hkept).trans (passCell_iff_doTileCells bld hdims)
  have hcorr : ∀ {z : ℕ × ℕ}, z ∈ doTileCells bld.unrollWid L.dims →
      L.corr z.1 z.2 = .num (val z.1 z.2) ∨ L.corr z.1 z.2 = .nan ∧ val z.1 z.2 = -2 := fun {z} hz =>
    val_of_corr hper hval hdims ((passCell_iff_doTileCells bld hdims).mpr hz)
  refine fun side pos => ⟨fun ⟨hon, hpos⟩ => ?_, hinv.mem.kept side pos⟩
  have hfair := hinv.mem.fair side pos hon hpos
  obtain ⟨v, hv, hinit⟩ := habove side pos hon hpos
  obtain ⟨v', hv', hle⟩ := hfair.atLeast hv
  obtain ⟨bs, hbest, hbs⟩ := cpuProfile_best hper bld mem.profile hval hon pos
  obtain ⟨u, hu, hleu, hdom, hatt⟩ := hbest v hv
  -- the hits of the launch are cells of the pass
  have hhit : g.mem.profile side pos = mem.profile side pos ∨ ∃ z ∈ doTileCells bld.unrollWid L.dims,
      cellPos side z = pos ∧ (g.mem.profile side pos).value = .num (val z.1 z.2) ∧
        (keepsIndex L.type = true → (g.mem.profile side pos).index = UInt32.ofNat (cellMatch side z)) := by
    refine hfair.imp_right ?_
    rintro ⟨x, ⟨z, hz, hcell, hx, hmatch⟩, -, hvalue, hindex⟩
    have hz := hcells.mp hz
    rcases hcorr hz with hnum | ⟨hnan, -⟩
    · exact ⟨z, hz, hcell, by rw [hvalue, ← hx, hnum], fun hk => hmatch ▸ hindex hk⟩
    · rw [hnan] at hx
      cases hx
  refine ⟨?_, hhit⟩
  rw [hv', hu]
  congr 1
  refine le_antisymm ?_ ?_
  · -- what the launch found, the CPU kernel has seen
    rcases hhit with hsame | ⟨z, hz, hcell, hvalue, -⟩
    · rw [hsame, hv] at hv'
      exact (Dbl.num.inj hv').symm.le.trans hleu
    · obtain ⟨b, hb, hx⟩ := (hbs ⟨val z.1 z.2, cellMatch side z⟩).mpr ⟨z, hz, hcell, rfl⟩
      rw [hv'] at hvalue
      exact (Dbl.num.inj hvalue).le.trans (hdom b hb _ hx)
  · -- and what the CPU kernel found, the launch has covered
    rcases hatt with hsame | ⟨b, hb, x, hx, -, rfl, -⟩
    · rw [hsame, hv] at hu
      exact (Dbl.num.inj hu).symm.le.trans hle
    · obtain ⟨z, hz, hcell, rfl⟩ := (hbs x).mp ⟨b, hb, hx⟩
      rcases hcorr hz with hnum | ⟨-, hinitial⟩
      · have hcover := covers_of_finished hinv hfin hon (hcells.mpr hz)
        rw [hcell] at hcover
        obtain ⟨w, hw, hle'⟩ := hcover _ hnum
        obtain rfl := Dbl.num.inj (hv'.symm.trans hw)
        exact hle'
      · show val z.1 z.2 ≤ v'
        rw [hinitial]
        exact hinit.trans hle

/-- **A launch never gets stuck.** Whatever turns its threads and blocks have taken, there are turns after
    which all blocks have ended. -/
theorem launch_completes (L : Launch K) (hper : PerEntry L.type) (mem : GlobalMemory K)
    (habove : StartsAbove L mem.profile) (rawInfo : ℕ → ℕ → SCAMPThreadInfo K) (smem : ℕ → BlockSmem K)
    (raw : ℕ → RawTile K) (turns : List Turn) (g : Grid K)
    (hrun : run L raw (start L mem rawInfo smem) turns = some g) :
    ∃ turns' g', run L raw (start L mem rawInfo smem) (turns ++ turns') = some g' ∧ g'.Finished L := by
  obtain ⟨turns', g', hrun', hfin⟩ := grid_completes hper habove raw
    (launchInv_run hper habove (launchInv_start mem rawInfo smem) hrun)
  refine ⟨turns', g', ?_, hfin⟩
  unfold run at hrun hrun' ⊢
  rw [List.foldlM_append, hrun]
  exact hrun'

end

/-- A launch whose first block takes the fast path in its first tile, and the slow one in the second. The
    covariance of a cell is its column, and a norm is NaN. -/
def stripLaunch : Launch ℚ where
  cfg :=
    { blocksz := 64
      diagsPerThread := 2
      unrolledRows := 2
      outerUnrolledRows := 2
      kernelTileIters := 2
      blocksz_mem := by decide
      diags_pos := Nat.two_pos
      rows_pos := Nat.two_pos
      iters_pos := Nat.two_pos }
  unrolledRows_pos := Nat.two_pos
  unrolled_dvd_diags := dvd_rfl
  unrolled_dvd_outer := dvd_rfl
  type := .oneNNIndex
  computeRows := true
  computeCols := true
  args :=
    { nX := 140
      nY := 7
      exclusionLower := 1
      exclusionUpper := 1
      dfa := fun _ => 1
      dfb := fun _ => 0
      dga := fun _ => 0
      dgb := fun _ => 1
      normsa := fun c => if c = 3 then .nan else .num (1 / 140)
      normsb := fun _ => .num 1
      matrixWidth := 1
      rowsPerCell := 1
      colsPerCell := 1
      globalStartCol := 0
      globalStartRow := 0
      hasNanInput := true
      threshold := 0 }
  cov d := d
  thresholds _ _ := 0
  maxMatchesPerTile := 0
  maxCoeff := scanMaxCoeff ℚ

/-- Profiles that nothing has been merged into. -/
def emptyMemory : GlobalMemory ℚ where
  profile _ _ := ⟨.num (-2), 0⟩
  matchList _ := []

def zeroInfo : SCAMPThreadInfo ℚ := ⟨fun _ => .num 0, 0, 0, 0, 0⟩

def zeroSmem : BlockSmem ℚ where
  col := ⟨fun _ => .num 0, fun _ => .num 0, fun _ => .num 0⟩
  row := ⟨fun _ => .num 0, fun _ => .num 0, fun _ => .num 0⟩
  localMpCol _ := ⟨.num 0, 0⟩
  localMpRow _ := ⟨.num 0, 0⟩
  profileLength _ := 0

theorem emptyMemory_above : StartsAbove stripLaunch emptyMemory.profile :=
  fun _ _ _ _ => ⟨-2, rfl, le_rfl⟩

/-- The correlations of the strip. -/
def stripValue (_ col : ℕ) : ℚ := if col = 3 then -2 else col * (1 / 140) * 1

theorem stripLaunch_values : PassValues stripLaunch.type stripLaunch.args stripLaunch.cov stripValue := by
  have hcov : ∀ row d, covAt stripLaunch.args stripLaunch.cov row d = ((row + d : ℕ) : ℚ) := by
    intro row d
    induction row with
    | zero => exact congrArg Nat.cast (Nat.zero_add d).symm
    | succ row ih =>
        show covAt stripLaunch.args stripLaunch.cov row d + 1 * 1 + 0 * 0 = _
        rw [ih]
        push_cast
        ring
  intro row _ d _ _
  rw [hcov]
  unfold stripValue
  by_cases hcol : row + d = 3
  · have hnorm : stripLaunch.args.normsa (row + d) = .nan := if_pos hcol
    rw [hnorm, if_pos hcol]
    rfl
  · have hnorm : stripLaunch.args.normsa (row + d) = .num (1 / 140) := if_neg hcol
    rw [hnorm, if_neg hcol]
    rfl

theorem launch_agrees_strip :
    (∀ t < stripLaunch.cfg.blocksz, onFastPath stripLaunch 0 0 t = true ∧ onFastPath stripLaunch 0 1 t = false) ∧
    ∃ turns g,
      run stripLaunch (fun _ _ _ _ => zeroRegisters)
        (start stripLaunch emptyMemory (fun _ _ => zeroInfo) fun _ => zeroSmem) turns = some g ∧
      g.Finished stripLaunch ∧ ∀ side pos, pos < stripLaunch.size side →
        (g.mem.profile side pos).value = (stripLaunch.cpuProfile scanBuild emptyMemory.profile side pos).value := by
  obtain ⟨turns, g, hrun, hfin⟩ := grid_completes (L := stripLaunch) (Or.inr rfl) emptyMemory_above
    (fun _ _ _ _ => zeroRegisters)
    (launchInv_start emptyMemory (fun _ _ => zeroInfo) fun _ => zeroSmem)
  have hkept : ¬LastDiagonalLost stripLaunch.cfg stripLaunch.dims := fun h => absurd h.2 (by decide)
  refine ⟨by decide, turns, g, hrun, hfin, fun side pos hpos => ?_⟩
  have hon : stripLaunch.computing side = true := by cases side <;> rfl
  exact ((launch_agrees stripLaunch (Or.inr rfl) (by decide) hkept scanBuild stripValue stripLaunch_values emptyMemory
    emptyMemory_above _ _ _ turns g hrun hfin side pos).1 ⟨hon, hpos⟩).1

theorem launch_completes_strip : ∃ turns g,
    run stripLaunch (fun _ _ _ _ => zeroRegisters)
      (start stripLaunch emptyMemory (fun _ _ => zeroInfo) fun _ => zeroSmem) turns = some g ∧
    g.Finished stripLaunch := by
  obtain ⟨turns, g, hrun, hfin⟩ := launch_completes stripLaunch (Or.inr rfl) emptyMemory emptyMemory_above
    (fun _ _ => zeroInfo) (fun _ => zeroSmem) (fun _ _ _ _ => zeroRegisters) [] _ rfl
  exact ⟨_, g, hrun, hfin⟩

end DoTile

end SlidingWindow

end Scamp
