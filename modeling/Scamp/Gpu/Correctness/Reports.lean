import Scamp.Gpu.Correctness.Launch
import Scamp.Gpu.Correctness.Neighbors
import Scamp.Core.Correctness.AlignedCells

/-!
# `Gpu.Correctness.Reports` — the cells behind the matches a pass reports

Each match that a pass reports for a column is one of its cells in that column, the best one of a block
tile (`mem_sideMatches`). Block tiles share no cells, so a pass reports no cell twice (`nodup_sideMatches`),
and two passes can only report the same one when both compare it. Tiles share none either. What is left is
the main diagonal of a tile, which its upper and its lower pass both compare when neither of them leaves it
out (`sharesDiagonal_iff`).
-/

namespace Scamp

open Lib

/-! ## The matches of one side of a pass -/

section
variable {K : Type} [LinearOrder K] {cfg : KernelConfig} {a : KernelDims}

/-- The best cell of a list is one of the list, with its correlation. -/
theorem foldl_mergeBest_mem {corr : ℕ × ℕ → Dbl K} {b : K × ℕ × ℕ} (l : List (ℕ × ℕ)) :
    ∀ best, l.foldl (mergeBest corr) best = some b → best = some b ∨ b.2 ∈ l ∧ corr b.2 = .num b.1 := by
  induction l with
  | nil => exact fun best h => Or.inl h
  | cons z l ih =>
      intro best h
      rcases ih (mergeBest corr best z) h with hfirst | ⟨hmem, hcorr⟩
      · unfold mergeBest at hfirst
        split at hfirst
        · exact Or.inl hfirst
        · next hz =>
            obtain rfl := Option.some.inj hfirst
            exact Or.inr ⟨List.mem_cons_self, hz⟩
        · next hz =>
            split at hfirst
            · obtain rfl := Option.some.inj hfirst
              exact Or.inr ⟨List.mem_cons_self, hz⟩
            · exact Or.inl hfirst
      · exact Or.inr ⟨List.mem_cons_of_mem z hmem, hcorr⟩

/-- When a single cell has a correlation, it is the best one of every list that holds it. -/
theorem foldl_mergeBest_single {corr : ℕ × ℕ → Dbl K} {z₀ : ℕ × ℕ} {x : K} (hcorr : corr z₀ = .num x)
    (hother : ∀ z, z ≠ z₀ → corr z = .nan) (l : List (ℕ × ℕ)) :
    ∀ best, (best = none ∨ best = some (x, z₀)) → (best = some (x, z₀) ∨ z₀ ∈ l) →
      l.foldl (mergeBest corr) best = some (x, z₀) := by
  induction l with
  | nil =>
      intro best _ hfound
      exact hfound.resolve_right List.not_mem_nil
  | cons z l ih =>
      intro best hbest hfound
      by_cases hz : z = z₀
      · subst hz
        have hstep : mergeBest corr best z = some (x, z) := by
          unfold mergeBest
          rcases hbest with rfl | rfl
          · rw [hcorr]
          · rw [hcorr]
            exact if_neg (lt_irrefl x)
        exact ih _ (Or.inr hstep) (Or.inl hstep)
      · have hstep : mergeBest corr best z = best := by
          unfold mergeBest
          rw [hother z hz]
        rw [List.foldl_cons, hstep]
        refine ih best hbest (hfound.imp_right fun hmem => ?_)
        exact (List.mem_cons.mp hmem).resolve_left (Ne.symm hz)

omit [LinearOrder K] in
theorem mem_blockTileCells {block k : ℕ} {z : ℕ × ℕ} :
    z ∈ blockTileCells cfg a block k ↔ BlockCell cfg a block z ∧ z.1 / cfg.tileHeight = k := by
  unfold blockTileCells
  rw [List.mem_filter, decide_eq_true_eq, List.mem_flatMap]
  refine and_congr_left fun _ => ?_
  constructor
  · rintro ⟨thread, hthread, hz⟩
    have hthread := List.mem_range.mp hthread
    exact exists_lane_iff.mp ⟨thread, hthread, ((mem_threadCells _ hthread).mp hz).1⟩
  · intro hcell
    obtain ⟨thread, hthread, hlane⟩ := exists_lane_iff.mpr hcell
    exact ⟨thread, List.mem_range.mpr hthread, (mem_threadCells _ hthread).mpr ⟨hlane, fun _ _ => rfl⟩⟩

variable {corr : ℕ × ℕ → Dbl K} {pos other : ℕ × ℕ → ℕ} {extent : ℕ}

/-- No register is merged as it has started: every match is that of a cell. -/
abbrev noStarts : StartIndices := fun _ _ _ _ _ _ => none

/-- The match of the best cell of a block tile for a position. -/
def tileMatch (cfg : KernelConfig) (a : KernelDims) (corr : ℕ × ℕ → Dbl K) (pos other : ℕ × ℕ → ℕ)
    (block k i : ℕ) : Option (SCAMPmatch K) :=
  (((blockTileCells cfg a block k).filter fun z => pos z = i).foldl (mergeBest corr) none).map
    fun b => ⟨b.1, other b.2, i⟩

theorem cell_of_tileMatch {block k i : ℕ} {m : SCAMPmatch K}
    (h : tileMatch cfg a corr pos other block k i = some m) :
    ∃ z, (BlockCell cfg a block z ∧ z.1 / cfg.tileHeight = k ∧ pos z = i) ∧
      m = ⟨m.corr, other z, pos z⟩ := by
  unfold tileMatch at h
  obtain ⟨b, hb, rfl⟩ := Option.map_eq_some_iff.mp h
  obtain ⟨hmem, -⟩ := (foldl_mergeBest_mem _ none hb).resolve_left (Option.some_ne_none b).symm
  obtain ⟨htile, hpos⟩ := List.mem_filter.mp hmem
  obtain ⟨hcell, hk⟩ := mem_blockTileCells.mp htile
  have hpos := of_decide_eq_true hpos
  exact ⟨b.2, ⟨hcell, hk, hpos⟩, by rw [hpos]⟩

variable [Field K]

/-- **A reported match is a cell of the pass**, in the column it is reported for. -/
theorem cell_of_mem_sideMatches {m : SCAMPmatch K} (h : m ∈ sideMatches cfg a corr (fun _ _ _ => none) pos other extent) :
    ∃ block, ∃ z, BlockCell cfg a block z ∧ pos z = m.col ∧ other z = m.row := by
  obtain ⟨block, -, h⟩ := List.mem_flatMap.mp h
  obtain ⟨k, -, h⟩ := List.mem_flatMap.mp h
  obtain ⟨i, -, h⟩ := List.mem_filterMap.mp h
  obtain ⟨z, ⟨hcell, -, -⟩, hm⟩ := cell_of_tileMatch h
  exact ⟨block, z, hcell, (congrArg SCAMPmatch.col hm).symm, (congrArg SCAMPmatch.row hm).symm⟩

/-- **No cell is reported twice** on one side of a pass. -/
theorem nodup_sideMatches (hcell : ∀ z z', pos z = pos z' → other z = other z' → z = z') :
    ((sideMatches cfg a corr (fun _ _ _ => none) pos other extent).map fun m => (m.row, m.col)).Nodup := by
  -- the cell of a report, from its row and its column
  have hsame : ∀ {block block' k k' i i' : ℕ} {m m' : SCAMPmatch K},
      tileMatch cfg a corr pos other block k i = some m →
      tileMatch cfg a corr pos other block' k' i' = some m' → (m.row, m.col) = (m'.row, m'.col) →
      block = block' ∧ k = k' ∧ i = i' := by
    intro block block' k k' i i' m m' h h' heq
    obtain ⟨z, ⟨hz, hk, hi⟩, hm⟩ := cell_of_tileMatch h
    obtain ⟨z', ⟨hz', hk', hi'⟩, hm'⟩ := cell_of_tileMatch h'
    obtain ⟨hrow, hcol⟩ := Prod.mk.injEq .. ▸ heq
    rw [hm, hm'] at hrow hcol
    obtain rfl := hcell z z' hcol hrow
    exact ⟨block_unique_of_cell hz hz', hk.symm.trans hk', hi.symm.trans hi'⟩
  have hmem : ∀ {block k : ℕ} {p : ℕ × ℕ}, p ∈ ((List.range extent).filterMap
      (tileMatch cfg a corr pos other block k)).map (fun m => (m.row, m.col)) →
      ∃ i m, tileMatch cfg a corr pos other block k i = some m ∧ (m.row, m.col) = p := by
    intro block k p hp
    obtain ⟨m, hm, rfl⟩ := List.mem_map.mp hp
    obtain ⟨i, -, hi⟩ := List.mem_filterMap.mp hm
    exact ⟨i, m, hi, rfl⟩
  have hblock : ∀ {block : ℕ} {p : ℕ × ℕ}, p ∈ (List.range (a.nY / cfg.tileHeight + 1)).flatMap (fun k =>
      ((List.range extent).filterMap (tileMatch cfg a corr pos other block k)).map
        fun m => (m.row, m.col)) →
      ∃ k i m, tileMatch cfg a corr pos other block k i = some m ∧ (m.row, m.col) = p := by
    intro block p hp
    obtain ⟨k, -, hp⟩ := List.mem_flatMap.mp hp
    exact ⟨k, hmem hp⟩
  unfold sideMatches
  simp only [List.map_flatMap]
  refine nodup_flatMap_of_inj List.nodup_range (fun block _ => ?_) ?_
  · refine nodup_flatMap_of_inj List.nodup_range (fun k _ => ?_) ?_
    · rw [List.map_filterMap]
      refine List.nodup_range.filterMap fun i i' p hi hi' => ?_
      obtain ⟨m, hm, rfl⟩ := Option.map_eq_some_iff.mp hi
      obtain ⟨m', hm', heq⟩ := Option.map_eq_some_iff.mp hi'
      exact (hsame hm hm' heq.symm).2.2
    · intro k _ k' _ p hp hp'
      obtain ⟨i, m, hm, rfl⟩ := hmem hp
      obtain ⟨i', m', hm', heq⟩ := hmem hp'
      exact (hsame hm hm' heq.symm).2.1
  · intro block _ block' _ p hp hp'
    obtain ⟨k, i, m, hm, rfl⟩ := hblock hp
    obtain ⟨k', i', m', hm', heq⟩ := hblock hp'
    exact (hsame hm hm' heq.symm).1

variable (corr pos other) in
/-- When a single cell of the pass has a correlation, it is reported. -/
theorem mem_sideMatches_single {block : ℕ} {z₀ : ℕ × ℕ} {x : K} (hblock : block < numBlocks cfg a)
    (hcell : BlockCell cfg a block z₀) (hpos : pos z₀ < extent) (hcorr : corr z₀ = .num x)
    (hother : ∀ z, z ≠ z₀ → corr z = .nan) :
    (⟨x, other z₀, pos z₀⟩ : SCAMPmatch K) ∈ sideMatches cfg a corr (fun _ _ _ => none) pos other extent := by
  refine List.mem_flatMap.mpr ⟨block, List.mem_range.mpr hblock, List.mem_flatMap.mpr
    ⟨z₀.1 / cfg.tileHeight, List.mem_range.mpr ?_, List.mem_filterMap.mpr
      ⟨pos z₀, List.mem_range.mpr hpos, ?_⟩⟩⟩
  · exact Nat.lt_succ_of_le (Nat.div_le_div_right hcell.1.1.le)
  · rw [foldl_mergeBest_single hcorr hother _ none (Or.inl rfl) (Or.inr ?_)]
    · rfl
    · exact List.mem_filter.mpr ⟨mem_blockTileCells.mpr ⟨hcell, rfl⟩, by simp⟩

/-- When no cell has a correlation, nothing is reported. -/
theorem sideMatches_of_nan (hnan : ∀ b < numBlocks cfg a, ∀ z, BlockCell cfg a b z → corr z = .nan) :
    sideMatches cfg a corr (fun _ _ _ => none) pos other extent = [] := by
  unfold sideMatches
  rw [List.flatMap_eq_nil_iff]
  intro block hblock
  rw [List.flatMap_eq_nil_iff]
  intro k _
  rw [List.filterMap_eq_nil_iff]
  intro i _
  refine Option.map_eq_none_iff.mpr (Option.eq_none_iff_forall_ne_some.mpr fun b hb => ?_)
  obtain ⟨hmem, hcorr⟩ := (foldl_mergeBest_mem _ none hb).resolve_left (Option.some_ne_none b).symm
  obtain ⟨hcell, -⟩ := mem_blockTileCells.mp (List.mem_filter.mp hmem).1
  rw [hnan block (List.mem_range.mp hblock) b.2 hcell] at hcorr
  nomatch hcorr

/-! ## The cells of a pass -/

omit [LinearOrder K] [Field K] in
variable (cfg) in
/-- The first cell of a launched pass that leaves out no diagonal before it is in the first block. -/
theorem first_cell_in_block (hlaunched : a.exclusionLower + a.exclusionUpper < a.nX) (hlower : a.exclusionLower = 0)
    (hnY : 0 < a.nY) : 0 < numBlocks cfg a ∧ BlockCell cfg a 0 (0, 0) := by
  have hn := cfg.blockDiags_pos
  refine ⟨?_, ⟨hnY, by dsimp only; omega, ?_⟩, ?_, ?_⟩
  · rw [lt_numBlocks_iff]
    omega
  · unfold KernelDims.numDiags
    dsimp only
    omega
  · unfold blockStartCol
    dsimp only
    omega
  · unfold blockStartCol
    dsimp only
    omega

variable {info : OpInfo K} {t : TilePos} {transpose : Bool}

/-- The cell of a match that a pass reports for a column of its tile. -/
def colsCell (t : TileDims) (m : SCAMPmatch K) : ℕ × ℕ := (m.row + t.row, m.col + t.col)

/-- The cell of a match that a pass reports for a row of its tile. -/
def rowsCell (t : TileDims) (m : SCAMPmatch K) : ℕ × ℕ := (m.col + t.row, m.row + t.col)

theorem passMatches_of_swallowed {corr : ℕ × ℕ → Dbl K}
    (h : ¬(kernelDims info (tileDims info t) transpose (!info.selfJoin)).exclusionLower +
      (kernelDims info (tileDims info t) transpose (!info.selfJoin)).exclusionUpper <
        (kernelDims info (tileDims info t) transpose (!info.selfJoin)).nX) :
    passMatches cfg info corr noStarts t transpose = ⟨[], []⟩ := by
  unfold passMatches
  dsimp only
  exact if_pos (Nat.not_lt.mp h)

omit [LinearOrder K] [Field K] in
/-- A block cell of a launched pass is one that the pass compares. -/
theorem globalCell_mem_passCells {block : ℕ} {z : ℕ × ℕ}
    (hlaunched : (kernelDims info (tileDims info t) transpose (!info.selfJoin)).exclusionLower +
      (kernelDims info (tileDims info t) transpose (!info.selfJoin)).exclusionUpper <
        (kernelDims info (tileDims info t) transpose (!info.selfJoin)).nX)
    (hz : BlockCell cfg (kernelDims info (tileDims info t) transpose (!info.selfJoin)) block z) :
    globalCell (tileDims info t) transpose z ∈ passCells 1 info t transpose := by
  obtain ⟨r, c⟩ := z
  obtain ⟨hr, hc, hlower, hupper⟩ := passCell_of_blockCell hz hlaunched
  exact List.mem_map_of_mem ((mem_launchCells Nat.one_pos).mpr ⟨hlaunched, hr, hc, hlower, hupper⟩)

variable (cfg info t transpose) in
/-- **What a pass reports, it compares.** -/
theorem cell_mem_passCells (corr : ℕ × ℕ → Dbl K) :
    (∀ m ∈ (passMatches cfg info corr noStarts t transpose).cols,
        colsCell (tileDims info t) m ∈ passCells 1 info t transpose) ∧
      ∀ m ∈ (passMatches cfg info corr noStarts t transpose).rows,
        rowsCell (tileDims info t) m ∈ passCells 1 info t transpose := by
  by_cases hlaunched : (kernelDims info (tileDims info t) transpose (!info.selfJoin)).exclusionLower +
      (kernelDims info (tileDims info t) transpose (!info.selfJoin)).exclusionUpper <
        (kernelDims info (tileDims info t) transpose (!info.selfJoin)).nX
  · have hside : ∀ (corr : ℕ × ℕ → Dbl K) (pos other : ℕ × ℕ → ℕ) (extent : ℕ) (cell : SCAMPmatch K → ℕ × ℕ),
        (∀ z m, pos z = m.col → other z = m.row → globalCell (tileDims info t) transpose z = cell m) →
        ∀ m ∈ sideMatches cfg (kernelDims info (tileDims info t) transpose (!info.selfJoin)) corr (fun _ _ _ => none) pos other
          extent,
          cell m ∈ passCells 1 info t transpose := by
      intro corr pos other extent cell hcell m hm
      obtain ⟨block, z, hz, hcol, hrow⟩ := cell_of_mem_sideMatches hm
      rw [← hcell z m hcol hrow]
      exact globalCell_mem_passCells hlaunched hz
    unfold passMatches
    dsimp only
    rw [if_neg (Nat.not_le.mpr hlaunched)]
    -- the columns of a transposed pass are the rows of the tile
    cases transpose with
    | false =>
        constructor
        · apply hside
          intro z m hcol hrow
          simp [globalCell, colsCell, ← hcol, ← hrow, Nat.add_comm]
        · apply hside
          intro z m hcol hrow
          simp [globalCell, rowsCell, ← hcol, ← hrow, Nat.add_comm]
    | true =>
        constructor
        · apply hside
          intro z m hcol hrow
          simp [globalCell, colsCell, ← hcol, ← hrow, Nat.add_comm]
        · apply hside
          intro z m hcol hrow
          simp [globalCell, rowsCell, ← hcol, ← hrow, Nat.add_comm]
  · rw [passMatches_of_swallowed hlaunched]
    exact ⟨fun m hm => absurd hm List.not_mem_nil, fun m hm => absurd hm List.not_mem_nil⟩

variable (cfg info t transpose) in
/-- A pass reports a cell at most once for its column, and at most once for its row. -/
theorem nodup_passMatches (corr : ℕ × ℕ → Dbl K) :
    ((passMatches cfg info corr noStarts t transpose).cols.map fun m => (m.row, m.col)).Nodup ∧
      ((passMatches cfg info corr noStarts t transpose).rows.map fun m => (m.row, m.col)).Nodup := by
  have hfirst : ∀ z z' : ℕ × ℕ, z.1 = z'.1 → z.2 = z'.2 → z = z' := fun z z' => Prod.ext
  have hsecond : ∀ z z' : ℕ × ℕ, z.2 = z'.2 → z.1 = z'.1 → z = z' := fun z z' h2 h1 => Prod.ext h1 h2
  unfold passMatches
  dsimp only
  split
  · exact ⟨List.nodup_nil, List.nodup_nil⟩
  · cases transpose with
    | false => exact ⟨nodup_sideMatches hsecond, nodup_sideMatches hfirst⟩
    | true => exact ⟨nodup_sideMatches hfirst, nodup_sideMatches hsecond⟩

/-- A pass whose cells have no correlation reports nothing. -/
theorem passMatches_of_nan {corr : ℕ × ℕ → Dbl K} (hnan : ∀ z ∈ passCells 1 info t transpose, corr z = .nan) :
    passMatches cfg info corr noStarts t transpose = ⟨[], []⟩ := by
  by_cases hlaunched : (kernelDims info (tileDims info t) transpose (!info.selfJoin)).exclusionLower +
      (kernelDims info (tileDims info t) transpose (!info.selfJoin)).exclusionUpper <
        (kernelDims info (tileDims info t) transpose (!info.selfJoin)).nX
  · have hcell : ∀ b < numBlocks cfg (kernelDims info (tileDims info t) transpose (!info.selfJoin)), ∀ z,
        BlockCell cfg (kernelDims info (tileDims info t) transpose (!info.selfJoin)) b z →
        corr (globalCell (tileDims info t) transpose z) = .nan := fun b _ z hz =>
      hnan _ (globalCell_mem_passCells hlaunched hz)
    unfold passMatches
    dsimp only
    rw [if_neg (Nat.not_le.mpr hlaunched), sideMatches_of_nan hcell, sideMatches_of_nan hcell]
    exact ite_self _
  · exact passMatches_of_swallowed hlaunched

/-- The correlations of a matrix in which a single cell is defined. -/
def lonelyCorr (z₀ : ℕ × ℕ) (x : K) (z : ℕ × ℕ) : Dbl K := if z = z₀ then .num x else .nan

/-- The first cell of a tile. -/
def firstCell (info : OpInfo K) (t : TilePos) : ℕ × ℕ := ((tileDims info t).row, (tileDims info t).col)

omit [LinearOrder K] [Field K] in
theorem globalCell_eq_firstCell_iff {z : ℕ × ℕ} :
    globalCell (tileDims info t) transpose z = firstCell info t ↔ z = (0, 0) := by
  obtain ⟨r, c⟩ := z
  unfold globalCell firstCell
  cases transpose with
  | false => simp
  | true => simp [and_comm]

/-- A pass that begins at the main diagonal of its tile reports the first cell. -/
theorem first_mem_passMatches
    (hlower : (kernelDims info (tileDims info t) transpose (!info.selfJoin)).exclusionLower = 0)
    (hupper : (kernelDims info (tileDims info t) transpose (!info.selfJoin)).exclusionUpper <
      (kernelDims info (tileDims info t) transpose (!info.selfJoin)).nX) (x : K) :
    (⟨x, 0, 0⟩ : SCAMPmatch K) ∈ (passMatches cfg info (lonelyCorr (firstCell info t) x) noStarts t transpose).cols := by
  have hlaunched : (kernelDims info (tileDims info t) transpose (!info.selfJoin)).exclusionLower +
      (kernelDims info (tileDims info t) transpose (!info.selfJoin)).exclusionUpper <
        (kernelDims info (tileDims info t) transpose (!info.selfJoin)).nX := by omega
  have hnY : 0 < (kernelDims info (tileDims info t) transpose (!info.selfJoin)).nY := Nat.succ_pos _
  have hnX : 0 < (kernelDims info (tileDims info t) transpose (!info.selfJoin)).nX := Nat.succ_pos _
  obtain ⟨hblock, hcell⟩ := first_cell_in_block cfg hlaunched hlower hnY
  have hcorr : lonelyCorr (firstCell info t) x (globalCell (tileDims info t) transpose (0, 0)) = .num x :=
    if_pos (globalCell_eq_firstCell_iff.mpr rfl)
  have hother : ∀ z, z ≠ (0, 0) →
      lonelyCorr (firstCell info t) x (globalCell (tileDims info t) transpose z) = .nan := fun z hz =>
    if_neg fun heq => hz (globalCell_eq_firstCell_iff.mp heq)
  unfold passMatches
  dsimp only
  rw [if_neg (Nat.not_le.mpr hlaunched)]
  cases transpose with
  | false =>
      exact mem_sideMatches_single
        (fun z => lonelyCorr (firstCell info t) x (globalCell (tileDims info t) false z)) Prod.snd Prod.fst
        hblock hcell hnX hcorr hother
  | true =>
      exact mem_sideMatches_single
        (fun z => lonelyCorr (firstCell info t) x (globalCell (tileDims info t) true z)) Prod.fst Prod.snd
        hblock hcell hnY hcorr hother

end

/-! ## The rows reported for a column -/

section
variable {K : Type}

/-- The rows that lists of matches offer a column, in the positions of the distance matrix. -/
def callRows (calls : List (MatchMergeCall K)) (pos : ℕ) : List ℕ :=
  calls.flatMap fun c => (columnMatches c.mergeStartCol pos c.ms).map fun m => m.row + c.mergeStartRow

theorem callRows_append (calls calls' : List (MatchMergeCall K)) (pos : ℕ) :
    callRows (calls ++ calls') pos = callRows calls pos ++ callRows calls' pos :=
  List.flatMap_append

theorem mem_callRows_single {ms : List (SCAMPmatch K)} {startRow startCol pos row : ℕ} :
    row ∈ callRows [⟨ms, startRow, startCol⟩] pos ↔
      ∃ m ∈ ms, (m.row + startRow, m.col + startCol) = (row, pos) := by
  unfold callRows columnMatches
  rw [List.flatMap_singleton, List.mem_map]
  constructor
  · rintro ⟨m, hm, rfl⟩
    obtain ⟨hm, hpos⟩ := List.mem_filter.mp hm
    exact ⟨m, hm, by rw [of_decide_eq_true hpos]⟩
  · rintro ⟨m, hm, hcell⟩
    obtain ⟨hrow, hpos⟩ := Prod.mk.injEq .. ▸ hcell
    exact ⟨m, List.mem_filter.mpr ⟨hm, decide_eq_true hpos⟩, hrow⟩

/-- The matches of the columns go into the first profile, those of the rows where `MergeProfile` puts them. -/
theorem mem_callRows_mergedLists {info : OpInfo K} {t : TileDims} {ms : TileMatches K} {side : Side}
    {pos row : ℕ} :
    row ∈ callRows (mergedLists info t ms side) pos ↔
      (side = .a ∧ ∃ m ∈ ms.cols, colsCell t m = (row, pos)) ∨
        Tile.mergeTargetB info = some side ∧ ∃ m ∈ ms.rows, rowsCell t m = (pos, row) := by
  unfold mergedLists colsCell rowsCell
  rw [callRows_append, List.mem_append]
  refine or_congr ?_ ?_
  · split
    · next h =>
        rw [mem_callRows_single]
        exact (and_iff_right h).symm
    · next h => simp [callRows, h]
  · split
    · next h =>
        rw [mem_callRows_single]
        simp only [h, true_and, Prod.mk.injEq, and_comm]
    · next h => simp [callRows, h]

/-- Matches of different cells offer a column different rows. -/
theorem nodup_column_rows {ms : List (SCAMPmatch K)} (h : (ms.map fun m => (m.row, m.col)).Nodup)
    (startRow startCol pos : ℕ) : (callRows [⟨ms, startRow, startCol⟩] pos).Nodup := by
  unfold callRows columnMatches
  rw [List.flatMap_singleton]
  have hpairs := h.sublist (List.filter_sublist.map _ :
    ((ms.filter fun m => m.col + startCol = pos).map fun m => (m.row, m.col)).Sublist _)
  refine List.Nodup.of_map (fun row => (row - startRow, pos - startCol)) ?_
  rw [List.map_map]
  refine (List.map_congr_left fun m hm => ?_) ▸ hpairs
  have hpos := of_decide_eq_true (List.mem_filter.mp hm).2
  dsimp only [Function.comp_apply]
  rw [← hpos, Nat.add_sub_cancel, Nat.add_sub_cancel]

end

section
variable {K : Type} [Field K] [LinearOrder K] {J : Join K} {cfg : KernelConfig} {t : TilePos}

/-- The rows that a pass over a tile may report for a column of a profile. -/
def passRows (cfg : KernelConfig) (info : OpInfo K) (corr : ℕ × ℕ → Dbl K) (side : Side) (pos : ℕ)
    (t : TilePos) (transpose : Bool) : List ℕ :=
  callRows (mergedLists info (tileDims info t) (passMatches cfg info corr noStarts t transpose) side) pos

/-- The cell of a match of row `row` for column `pos`. In a self-join the rows of a tile go into the same
    profile as its columns; the order of the two positions tells which of them a match is from. -/
def reportedCell (info : OpInfo K) (side : Side) (pos row : ℕ) : ℕ × ℕ :=
  match side with
  | .a => if info.selfJoin ∧ pos < row then (pos, row) else (row, pos)
  | .b => (pos, row)

omit [Field K] [LinearOrder K] in
theorem selfJoin_of_target_a {info : OpInfo K} (h : Tile.mergeTargetB info = some .a) : info.selfJoin = true := by
  unfold Tile.mergeTargetB at h
  split at h
  · exact Side.noConfusion (Option.some.inj h)
  · split at h
    · next hself => exact (Bool.and_eq_true_iff.mp hself).1
    · exact absurd h (Option.some_ne_none Side.a).symm

/-- The cells of a self-join are above the diagonal. -/
theorem above_of_selfJoin (hself : J.info.selfJoin = true) (ht : t ∈ getTiles J.info) {transpose : Bool}
    (hpass : transpose ∈ tilePasses J.info t) {r c : ℕ} (h : (r, c) ∈ passCells 1 J.info t transpose) :
    r < c := by
  have hb : J.args.hasB = false := by simpa [Join.info, OpInfo.ofArgs] using hself
  obtain ⟨-, hzone⟩ := (mem_selfJoin_tileCells hb ht Nat.one_pos).mp (List.mem_flatMap.mpr ⟨_, hpass, h⟩)
  have hthree := J.three_le_window
  unfold exclusionZone at hzone
  omega

/-- **The cell behind a reported row** is one that the pass compares. -/
theorem reportedCell_mem (ht : t ∈ getTiles J.info) {transpose : Bool} (hpass : transpose ∈ tilePasses J.info t)
    {corr : ℕ × ℕ → Dbl K} {side : Side} {pos row : ℕ}
    (h : row ∈ passRows cfg J.info corr side pos t transpose) :
    reportedCell J.info side pos row ∈ passCells 1 J.info t transpose := by
  obtain ⟨hcols, hrows⟩ := cell_mem_passCells cfg J.info t transpose corr
  rcases mem_callRows_mergedLists.mp h with ⟨rfl, m, hm, hcell⟩ | ⟨htarget, m, hm, hcell⟩
  · have hmem := hcols m hm
    rw [hcell] at hmem
    unfold reportedCell
    dsimp only
    rw [if_neg]
    · exact hmem
    · rintro ⟨hself, hlt⟩
      have := above_of_selfJoin hself ht hpass hmem
      omega
  · have hmem := hrows m hm
    rw [hcell] at hmem
    cases side with
    | a =>
        have hself := selfJoin_of_target_a htarget
        unfold reportedCell
        dsimp only
        rw [if_pos ⟨hself, above_of_selfJoin hself ht hpass hmem⟩]
        exact hmem
    | b => exact hmem

/-- A pass offers a column no row twice. -/
theorem nodup_passRows (ht : t ∈ getTiles J.info) {transpose : Bool} (hpass : transpose ∈ tilePasses J.info t)
    (corr : ℕ × ℕ → Dbl K) (side : Side) (pos : ℕ) :
    (passRows cfg J.info corr side pos t transpose).Nodup := by
  obtain ⟨hcols, hrows⟩ := nodup_passMatches cfg J.info t transpose corr
  obtain ⟨hcolsCell, hrowsCell⟩ :=
    cell_mem_passCells cfg J.info t transpose corr
  unfold passRows mergedLists
  rw [callRows_append]
  refine List.nodup_append.mpr ⟨?_, ?_, ?_⟩
  · split
    · exact nodup_column_rows hcols _ _ _
    · exact List.nodup_nil
  · split
    · exact nodup_column_rows hrows _ _ _
    · exact List.nodup_nil
  · -- a row from a column is above the diagonal, a row from a row below it
    intro row hrow row' hrow' heq
    subst heq
    split at hrow
    · next hside =>
        split at hrow'
        · next htarget =>
            have hself := selfJoin_of_target_a (hside ▸ htarget)
            obtain ⟨m, hm, hcell⟩ := mem_callRows_single.mp hrow
            obtain ⟨m', hm', hcell'⟩ := mem_callRows_single.mp hrow'
            obtain ⟨hrowEq, hcolEq⟩ := Prod.mk.injEq .. ▸ hcell
            obtain ⟨hrowEq', hcolEq'⟩ := Prod.mk.injEq .. ▸ hcell'
            have hup := above_of_selfJoin hself ht hpass (hcolsCell m hm)
            have hdown := above_of_selfJoin hself ht hpass (hrowsCell m' hm')
            omega
        · exact absurd hrow' List.not_mem_nil
    · exact absurd hrow List.not_mem_nil

/-! ## The main diagonal of a tile -/

/-- The pass is launched, and begins at the main diagonal of its tile. -/
def StartsAtDiagonal (a : KernelDims) : Prop := a.exclusionLower = 0 ∧ a.exclusionUpper < a.nX

/-- **The passes over a tile** share the cells of its main diagonal when both of them begin there. -/
theorem exists_shared_iff (ht : t ∈ getTiles J.info) :
    (∃ z, z ∈ passCells 1 J.info t false ∧ z ∈ passCells 1 J.info t true) ↔
      StartsAtDiagonal (kernelDims J.info (tileDims J.info t) false (!J.info.selfJoin)) ∧
        StartsAtDiagonal (kernelDims J.info (tileDims J.info t) true (!J.info.selfJoin)) := by
  have hX : (kernelDims J.info (tileDims J.info t) false (!J.info.selfJoin)).nX = tileNumCols J.info t :=
    tileDims_numCols ht
  have hY : (kernelDims J.info (tileDims J.info t) true (!J.info.selfJoin)).nX = tileNumRows J.info t :=
    tileDims_numRows ht
  unfold StartsAtDiagonal
  rw [hX, hY]
  constructor
  · rintro ⟨⟨r, c⟩, hup, hlo⟩
    obtain ⟨-, hup⟩ := (mem_upperCells ht Nat.one_pos).mp hup
    obtain ⟨-, hlo⟩ := (mem_lowerCells ht Nat.one_pos).mp hlo
    unfold OnPass at hup hlo
    omega
  · rintro ⟨⟨hupL, hupU⟩, hloL, hloU⟩
    refine ⟨(t.1 * J.info.maxTileWidth, t.2 * J.info.maxTileWidth), ?_, ?_⟩
    · rw [mem_upperCells ht Nat.one_pos, hupL]
      unfold OnPass InTile
      omega
    · rw [mem_lowerCells ht Nat.one_pos, hloL]
      unfold OnPass InTile
      omega

/-- Both passes over the tile compare its main diagonal. In a self-join these are the tiles that are not on
    the diagonal themselves, and in a join that is not aligned all tiles. In an aligned join they are those
    that start outside the band of trivial matches, but for an edge tile no wider than the band that starts
    right beside it. -/
def SharesDiagonal (info : OpInfo K) (t : TilePos) : Prop :=
  if info.selfJoin then t.1 ≠ t.2
  else info.isAligned = true →
    (globalStartRow info t + exclusionZone info.mpWindow ≤ globalStartCol info t ∧
      ¬(globalStartRow info t + exclusionZone info.mpWindow = globalStartCol info t ∧
        tileNumRows info t = exclusionZone info.mpWindow)) ∨
    (globalStartCol info t + exclusionZone info.mpWindow ≤ globalStartRow info t ∧
      ¬(globalStartCol info t + exclusionZone info.mpWindow = globalStartRow info t ∧
        tileNumCols info t = exclusionZone info.mpWindow))

/-- A tile has cells. -/
theorem tile_nonempty (ht : t ∈ getTiles J.info) : 0 < tileNumRows J.info t ∧ 0 < tileNumCols J.info t := by
  obtain ⟨hrow, hcol, -⟩ := (mem_getTiles J).mp ht
  have hW := tileWidth_pos J
  unfold tileNumRows tileNumCols
  omega

section
variable (hbest : addsUp J.args.profileType = false) (ht : t ∈ getTiles J.info)
include hbest

theorem extraExclusion_of_best : extraExclusion J.info.profileType = 0 :=
  if_neg (show ¬addsUp J.args.profileType = true by simp [hbest])

include ht

theorem sharesDiagonal_selfJoin (hself : J.args.hasB = false) :
    SharesDiagonal J.info t ↔ tilePasses J.info t = [false, true] ∧
      StartsAtDiagonal (kernelDims J.info (tileDims J.info t) false (!J.info.selfJoin)) ∧
        StartsAtDiagonal (kernelDims J.info (tileDims J.info t) true (!J.info.selfJoin)) := by
  unfold SharesDiagonal
  rw [if_pos (J.selfJoin_of_self hself)]
  constructor
  · intro hne
    have hlt : t.1 < t.2 := lt_of_le_of_ne (((mem_getTiles J).mp ht).2.2 hself) hne
    obtain ⟨hupL, hupU⟩ := selfJoin_upper_dims hself ht
    obtain ⟨hloL, hloU⟩ := selfJoin_lower_dims hself ht hlt
    have hzone := exclusionZone_lt_window J
    have hwide := J.window_lt_tileWidth
    refine ⟨tilePasses_offDiagonal hlt, ⟨hupL.trans (if_neg hne), ?_⟩, hloL.trans (extraExclusion_of_best hbest), ?_⟩
    · rw [hupU]
      exact Nat.succ_pos _
    · rw [hloU]
      show _ < (tileDims J.info t).height - J.info.mpWindow + 1
      rw [tileDims_numRows ht, selfJoin_full_height hself ht hlt]
      split <;> omega
  · rintro ⟨hpasses, -⟩ heq
    rw [tilePasses_diagonal hself heq] at hpasses
    exact absurd hpasses (by decide)

theorem sharesDiagonal_abJoin (hab : J.args.hasB = true) :
    SharesDiagonal J.info t ↔ tilePasses J.info t = [false, true] ∧
      StartsAtDiagonal (kernelDims J.info (tileDims J.info t) false (!J.info.selfJoin)) ∧
        StartsAtDiagonal (kernelDims J.info (tileDims J.info t) true (!J.info.selfJoin)) := by
  have hself : ¬J.info.selfJoin = true := by simp [J.selfJoin_of_ab hab]
  have hextra := extraExclusion_of_best hbest
  unfold SharesDiagonal
  rw [if_neg hself]
  simp only [tilePasses_abJoin hab, true_and]
  cases haligned : J.args.isAligned with
  | false =>
      have hna : ¬J.info.isAligned = true := by simp [show J.info.isAligned = false from haligned]
      obtain ⟨hupL, hupU⟩ := abJoin_dims (t := t) hab haligned false
      obtain ⟨hloL, hloU⟩ := abJoin_dims (t := t) hab haligned true
      refine iff_of_true (fun h => absurd h hna) ⟨⟨hupL.trans hextra, ?_⟩, hloL, ?_⟩
      · rw [hupU]
        exact Nat.succ_pos _
      · rw [hloU]
        exact Nat.succ_pos _
  | true =>
      have haligned' : J.info.isAligned = true := haligned
      obtain ⟨hrows, hcols⟩ := tile_nonempty ht
      obtain ⟨hupL, hupU⟩ := aligned_upper_dims hab haligned ht
      obtain ⟨hloL, hloU⟩ := aligned_lower_dims hab haligned ht
      have hX : (kernelDims J.info (tileDims J.info t) false (!J.info.selfJoin)).nX = tileNumCols J.info t :=
        tileDims_numCols ht
      have hY : (kernelDims J.info (tileDims J.info t) true (!J.info.selfJoin)).nX = tileNumRows J.info t :=
        tileDims_numRows ht
      have hpos : 0 < exclusionZone J.info.mpWindow := by
        have hthree := J.three_le_window
        unfold exclusionZone
        omega
      unfold StartsAtDiagonal
      rw [hupL, hupU, hloL, hloU, hX, hY, hextra, Nat.max_zero]
      simp only [getExclusion_eq, haligned', true_implies]
      generalize globalStartRow J.info t = row
      generalize globalStartCol J.info t = col
      split_ifs <;> omega

/-- **Where the passes share a diagonal**, in terms of what they leave out. -/
theorem sharesDiagonal_iff :
    SharesDiagonal J.info t ↔ tilePasses J.info t = [false, true] ∧
      StartsAtDiagonal (kernelDims J.info (tileDims J.info t) false (!J.info.selfJoin)) ∧
        StartsAtDiagonal (kernelDims J.info (tileDims J.info t) true (!J.info.selfJoin)) := by
  cases hb : J.args.hasB with
  | false => exact sharesDiagonal_selfJoin hbest ht hb
  | true => exact sharesDiagonal_abJoin hbest ht hb

end

end

end Scamp
