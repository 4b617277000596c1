import Scamp.Core.Correctness.OffsetCells
import Scamp.Distributed.Correctness.Accepted

/-!
# `Distributed.Correctness.DistributedSelf` — a distributed self-join

`PROFILE_TYPE_1NN_INDEX` over the real numbers, for a self-join that does not keep the rows. Tiles on the
diagonal are self-joins of a range of the series. Those above it are aligned AB-joins of two ranges, whose
rows and columns both go into `profile_a`; they are told where they start, to leave out the trivial matches.
That works only for some sizes of tiles: `distributedSelfJoin_iff` says when the tiles compare exactly the
cells that the self-join of the whole series compares, and that the profile is then the same.
-/

namespace Scamp

open Lib

/-! ## The cells of a job -/

/-- Tile `k` of a job, computed by its join, compares the cell of the matrix. -/
def TileCompares (start : Job ℝ) (joins : ℕ → Join ℝ) (U k : ℕ) (z : ℕ × ℕ) : Prop :=
  ComparesAt U (joins k) ((start.tiles k).tileRow * start.distributedTileSize)
    ((start.tiles k).tileCol * start.distributedTileSize) z

/-- A tile of the job compares the cell, or its mirror image. -/
def JobCompares (start : Job ℝ) (joins : ℕ → Join ℝ) (U : ℕ) (z : ℕ × ℕ) : Prop :=
  ∃ k < start.tileCounter, TileCompares start joins U k z ∨ TileCompares start joins U k z.swap

/-- In the tiles above the diagonal, every tile of the worker leaves out exactly the band of width `e`. -/
def TilesKeepBand (e : ℕ) (start : Job ℝ) (joins : ℕ → Join ℝ) : Prop :=
  ∀ k < start.tileCounter, (start.tiles k).tileRow ≠ (start.tiles k).tileCol → ∀ t ∈ getTiles (joins k).info,
    TileKeepsBand e
      ((start.tiles k).tileRow * start.distributedTileSize + t.1 * (joins k).info.maxTileWidth)
      ((start.tiles k).tileCol * start.distributedTileSize + t.2 * (joins k).info.maxTileWidth)
      (tileNumRows (joins k).info t) (tileNumCols (joins k).info t)

section
variable {J T : Join ℝ} {args : SCAMPProto.SCAMPArgs ℝ} {jobId : ℤ} {profileA profileB : SCAMPProto.Profile ℝ}
  {start : Job ℝ} {k row col height width : ℕ}

/-! ## The join of a tile -/

/-- On the diagonal a worker runs a self-join of the same kind. -/
theorem runsMessage_diagonal (hsub : Submitted J args) (hself : J.args.hasB = false)
    (hkeep : J.args.keepRowsSeparate = false) (htype : J.args.profileType = .oneNNIndex)
    (hstart : start = (Job.sized args jobId profileA profileB).makeTiles)
    (hdiag : (start.tiles k).tileRow = (start.tiles k).tileCol) (hT : RunsMessage (start.message k) T) :
    T.args.hasB = false ∧ T.args.keepRowsSeparate = false ∧ T.args.profileType = .oneNNIndex := by
  have hreq := hsub.requested
  have hb : args.hasB = false := hreq.hasB.trans hself
  have hdiagonal : ((start.tiles k).tileRow == (start.tiles k).tileCol) = true := beq_iff_eq.mpr hdiag
  have hargs : start.jobArgs = { args with profileA := profileA, profileB := profileB } := by
    rw [hstart]
    rfl
  refine ⟨?_, ?_, ?_⟩
  · rw [hT.hasB]
    show (start.jobArgs.hasB || !((start.tiles k).tileRow == (start.tiles k).tileCol)) = _
    rw [hdiagonal, hargs, show args.hasB = false from hb]
    rfl
  · rw [hT.keepRowsSeparate]
    show (if (start.jobArgs.hasB || ((start.tiles k).tileRow == (start.tiles k).tileCol)) = true then
      start.jobArgs.keepRowsSeparate else true) = _
    rw [hdiagonal, Bool.or_true, if_pos rfl, hargs]
    exact hreq.keepRowsSeparate.trans hkeep
  · subst hstart
    exact hT.oneNNIndex hsub htype

/-- Above the diagonal it runs an aligned AB-join that keeps the rows, and knows where it starts. -/
theorem runsMessage_above (hsub : Submitted J args) (hself : J.args.hasB = false)
    (htype : J.args.profileType = .oneNNIndex) (hstart : start = (Job.sized args jobId profileA profileB).makeTiles)
    (ht : TileAt J start k row col height width) (hoff : (start.tiles k).tileRow ≠ (start.tiles k).tileCol)
    (hT : RunsMessage (start.message k) T) :
    OffsetAbove T row col ∧ T.args.keepRowsSeparate = true ∧ T.args.profileType = .oneNNIndex := by
  have hreq := hsub.requested
  have hb : args.hasB = false := hreq.hasB.trans hself
  have hdiagonal : ((start.tiles k).tileRow == (start.tiles k).tileCol) = false := beq_eq_false_iff_ne.mpr hoff
  have hargs : start.jobArgs = { args with profileA := profileA, profileB := profileB } := by
    rw [hstart]
    rfl
  have hjobB : start.jobArgs.hasB = false := by
    rw [hargs]
    exact hb
  have htypeT : T.args.profileType = .oneNNIndex := by
    subst hstart
    exact hT.oneNNIndex hsub htype
  obtain ⟨-, -, hrows⟩ : PartOf T J row col ∧ T.info.numCols = width ∧ T.info.numRows = height := by
    subst hstart
    exact ht.partOf hsub hT
  refine ⟨⟨?_, ?_, ?_, ?_, ?_, ?_⟩, ?_, htypeT⟩
  · rw [hT.hasB]
    show (start.jobArgs.hasB || !((start.tiles k).tileRow == (start.tiles k).tileCol)) = _
    rw [hdiagonal]
    exact Bool.or_true _
  · rw [hT.isAligned]
    show (if (start.jobArgs.hasB || ((start.tiles k).tileRow == (start.tiles k).tileCol)) = true then
      start.jobArgs.isAligned else true) = _
    rw [hdiagonal, hjobB]
    rfl
  · rw [hT.startRow]
    exact ht.startRow
  · rw [hT.startCol]
    exact ht.startCol
  · have hne : row ≠ col := fun heq => hoff (ht.diagonal.mpr heq)
    have habove := (ht.above hself).resolve_left hne
    omega
  · rw [htypeT]
    rfl
  · rw [hT.keepRowsSeparate]
    show (if (start.jobArgs.hasB || ((start.tiles k).tileRow == (start.tiles k).tileCol)) = true then
      start.jobArgs.keepRowsSeparate else true) = _
    rw [hdiagonal, hjobB]
    rfl

end

/-! ## What the tiles compare -/

section
variable {J : Join ℝ} {args : SCAMPProto.SCAMPArgs ℝ} {jobId : ℤ} {profileA profileB : SCAMPProto.Profile ℝ}
  {start : Job ℝ} {joins : ℕ → Join ℝ} {k row col height width : ℕ} {U : ℕ}
  (hsub : Submitted J args) (hself : J.args.hasB = false)
  (hstart : start = (Job.sized args jobId profileA profileB).makeTiles)
include hsub hstart

theorem part_of_tile (ht : TileAt J start k row col height width) {T : Join ℝ}
    (hT : RunsMessage (start.message k) T) : PartOf T J row col ∧ T.info.numCols = width ∧ T.info.numRows = height := by
  subst hstart
  exact ht.partOf hsub hT

theorem tileAt_of_lt (hk : k < start.tileCounter) : ∃ row col height width, TileAt J start k row col height width := by
  subst hstart
  exact exists_tileAt hsub jobId profileA profileB hk

/-- Every cell of the matrix on or above the diagonal is in a tile. -/
theorem exists_tile_above (hself : J.args.hasB = false) {r c : ℕ} (hle : r ≤ c) (hc : c < J.info.numCols) :
    ∃ k < start.tileCounter, ∃ row col height width, TileAt J start k row col height width ∧
      (row ≤ r ∧ r < row + height) ∧ col ≤ c ∧ c < col + width := by
  have hsquare := numRows_eq_numCols J hself
  obtain ⟨k, hk, hcovers⟩ := sized_covers jobId profileA profileB hsub.size_ne_zero
    (show (r : ℤ) < args.height by rw [hsub.height_eq]; omega) (show (c : ℤ) < args.width by rw [hsub.width_eq]; omega)
    fun _ => hle
  subst hstart
  obtain ⟨row, col, height, width, ht⟩ := exists_tileAt hsub jobId profileA profileB hk
  exact ⟨k, hk, row, col, height, width, ht, (ht.covers r c).mp hcovers⟩

/-- A tile compares cells of its own place. -/
theorem place_of_tileCompares (ht : TileAt J start k row col height width)
    (hT : RunsMessage (start.message k) (joins k)) (hU : 0 < U) {z : ℕ × ℕ} (h : TileCompares start joins U k z) :
    (row ≤ z.1 ∧ z.1 < row + height) ∧ col ≤ z.2 ∧ z.2 < col + width := by
  obtain ⟨-, hcols, hrows⟩ := part_of_tile hsub hstart ht hT
  unfold TileCompares ComparesAt at h
  rw [ht.place.1, ht.place.2] at h
  obtain ⟨hr, hc, hmem⟩ := h
  obtain ⟨hlt, hlt'⟩ := lt_of_mem_comparedCells (joins k) hU hmem
  omega

include hself

/-- A cell that is compared is in the matrix. -/
theorem lt_of_jobCompares (hjoins : ∀ k < start.tileCounter, RunsMessage (start.message k) (joins k)) (hU : 0 < U)
    {z : ℕ × ℕ} (h : JobCompares start joins U z) : z.1 < J.info.numCols ∧ z.2 < J.info.numCols := by
  have hsquare := numRows_eq_numCols J hself
  obtain ⟨k, hk, hcompares⟩ := h
  obtain ⟨row, col, height, width, ht⟩ := tileAt_of_lt hsub hstart hk
  have hrows := ht.rows
  have hcols := ht.cols
  rcases hcompares with hcompares | hmirror
  · have hplace := place_of_tileCompares hsub hstart ht (hjoins k hk) hU hcompares
    omega
  · have hplace := place_of_tileCompares hsub hstart ht (hjoins k hk) hU hmirror
    dsimp only [Prod.swap] at hplace
    omega

/-- A tile on the diagonal compares its cells above the band. -/
theorem tileCompares_diagonal (hkeep : J.args.keepRowsSeparate = false) (htype : J.args.profileType = .oneNNIndex)
    (ht : TileAt J start k row col height width) (hdiag : (start.tiles k).tileRow = (start.tiles k).tileCol)
    (hT : RunsMessage (start.message k) (joins k)) (hU : 0 < U) (z : ℕ × ℕ) :
    TileCompares start joins U k z ↔ ((row ≤ z.1 ∧ z.1 < row + height) ∧ col ≤ z.2 ∧ z.2 < col + width) ∧
      z.1 + exclusionZone J.info.mpWindow ≤ z.2 := by
  obtain ⟨hpart, hcols, hrows⟩ := part_of_tile hsub hstart ht hT
  obtain ⟨hb, -, -⟩ := runsMessage_diagonal hsub hself hkeep htype hstart hdiag hT
  have hrowcol := ht.diagonal.mp hdiag
  have hsquare := ht.square hself hrowcol
  unfold TileCompares ComparesAt
  rw [ht.place.1, ht.place.2, mem_comparedCells_selfJoin hU hb, hcols, hpart.window]
  omega

/-- **Only one tile compares a cell**, or its mirror image. -/
theorem jobCompares_iff_tile (hjoins : ∀ k < start.tileCounter, RunsMessage (start.message k) (joins k))
    (hk : k < start.tileCounter) (ht : TileAt J start k row col height width) (hU : 0 < U) {z : ℕ × ℕ}
    (hz : (row ≤ z.1 ∧ z.1 < row + height) ∧ col ≤ z.2 ∧ z.2 < col + width) :
    JobCompares start joins U z ↔ TileCompares start joins U k z ∨ TileCompares start joins U k z.swap := by
  constructor
  · rintro ⟨k', hk', hcompares⟩
    obtain ⟨row', col', height', width', ht'⟩ := tileAt_of_lt hsub hstart hk'
    suffices hsame : k = k' by rwa [hsame]
    rcases hcompares with hcompares | hmirror
    · exact ht.unique hsub hstart hk hk' ht' hz (place_of_tileCompares hsub hstart ht' (hjoins k' hk') hU hcompares)
    · -- both a cell and its mirror image are in tiles only on the diagonal
      have hplace := place_of_tileCompares hsub hstart ht' (hjoins k' hk') hU hmirror
      dsimp only [Prod.swap] at hplace
      rcases ht.above hself with hdiag | habove
      · have hsquare := ht.square hself hdiag
        exact ht.unique hsub hstart hk hk' ht' (i := z.2) (j := z.1) (by omega) hplace
      · rcases ht'.above hself with hdiag' | habove'
        · have hsquare' := ht'.square hself hdiag'
          exact ht.unique hsub hstart hk hk' ht' hz (by omega)
        · omega
  · exact fun h => ⟨k, hk, h⟩

/-- **What a job compares**: exactly the cells outside the band, counted with their mirror images, if and only
    if the tiles of the workers leave out exactly the band. -/
theorem jobCompares_iff (hkeep : J.args.keepRowsSeparate = false) (htype : J.args.profileType = .oneNNIndex)
    (hjoins : ∀ k < start.tileCounter, RunsMessage (start.message k) (joins k)) (hU : 0 < U) :
    (∀ r < J.info.numCols, ∀ c < J.info.numCols,
        (JobCompares start joins U (r, c) ↔ OutsideBand (exclusionZone J.info.mpWindow) r c)) ↔
      TilesKeepBand (exclusionZone J.info.mpWindow) start joins := by
  have hpos : 0 < exclusionZone J.info.mpWindow := by
    have hthree := J.three_le_window
    unfold exclusionZone
    omega
  have hsquareMatrix := numRows_eq_numCols J hself
  -- the cells of a tile above the diagonal
  have habove : ∀ k, k < start.tileCounter → ∀ row col height width, TileAt J start k row col height width →
      (start.tiles k).tileRow ≠ (start.tiles k).tileCol → row + height ≤ col ∧
      OffsetAbove (joins k) row col ∧ (joins k).info.mpWindow = J.info.mpWindow ∧
      (joins k).info.numCols = width ∧ (joins k).info.numRows = height ∧
      ∀ r < height, ∀ c < width, (JobCompares start joins U (row + r, col + c) ↔
        (r, c) ∈ comparedCells U (joins k).info) := by
    intro k hk row col height width ht hoff
    obtain ⟨hpart, hcols, hrows⟩ := part_of_tile hsub hstart ht (hjoins k hk)
    obtain ⟨hoffset, -, -⟩ := runsMessage_above hsub hself htype hstart ht hoff (hjoins k hk)
    have hne : row ≠ col := fun heq => hoff (ht.diagonal.mpr heq)
    have hright := (ht.above hself).resolve_left hne
    refine ⟨hright, hoffset, hpart.window, hcols, hrows, fun r hr c hc => ?_⟩
    rw [jobCompares_iff_tile hsub hself hstart hjoins hk ht hU (by dsimp only; omega), or_iff_left]
    · unfold TileCompares ComparesAt
      rw [ht.place.1, ht.place.2]
      simp
    · intro hmirror
      have hplace := place_of_tileCompares hsub hstart ht (hjoins k hk) hU hmirror
      dsimp only [Prod.swap] at hplace
      omega
  constructor
  · intro hall k hk hoff
    obtain ⟨row, col, height, width, ht⟩ := tileAt_of_lt hsub hstart hk
    obtain ⟨hright, hoffset, hwindow, hcols, hrows, hcells⟩ := habove k hk row col height width ht hoff
    obtain ⟨-, hrowEnd⟩ := ht.rows
    obtain ⟨-, hcolEnd⟩ := ht.cols
    rw [ht.place.1, ht.place.2, ← hwindow]
    refine (offset_compares_iff hoffset hU).mp fun r hr c hc => ?_
    rw [← hcells r (by omega) c (by omega), hall (row + r) (by omega) (col + c) (by omega), hwindow]
    unfold OutsideBand
    omega
  · intro htiles
    -- it is enough to look above the diagonal
    have hupper : ∀ r c, r ≤ c → c < J.info.numCols →
        (JobCompares start joins U (r, c) ↔ OutsideBand (exclusionZone J.info.mpWindow) r c) := by
      intro r c hle hc
      obtain ⟨k, hk, row, col, height, width, ht, hz⟩ := exists_tile_above hsub hstart hself hle hc
      by_cases hdiag : (start.tiles k).tileRow = (start.tiles k).tileCol
      · rw [jobCompares_iff_tile hsub hself hstart hjoins hk ht hU hz,
          tileCompares_diagonal hsub hself hstart hkeep htype ht hdiag (hjoins k hk) hU,
          tileCompares_diagonal hsub hself hstart hkeep htype ht hdiag (hjoins k hk) hU]
        have hsquare := ht.square hself (ht.diagonal.mp hdiag)
        have hrowcol := ht.diagonal.mp hdiag
        unfold OutsideBand
        dsimp only [Prod.swap]
        omega
      · obtain ⟨hright, hoffset, hwindow, hcols, hrows, hcells⟩ := habove k hk row col height width ht hdiag
        have hkeeps := htiles k hk hdiag
        rw [ht.place.1, ht.place.2, ← hwindow] at hkeeps
        obtain ⟨r', rfl⟩ := Nat.exists_eq_add_of_le hz.1.1
        obtain ⟨c', rfl⟩ := Nat.exists_eq_add_of_le hz.2.1
        rw [hcells r' (by omega) c' (by omega),
          (offset_compares_iff hoffset hU).mpr hkeeps r' (by omega) c' (by omega), hwindow]
        unfold OutsideBand
        omega
    intro r hr c hc
    rcases Nat.le_total r c with hle | hle
    · exact hupper r c hle hc
    · have hswap : JobCompares start joins U (r, c) ↔ JobCompares start joins U (c, r) := by
        unfold JobCompares
        exact exists_congr fun k => and_congr_right fun _ => or_comm
      rw [hswap, hupper c r hle hr]
      exact or_comm

end

/-! ## One tile -/

/-- A merged tile compares the two subsequences, and both take part. -/
def MergedPair (J : Join ℝ) (start : Job ℝ) (joins : ℕ → Join ℝ) (U : ℕ) (merged : ℕ → Prop) (i j : ℕ) : Prop :=
  (∃ k < start.tileCounter, merged k ∧
    (TileCompares start joins U k (i, j) ∨ TileCompares start joins U k (j, i))) ∧ J.ValidCell i j

/-- What `profile_a` of the job holds. -/
def SelfCollected (J : Join ℝ) (start : Job ℝ) (joins : ℕ → Join ℝ) (U : ℕ) (merged : ℕ → Prop)
    (jobArgs : SCAMPProto.SCAMPArgs ℝ) : Prop :=
  Collected J.info.numCols (MergedPair J start joins U merged) J.pearson jobArgs.profileA

/-- A tile more. -/
theorem mergedPair_add {J : Join ℝ} {start : Job ℝ} {joins : ℕ → Join ℝ} {U k : ℕ} (hk : k < start.tileCounter)
    (merged : ℕ → Prop) (i j : ℕ) :
    MergedPair J start joins U (fun k' => merged k' ∨ k' = k) i j ↔ MergedPair J start joins U merged i j ∨
      ((TileCompares start joins U k (i, j) ∨ TileCompares start joins U k (j, i)) ∧ J.ValidCell i j) := by
  unfold MergedPair
  rw [← or_and_right]
  refine and_congr_left' ⟨?_, ?_⟩
  · rintro ⟨k', hk', hm | rfl, hcompares⟩
    · exact Or.inl ⟨k', hk', hm, hcompares⟩
    · exact Or.inr hcompares
  · rintro (⟨k', hk', hm, hcompares⟩ | hcompares)
    · exact ⟨k', hk', Or.inl hm, hcompares⟩
    · exact ⟨k, hk, Or.inr rfl, hcompares⟩

/-- The unroll width does not change what a tile compares. -/
theorem tileCompares_congr {start : Job ℝ} {joins : ℕ → Join ℝ} {U U' k : ℕ} (hU : 0 < U) (hU' : 0 < U')
    (z : ℕ × ℕ) : TileCompares start joins U k z ↔ TileCompares start joins U' k z := by
  unfold TileCompares ComparesAt
  rw [mem_comparedCells_congr hU hU']

/-- **What a self-join on a worker adds**: the matches of its range. -/
theorem Collected.merge_self {J T : Join ℝ} {row n : ℕ} (hpart : PartOf T J row row) (hself : T.args.hasB = false)
    (hkeep : T.args.keepRowsSeparate = false) (htype : T.args.profileType = .oneNNIndex)
    {message request : SCAMPProto.SCAMPArgs ℝ} (e : Execution message request) (hT : e.join = T)
    {found : ℕ → ℕ → Prop} {p p' : SCAMPProto.Profile ℝ} (h : Collected n found J.pearson p)
    (hmerge : mergeTileIntoFullProfile request.profileA row T.info.numCols p row = some p') :
    Collected n (fun k j => found k j ∨ (((row ≤ k ∧ k < row + T.info.numCols) ∧ row ≤ j ∧ j < row + T.info.numCols) ∧
      OutsideBand (exclusionZone J.info.mpWindow) k j ∧ J.ValidCell k j)) J.pearson p' := by
  subst hT
  have hside : Computed e.join .a := Or.inl rfl
  have hsquare := numRows_eq_numCols e.join hself
  obtain ⟨block, hblock, hlength, hentries⟩ := e.entries htype hside
  have hmerged := h.merge (Partner e.join) e.join.pearson hmerge (congrArg SCAMPProto.Profile.data hblock)
    (fun hlen k hk => by
      rw [hentries k (by omega)]
      have hentry := selfJoin_entry hself hkeep (Or.inl htype) e.run e.returned hk
      rwa [htype] at hentry)
    (fun k hk i ⟨_, hi, _⟩ => hpart.pearson_eq (hsquare ▸ hk) hi)
    (fun k j => neg_one_le_pearson J k j)
  refine hmerged.congr fun k hk j => or_congr_right ?_
  unfold Partner
  rw [hpart.window]
  constructor
  · rintro ⟨hplace, hband, hv⟩
    obtain ⟨k', rfl⟩ := Nat.exists_eq_add_of_le hplace.1.1
    obtain ⟨i, rfl⟩ := Nat.exists_eq_add_of_le hplace.2.1
    unfold OutsideBand at hband
    have hi : i < e.join.info.numCols := by omega
    have hk' : k' < e.join.info.numCols := by omega
    refine ⟨k', hk', i, rfl, rfl, hk', hi, ?_, (hpart.validCell_iff (hsquare ▸ hk') hi).mpr hv⟩
    unfold OutsideBand
    omega
  · rintro ⟨k', hk', i, rfl, rfl, -, hi, hband, hv⟩
    refine ⟨by omega, ?_, (hpart.validCell_iff (hsquare ▸ hk') hi).mp hv⟩
    unfold OutsideBand at hband ⊢
    omega

section
variable {J : Join ℝ} {args : SCAMPProto.SCAMPArgs ℝ} {jobId : ℤ} {profileA profileB : SCAMPProto.Profile ℝ}
  {start job : Job ℝ} {joins : ℕ → Join ℝ} {k row col height width : ℕ} {U : ℕ}
  (hsub : Submitted J args) (hself : J.args.hasB = false) (hkeep : J.args.keepRowsSeparate = false)
  (htype : J.args.profileType = .oneNNIndex)
include hsub hself hkeep htype

/-- **The merge of a result** adds the pairs that its tile compares. -/
theorem SelfCollected.merge (hstart : start = (Job.sized args jobId profileA profileB).makeTiles)
    (hk : k < start.tileCounter) {request : SCAMPProto.SCAMPArgs ℝ} (e : Execution (start.message k) request)
    (hjoin : e.join = joins k) (hU : 0 < U) {merged : ℕ → Prop} {jobArgs jobArgs' : SCAMPProto.SCAMPArgs ℝ}
    (hsettings : jobArgs.settings = start.jobArgs.settings) (h : SelfCollected J start joins U merged jobArgs)
    (hmerge : MergesTile start k request jobArgs jobArgs') :
    SelfCollected J start joins U (fun k' => merged k' ∨ k' = k) jobArgs' := by
  have hreq := hsub.requested
  have hsame := seriesB_of_self hself
  obtain ⟨row, col, height, width, ht⟩ := tileAt_of_lt hsub hstart hk
  have hcalled := (ht.mergesTile_iff hsub).mp hmerge
  have hT : RunsMessage (start.message k) (joins k) := hjoin ▸ e.runsMessage
  obtain ⟨hpart, hcols, hrows⟩ := part_of_tile hsub hstart ht hT
  have htileKeep : ((start.tiles k).generateArgs start.jobArgs).1.args.keepRowsSeparate =
      (joins k).args.keepRowsSeparate := by
    rw [hT.keepRowsSeparate]
    rfl
  have hjobKeep : jobArgs.keepRowsSeparate = false := by
    have heq : jobArgs.settings.keepRowsSeparate = start.jobArgs.settings.keepRowsSeparate := by rw [hsettings]
    rw [show jobArgs.keepRowsSeparate = _ from heq, hstart]
    exact hreq.keepRowsSeparate.trans hkeep
  have hjobB : jobArgs.hasB = false := by
    have heq : jobArgs.settings.hasB = start.jobArgs.settings.hasB := by rw [hsettings]
    rw [show jobArgs.hasB = _ from heq, hstart]
    exact hreq.hasB.trans hself
  unfold mergeProfile at hcalled
  simp only [Option.bind_eq_bind, Option.pure_def, htileKeep, hjobKeep, hjobB, Bool.and_false, Bool.not_false,
    Bool.false_eq_true, if_false, if_true] at hcalled
  obtain ⟨profileA', hA, hcalled⟩ := Option.bind_eq_some_iff.mp hcalled
  by_cases hdiag : (start.tiles k).tileRow = (start.tiles k).tileCol
  · -- on the diagonal: one profile, at one place
    obtain ⟨hbT, hkeepT, htypeT⟩ := runsMessage_diagonal hsub hself hkeep htype hstart hdiag hT
    simp only [hkeepT, Bool.false_eq_true, if_false] at hcalled
    obtain rfl := Option.some.inj hcalled
    obtain rfl := ht.diagonal.mp hdiag
    have hsquare := ht.square hself rfl
    rw [← hcols] at hA
    refine (h.merge_self hpart hbT hkeepT htypeT e hjoin hA).congr fun i _ j => ?_
    rw [mergedPair_add hk, tileCompares_diagonal hsub hself hstart hkeep htype ht hdiag hT hU,
      tileCompares_diagonal hsub hself hstart hkeep htype ht hdiag hT hU, hcols]
    refine or_congr_right (Iff.trans (and_congr_left' ?_) and_assoc)
    unfold OutsideBand
    dsimp only
    omega
  · -- above it: the columns at the place of the columns, then the rows at that of the rows
    obtain ⟨hoffset, hkeepT, htypeT⟩ := runsMessage_above hsub hself htype hstart ht hdiag hT
    simp only [hkeepT, if_true] at hcalled
    obtain ⟨profileA'', hB, hcalled⟩ := Option.bind_eq_some_iff.mp hcalled
    obtain rfl := Option.some.inj hcalled
    have hentry : entryType (joins k).info.profileType = true := entryType_of_nearest (Or.inl htypeT)
    have hcolumns : (fun i j => J.pearson (sideCell .a i j).1 (sideCell .a i j).2) = J.pearson := by
      funext i j
      exact pearson_comm hsame j i
    rw [← hcols] at hA
    rw [← hrows] at hB
    have hbefore : Collected J.info.numCols (MergedPair J start joins U merged)
        (fun i j => J.pearson (sideCell .a i j).1 (sideCell .a i j).2) jobArgs.profileA := by
      rw [hcolumns]
      exact h
    have hafterA := hbefore.merge_ab hpart hoffset.ab htypeT e hjoin (Or.inl rfl) hA
    rw [hcolumns] at hafterA
    have hafterB := Collected.merge_ab hpart hoffset.ab htypeT e hjoin (computed_of_keepRows hentry hkeepT)
      hafterA hB
    refine Collected.congr hafterB fun i _ j => ?_
    rw [mergedPair_add hk, or_assoc]
    refine or_congr_right ?_
    rw [tileCompares_congr hU (unrollWid_pos e.build), tileCompares_congr hU (unrollWid_pos e.build)]
    unfold TileCompares
    rw [ht.place.1, ht.place.2]
    dsimp only [sideCell]
    rw [validCell_comm hsame (i := j) (j := i), ← or_and_right, or_comm]

/-- **What `profile_a` holds in every run** are the pairs that the merged tiles compare. -/
theorem selfCollected_run (hcreate : Job.create args jobId = some start) (hU : 0 < U)
    {trace : List (Call ℝ × Reply ℝ)} (hrun : Job.Run (HonestResults fun k T => T = joins k) start trace job) :
    SelfCollected J start joins U (fun k => .merged k ∈ trace.flatMap events) job.jobArgs := by
  obtain ⟨profileB, hstart, -⟩ := create_submitted hsub htype hcreate
  refine (merge_run (Q := SelfCollected J start joins U) (hstart ▸ fun _ => rfl) (hstart ▸ fun _ => rfl) ?_ ?_ hrun).2
  · have hprofile : start.jobArgs.profileA = initialProfile J.info.numCols := by
      rw [hstart]
      rfl
    unfold SelfCollected
    rw [hprofile]
    refine (collected_initial _ _).congr fun _ _ _ => iff_of_false ?_ not_false
    rintro ⟨⟨_, _, h, _⟩, _⟩
    exact h
  · intro s merged request now k jobArgs hsame hQ hhonest hcombined hk hid hmerge
    have hexecuted := hhonest hcombined k (hsame.count ▸ hk) hid
    rw [hsame.message k] at hexecuted
    obtain ⟨e, hjoin⟩ := hexecuted
    exact SelfCollected.merge hsub hself hkeep htype hstart hk e hjoin hU hsame.settings hQ hmerge

end

/-! ## The whole job -/

/-- **When a distributed self-join is the self-join.** The tiles compare exactly the cells outside the band,
    with their mirror images, and so every run in which all tiles are merged, in whatever order, leaves in
    `profile_a` the values that the self-join has on a single machine, with indices that attain them, if and
    only if in the tiles above the diagonal every tile of the worker leaves out exactly the band. -/
theorem distributedSelfJoin_iff (J : Join ℝ) (hself : J.args.hasB = false) (hkeep : J.args.keepRowsSeparate = false)
    (htype : J.args.profileType = .oneNNIndex) (args : SCAMPProto.SCAMPArgs ℝ) (hsub : Submitted J args)
    (jobId : ℤ) (start : Job ℝ) (hcreate : Job.create args jobId = some start) (joins : ℕ → Join ℝ)
    (hjoins : ∀ k < start.tileCounter, RunsMessage (start.message k) (joins k)) (U : ℕ) (hU : 0 < U) :
    ((∀ r < J.info.numCols, ∀ c < J.info.numCols,
        (JobCompares start joins U (r, c) ↔ OutsideBand (exclusionZone J.info.mpWindow) r c)) ∧
      ∀ trace job, Job.Run (HonestResults fun k T => T = joins k) start trace job →
        (∀ k < start.tileCounter, .merged k ∈ trace.flatMap events) →
        ∀ bld memory s, J.Run bld memory s → J.Returned s →
          ∃ entries, job.jobArgs.profileA = ⟨[.uint64 entries], .oneNNIndex⟩ ∧ entries.length = J.info.numCols ∧
            ∀ i < J.info.numCols, ∃ e, entries[i]? = some e ∧ e.value = (s.shared.profileA.data.get i).value ∧
              NearestEntry .oneNNIndex (Partner J i) (J.pearson i) e) ↔
      TilesKeepBand (exclusionZone J.info.mpWindow) start joins := by
  obtain ⟨profileB, hstart, -⟩ := create_submitted hsub htype hcreate
  have hcells := jobCompares_iff hsub hself hstart hkeep htype hjoins hU
  constructor
  · exact fun h => hcells.mp h.1
  · intro htiles
    have hall := hcells.mpr htiles
    refine ⟨hall, fun trace job hrun hmerged bld memory s hsingle hreturned => ?_⟩
    obtain ⟨entries, hprofile, hlength, hentries⟩ := selfCollected_run hsub hself hkeep htype hcreate hU hrun
    refine ⟨entries, hprofile, hlength, fun i hi => ⟨entries.getD i (allocEntry .oneNNIndex), ?_, ?_⟩⟩
    · rw [List.getD_eq_getElem?_getD, List.getElem?_eq_getElem (hlength ▸ hi)]
      rfl
    · -- what was merged are the partners of the subsequence
      have hpartner : ∀ j, Partner J i j ↔ MergedPair J start joins U (fun k => .merged k ∈ trace.flatMap events) i j := by
        intro j
        have hcompared : (∃ k < start.tileCounter, .merged k ∈ trace.flatMap events ∧
            (TileCompares start joins U k (i, j) ∨ TileCompares start joins U k (j, i))) ↔
              JobCompares start joins U (i, j) :=
          exists_congr fun k => and_congr_right fun hk => and_iff_right (hmerged k hk)
        unfold Partner MergedPair
        rw [hcompared, ← and_assoc, ← and_assoc, and_iff_right hi]
        refine and_congr_left' ⟨fun ⟨hj, hout⟩ => (hall i hi j hj).mpr hout, fun hcompares => ?_⟩
        have hj := lt_of_jobCompares hsub hself hstart hjoins hU hcompares
        exact ⟨hj.2, (hall i hi j hj.2).mp hcompares⟩
      have hdistributed := (hentries i hi).congr hpartner fun _ _ => rfl
      have hjoin := selfJoin_entry hself hkeep (Or.inl htype) hsingle hreturned hi
      rw [htype] at hjoin
      exact ⟨hdistributed.value_eq hjoin, hdistributed⟩

/-! ## Tiles in the band -/

/-- The arguments of a self-join of `12` samples with window `9`, which has four subsequences and a band of
    width `3`. -/
noncomputable def fourRowArgs : HostArgs ℝ where
  timeseriesA := (List.range 12).map fun i => .finite i
  timeseriesB := []
  profileA := ⟨.oneNNIndex, []⟩
  profileB := ⟨.oneNNIndex, []⟩
  hasB := false
  window := 9
  maxTileSize := 1024
  distributedStartRow := -1
  distributedStartCol := -1
  distanceThreshold := 0
  precisionType := .double
  profileType := .oneNNIndex
  computingRows := true
  computingColumns := true
  keepRowsSeparate := false
  isAligned := false
  maxMatchesPerColumn := 0
  matrixHeight := 0
  matrixWidth := 0

/-- The join on a single machine. -/
noncomputable def fourRowJoin : Join ℝ where
  args := fourRowArgs.toArgs
  numThreads := 1
  threads_pos := Nat.one_pos
  valid := rfl
  columns := rfl
  rows_self := fun _ => rfl
  rows_ab := nofun
  type_a := rfl
  type_b := nofun

/-- The request, for tiles of two rows and columns. -/
noncomputable def fourRowRequest : SCAMPProto.SCAMPArgs ℝ :=
  { (convertSCAMPArgsToProtoArgs fourRowArgs).getD .unset with distributedTileSize := 2 }

/-- Its job, of three tiles. -/
noncomputable def fourRowJob : Job ℝ := (Job.create fourRowRequest 0).getD (.new fourRowRequest 0)

/-- The arguments that a worker gets for a tile. -/
noncomputable def fourRowTileArgs (k : ℕ) : HostArgs ℝ :=
  (convertProtoArgsToSCAMPArgs (fourRowJob.message k) { fourRowArgs with profileB := ⟨.invalid, []⟩ }).getD fourRowArgs

/-- The joins of workers for the tiles: two self-joins and the AB-join between them. -/
noncomputable def fourRowTileJoin : ℕ → Join ℝ
  | 0 => ⟨(fourRowTileArgs 0).toArgs, 1, by decide, rfl, rfl, fun _ => rfl, nofun, rfl, nofun⟩
  | 1 => ⟨(fourRowTileArgs 1).toArgs, 1, by decide, rfl, rfl, nofun, fun _ => rfl, rfl, fun _ => rfl⟩
  | _ => ⟨(fourRowTileArgs 2).toArgs, 1, by decide, rfl, rfl, fun _ => rfl, nofun, rfl, nofun⟩

theorem create_fourRow : Job.create fourRowRequest 0 = some fourRowJob := rfl

theorem submitted_fourRow : Submitted fourRowJoin fourRowRequest where
  sent := ⟨fourRowArgs, _, 2, rfl, rfl, rfl, rfl, rfl⟩
  tileSize_pos := by decide
  tileSize_lt := by decide
  lengthA_lt := by decide
  lengthB_lt := by decide

theorem runsMessage_fourRow : ∀ k < fourRowJob.tileCounter, RunsMessage (fourRowJob.message k) (fourRowTileJoin k) := by
  intro k hk
  have hlt : k < 3 := hk
  match k, hlt with
  | 0, _ => constructor <;> rfl
  | 1, _ => constructor <;> rfl
  | 2, _ => constructor <;> rfl

/-- **A cell that no tile compares.** Cell `(0, 3)` is outside the band, and lies in the tile above the
    diagonal. That tile starts at `(0, 2)`, in the band: it leaves out a whole exclusion zone from there on. -/
theorem fourRow_misses : fourRowJoin.args.hasB = false ∧ fourRowJoin.args.keepRowsSeparate = false ∧
    fourRowJoin.args.profileType = .oneNNIndex ∧ Submitted fourRowJoin fourRowRequest ∧
    Job.create fourRowRequest 0 = some fourRowJob ∧
    (∀ k < fourRowJob.tileCounter, RunsMessage (fourRowJob.message k) (fourRowTileJoin k)) ∧
    (0 < fourRowJoin.info.numCols ∧ 3 < fourRowJoin.info.numCols) ∧
    OutsideBand (exclusionZone fourRowJoin.info.mpWindow) 0 3 ∧
    ∀ U, 0 < U → ¬JobCompares fourRowJob fourRowTileJoin U (0, 3) := by
  refine ⟨rfl, rfl, rfl, submitted_fourRow, create_fourRow, runsMessage_fourRow, by decide, Or.inl (by decide), ?_⟩
  rintro U hU ⟨k, hk, hcompares⟩
  have hnone : ∀ k < 3, comparedCells 256 (fourRowTileJoin k).info = [] := by decide +kernel
  have hnot : ∀ z, ¬TileCompares fourRowJob fourRowTileJoin U k z := by
    intro z h
    obtain ⟨-, -, hmem⟩ := (tileCompares_congr hU (show 0 < 256 by decide) z).mp h
    rw [hnone k hk] at hmem
    exact List.not_mem_nil hmem
  exact hcompares.elim (hnot _) (hnot _)

/-! ## Tiles outside the band -/

/-- The arguments of a self-join of six samples with window `3`, which leaves out the main diagonal only. -/
noncomputable def sixSampleArgs : HostArgs ℝ :=
  { fourRowArgs with timeseriesA := (List.range 6).map fun i => .finite i, window := 3 }

/-- The join on a single machine. -/
noncomputable def sixSampleJoin : Join ℝ where
  args := sixSampleArgs.toArgs
  numThreads := 1
  threads_pos := Nat.one_pos
  valid := rfl
  columns := rfl
  rows_self := fun _ => rfl
  rows_ab := nofun
  type_a := rfl
  type_b := nofun

/-- The request, for tiles of two rows and columns. -/
noncomputable def sixSampleRequest : SCAMPProto.SCAMPArgs ℝ :=
  { (convertSCAMPArgsToProtoArgs sixSampleArgs).getD .unset with distributedTileSize := 2 }

/-- Its job, of three tiles. -/
noncomputable def sixSampleJob : Job ℝ := (Job.create sixSampleRequest 0).getD (.new sixSampleRequest 0)

/-- The arguments that a worker gets for a tile. -/
noncomputable def sixSampleTileArgs (k : ℕ) : HostArgs ℝ :=
  (convertProtoArgsToSCAMPArgs (sixSampleJob.message k) { sixSampleArgs with profileB := ⟨.invalid, []⟩ }).getD
    sixSampleArgs

/-- The joins of workers for the tiles. -/
noncomputable def sixSampleTileJoin : ℕ → Join ℝ
  | 0 => ⟨(sixSampleTileArgs 0).toArgs, 1, by decide, rfl, rfl, fun _ => rfl, nofun, rfl, nofun⟩
  | 1 => ⟨(sixSampleTileArgs 1).toArgs, 1, by decide, rfl, rfl, nofun, fun _ => rfl, rfl, fun _ => rfl⟩
  | _ => ⟨(sixSampleTileArgs 2).toArgs, 1, by decide, rfl, rfl, fun _ => rfl, nofun, rfl, nofun⟩

theorem create_sixSample : Job.create sixSampleRequest 0 = some sixSampleJob := rfl

theorem submitted_sixSample : Submitted sixSampleJoin sixSampleRequest where
  sent := ⟨sixSampleArgs, _, 2, rfl, rfl, rfl, rfl, rfl⟩
  tileSize_pos := by decide
  tileSize_lt := by decide
  lengthA_lt := by decide
  lengthB_lt := by decide

theorem runsMessage_sixSample :
    ∀ k < sixSampleJob.tileCounter, RunsMessage (sixSampleJob.message k) (sixSampleTileJoin k) := by
  intro k hk
  have hlt : k < 3 := hk
  match k, hlt with
  | 0, _ => constructor <;> rfl
  | 1, _ => constructor <;> rfl
  | 2, _ => constructor <;> rfl

/-- The tile above the diagonal starts right of the band. -/
theorem tilesKeepBand_sixSample :
    TilesKeepBand (exclusionZone sixSampleJoin.info.mpWindow) sixSampleJob sixSampleTileJoin := by
  intro k hk
  have hlt : k < 3 := hk
  match k, hlt with
  | 0, _ => exact fun hne => absurd rfl hne
  | 1, _ => exact fun _ => by decide +kernel
  | 2, _ => exact fun hne => absurd rfl hne

theorem distributedSelfJoin_iff_sixSample :
    TilesKeepBand (exclusionZone sixSampleJoin.info.mpWindow) sixSampleJob sixSampleTileJoin ∧
    (∀ r < sixSampleJoin.info.numCols, ∀ c < sixSampleJoin.info.numCols,
      (JobCompares sixSampleJob sixSampleTileJoin 256 (r, c) ↔
        OutsideBand (exclusionZone sixSampleJoin.info.mpWindow) r c)) ∧
    ∀ trace job, Job.Run (HonestResults fun k T => T = sixSampleTileJoin k) sixSampleJob trace job →
      (∀ k < sixSampleJob.tileCounter, .merged k ∈ trace.flatMap events) →
      ∀ bld memory s, sixSampleJoin.Run bld memory s → sixSampleJoin.Returned s →
        ∃ entries, job.jobArgs.profileA = ⟨[.uint64 entries], .oneNNIndex⟩ ∧
          entries.length = sixSampleJoin.info.numCols ∧ ∀ i < sixSampleJoin.info.numCols, ∃ e, entries[i]? = some e ∧
            e.value = (s.shared.profileA.data.get i).value ∧
            NearestEntry .oneNNIndex (Partner sixSampleJoin i) (sixSampleJoin.pearson i) e :=
  ⟨tilesKeepBand_sixSample, (distributedSelfJoin_iff sixSampleJoin rfl rfl rfl sixSampleRequest submitted_sixSample 0
    sixSampleJob create_sixSample sixSampleTileJoin runsMessage_sixSample 256 (by decide)).mpr tilesKeepBand_sixSample⟩

end Scamp
