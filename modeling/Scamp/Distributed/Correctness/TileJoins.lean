import Scamp.Distributed.Correctness.Convert
import Scamp.Distributed.Correctness.Results

/-!
# `Distributed.Correctness.TileJoins` — the joins of the tiles of a job

A client asks for a join by its arguments (`Submitted`). The tiles of the job lie in the matrix of the join
(`TileAt`), and what a worker executes for a tile is a join of its own (`Execution`), a part of the whole at
the place of the tile (`TileAt.partOf`).
-/

namespace Scamp

open Lib

/-! ## The request -/

/-- The request of a client for the join, with the message of its arguments. The profiles come without data,
    and a repeated field has less than `2 ^ 31` elements. -/
structure Submitted (J : Join ℝ) (args : SCAMPProto.SCAMPArgs ℝ) : Prop where
  sent : ∃ host proto tileSize, J.args = HostArgs.toArgs host ∧ convertSCAMPArgsToProtoArgs host = some proto ∧
    args = { proto with distributedTileSize := tileSize } ∧ host.profileA.data = [] ∧ host.profileB.data = []
  tileSize_pos : 1 ≤ args.distributedTileSize
  tileSize_lt : args.distributedTileSize < 2 ^ 63
  lengthA_lt : args.timeseriesA.length < 2 ^ 31
  lengthB_lt : args.timeseriesB.length < 2 ^ 31

/-- What the request says. -/
structure Requested (J : Join ℝ) (args : SCAMPProto.SCAMPArgs ℝ) : Prop where
  seriesA : J.args.timeseriesA = .ofList .nan args.timeseriesA
  seriesB : J.args.timeseriesB = .ofList .nan args.timeseriesB
  hasB : args.hasB = J.args.hasB
  window : args.window = J.args.window
  computingRows : args.computingRows = J.args.computingRows
  keepRowsSeparate : args.keepRowsSeparate = J.args.keepRowsSeparate
  isAligned : args.isAligned = J.args.isAligned
  profileType : args.profileType = J.args.profileType.convert
  profileA : args.profileA.data = []
  profileB : args.profileB.data = []

theorem convert_of_noData {K : Type} {p : HostProfile K} (h : p.data = []) :
    p.convert = some ⟨[], p.type.convert⟩ := by
  unfold HostProfile.convert
  rw [h]

theorem Submitted.requested {J : Join ℝ} {args : SCAMPProto.SCAMPArgs ℝ} (h : Submitted J args) : Requested J args := by
  obtain ⟨host, proto, tileSize, hjoin, hproto, rfl, hA, hB⟩ := h.sent
  unfold convertSCAMPArgsToProtoArgs at hproto
  rw [convert_of_noData hA, convert_of_noData hB] at hproto
  obtain rfl := Option.some.inj hproto
  constructor <;> first | rfl | rw [hjoin]; rfl

section
variable {J : Join ℝ} {args : SCAMPProto.SCAMPArgs ℝ} (h : Submitted J args)
include h

theorem Submitted.lengths : args.window ≤ args.timeseriesA.length ∧
    (args.hasB = true → args.window ≤ args.timeseriesB.length) := by
  have hreq := h.requested
  obtain ⟨-, -, hA, hB⟩ := SCAMPArgs.sizes_of_validate J.valid
  rw [hreq.seriesA, ← hreq.window] at hA
  rw [hreq.seriesB, ← hreq.window, ← hreq.hasB] at hB
  exact ⟨hA, hB⟩

/-- The matrix of the job is that of the join. -/
theorem Submitted.width_eq : args.width = J.info.numCols := by
  have hreq := h.requested
  have hlen := h.lengths.1
  have hlt := h.lengthA_lt
  have hcols : J.info.numCols = args.timeseriesA.length - args.window + 1 := by
    show J.args.timeseriesA.size - J.args.window + 1 = _
    rw [hreq.seriesA, hreq.window]
    rfl
  unfold SCAMPProto.SCAMPArgs.width
  rw [int64_of_range (by omega) (by omega), hcols]
  omega

theorem Submitted.height_eq : args.height = J.info.numRows := by
  have hreq := h.requested
  unfold SCAMPProto.SCAMPArgs.height
  split
  · next hb =>
      have hlen := h.lengths.2 hb
      have hlt := h.lengthB_lt
      have hrows : J.info.numRows = args.timeseriesB.length - args.window + 1 := by
        show (if J.args.hasB then J.args.timeseriesB.size else _) - J.args.window + 1 = _
        rw [← hreq.hasB, if_pos hb, hreq.seriesB, hreq.window]
        rfl
      rw [int64_of_range (by omega) (by omega), hrows]
      omega
  · next hb =>
      rw [h.width_eq, numRows_eq_numCols J (by rw [← hreq.hasB]; simpa using hb)]

end

theorem Submitted.size_ne_zero {J : Join ℝ} {args : SCAMPProto.SCAMPArgs ℝ} (h : Submitted J args) :
    uint64 args.distributedTileSize ≠ 0 := by
  have hpos := h.tileSize_pos
  have heq := uint64_of_range (x := args.distributedTileSize) (by omega) (by linarith [h.tileSize_lt])
  omega

/-! ## The tiles -/

/-- Tile `k` of a job lies in the matrix of the join, `h` rows from `row` on and `w` columns from `col` on. -/
structure TileAt (J : Join ℝ) (start : Job ℝ) (k row col h w : ℕ) : Prop where
  startRow : ((start.tiles k).generateArgs start.jobArgs).1.startRow = row
  startCol : ((start.tiles k).generateArgs start.jobArgs).1.startCol = col
  height : (start.tiles k).height = h
  width : (start.tiles k).width = w
  place : (start.tiles k).tileRow * start.distributedTileSize = row ∧
    (start.tiles k).tileCol * start.distributedTileSize = col
  rows : 0 < h ∧ row + h ≤ J.info.numRows
  cols : 0 < w ∧ col + w ≤ J.info.numCols
  covers : ∀ i j, (start.tiles k).Covers start.distributedTileSize i j ↔
    (row ≤ i ∧ i < row + h) ∧ col ≤ j ∧ j < col + w
  -- in a self-join, on the diagonal or above it
  diagonal : (start.tiles k).tileRow = (start.tiles k).tileCol ↔ row = col
  square : J.args.hasB = false → row = col → h = w
  above : J.args.hasB = false → row = col ∨ row + h ≤ col

/-- **Every tile of the job lies in the matrix.** -/
theorem exists_tileAt {J : Join ℝ} {args : SCAMPProto.SCAMPArgs ℝ} (h : Submitted J args) (jobId : ℤ)
    (profileA profileB : SCAMPProto.Profile ℝ) {k : ℕ}
    (hk : k < (Job.sized args jobId profileA profileB).makeTiles.tileCounter) :
    ∃ row col height width, TileAt J (Job.sized args jobId profileA profileB).makeTiles k row col height width := by
  have hreq := h.requested
  have hD : (uint64 args.distributedTileSize : ℤ) = args.distributedTileSize :=
    uint64_of_range (by linarith [h.tileSize_pos]) (by linarith [h.tileSize_lt])
  have hD0 : 0 < uint64 args.distributedTileSize := Nat.pos_of_ne_zero h.size_ne_zero
  obtain ⟨r, c, horder, hr, hc, hplace⟩ := sized_place jobId profileA profileB hD0.ne' hk
  rw [h.height_eq] at hr hplace
  rw [h.width_eq] at hc hplace
  obtain ⟨-, hrow, hcol, hh, hw⟩ : _ ∧ _ ∧ _ ∧ _ ∧ _ := by
    simpa only [DistributedTile.place, Prod.mk.injEq] using hplace
  -- block `(r, c)` of the matrix, cut at its end
  obtain ⟨D, hDdef⟩ : ∃ D, D = uint64 args.distributedTileSize := ⟨_, rfl⟩
  rw [← hDdef] at hD hD0 hr hc hh hw
  have hr' : r * D < J.info.numRows := by exact_mod_cast hr
  have hc' : c * D < J.info.numCols := by exact_mod_cast hc
  have hself : J.args.hasB = false → r ≤ c := fun hs => horder (hreq.hasB.trans hs)
  refine ⟨r * D, c * D, min D (J.info.numRows - r * D), min D (J.info.numCols - c * D), ?_⟩
  constructor
  · show ((Job.sized args jobId profileA profileB).makeTiles.tiles k).tileRow * args.distributedTileSize = _
    rw [hrow, ← hD]
    push_cast
    rfl
  · show ((Job.sized args jobId profileA profileB).makeTiles.tiles k).tileCol * args.distributedTileSize = _
    rw [hcol, ← hD]
    push_cast
    rfl
  · rw [hh]
    push_cast [hr'.le]
    rfl
  · rw [hw]
    push_cast [hc'.le]
    rfl
  · rw [hrow, hcol, hDdef]
    exact ⟨rfl, rfl⟩
  · omega
  · omega
  · intro i j
    unfold DistributedTile.Covers
    rw [hrow, hcol, hh, hw]
    show (r * uint64 args.distributedTileSize ≤ i ∧ (i : ℤ) < r * uint64 args.distributedTileSize + _) ∧
      c * uint64 args.distributedTileSize ≤ j ∧ (j : ℤ) < c * uint64 args.distributedTileSize + _ ↔ _
    rw [← hDdef]
    have hrD : ((r * D : ℕ) : ℤ) = r * D := Nat.cast_mul r D
    have hcD : ((c * D : ℕ) : ℤ) = c * D := Nat.cast_mul c D
    rw [← hrD, ← hcD]
    omega
  · rw [hrow, hcol, Nat.mul_left_inj hD0.ne']
  · intro hs heq
    rw [heq, numRows_eq_numCols J hs]
  · intro hs
    rcases Nat.eq_or_lt_of_le (hself hs) with heq | hlt
    · exact Or.inl (congrArg (· * D) heq)
    · right
      have hle := Nat.mul_le_mul_right D (Nat.succ_le_of_lt hlt)
      rw [Nat.succ_mul] at hle
      omega

/-- **No cell is in two tiles.** -/
theorem TileAt.unique {J : Join ℝ} {args : SCAMPProto.SCAMPArgs ℝ} (h : Submitted J args) {jobId : ℤ}
    {profileA profileB : SCAMPProto.Profile ℝ} {start : Job ℝ}
    (hstart : start = (Job.sized args jobId profileA profileB).makeTiles)
    {k row col height width k' row' col' height' width' : ℕ} (hk : k < start.tileCounter) (hk' : k' < start.tileCounter)
    (ht : TileAt J start k row col height width) (ht' : TileAt J start k' row' col' height' width') {i j : ℕ}
    (hcell : (row ≤ i ∧ i < row + height) ∧ col ≤ j ∧ j < col + width)
    (hcell' : (row' ≤ i ∧ i < row' + height') ∧ col' ≤ j ∧ j < col' + width') : k = k' := by
  have hcovers := (ht.covers i j).mpr hcell
  have hcovers' := (ht'.covers i j).mpr hcell'
  subst hstart
  exact sized_covers_unique h.size_ne_zero hk hk' hcovers hcovers'

/-! ## A new job -/

/-- The profile a job starts with. -/
def initialProfile {K : Type} [Field K] [LinearOrder K] (n : ℕ) : SCAMPProto.Profile K :=
  ⟨[.uint64 (.replicate n (allocEntry .oneNNIndex))], .oneNNIndex⟩

/-- Nothing is collected yet. -/
theorem collected_initial (n : ℕ) (corr : ℕ → ℕ → ℝ) : Collected n (fun _ _ => False) corr (initialProfile n) := by
  refine ⟨_, rfl, List.length_replicate, fun k hk => ⟨fun ⟨_, hj⟩ => hj.elim, fun _ => ?_⟩⟩
  rw [List.getD_eq_getElem?_getD, List.getElem?_replicate, if_pos hk]
  rfl

/-- A profile without data is allocated. -/
theorem allocate_initial {p : SCAMPProto.Profile ℝ} {n : ℕ} (hdata : p.data = []) (hn : 0 < n) :
    Job.allocateProfile p .oneNNIndex n = some (initialProfile n, true) := by
  have hallocated : profileAllocated p = false := by
    unfold profileAllocated
    rw [hdata]
  have hinit : initProfile p .oneNNIndex n = initialProfile n := by
    unfold initProfile
    rw [if_neg (by omega), hdata, Int.toNat_natCast]
    rfl
  unfold Job.allocateProfile
  simp only [hallocated, Bool.false_eq_true, if_false, hinit]
  simp [getProfileSize, initialProfile, SCAMPProto.ProfileData.uint64Value]

/-- **A submitted join is accepted**, and the job starts with empty profiles. -/
theorem create_submitted {J : Join ℝ} {args : SCAMPProto.SCAMPArgs ℝ} {jobId : ℤ} {start : Job ℝ}
    (h : Submitted J args) (htype : J.args.profileType = .oneNNIndex) (hcreate : Job.create args jobId = some start) :
    ∃ profileB, start = (Job.sized args jobId (initialProfile J.info.numCols) profileB).makeTiles ∧
      (J.args.keepRowsSeparate = true → profileB = initialProfile J.info.numRows) := by
  have hreq := h.requested
  have hprofile : args.profileType = .oneNNIndex := by
    rw [hreq.profileType, htype]
    rfl
  have hA : Job.allocateProfile args.profileA args.profileType args.width =
      some (initialProfile J.info.numCols, true) := by
    rw [hprofile, h.width_eq]
    exact allocate_initial hreq.profileA (Nat.succ_pos _)
  have hB : Job.allocateProfile args.profileB args.profileType args.height =
      some (initialProfile J.info.numRows, true) := by
    rw [hprofile, h.height_eq]
    exact allocate_initial hreq.profileB (Nat.succ_pos _)
  rcases create_cases hcreate with ⟨-, hnot⟩ | ⟨profileA, profileB, hprofiles, rfl⟩
  · cases hkeep : args.keepRowsSeparate with
    | true => exact absurd ⟨hA, fun _ => hB, fun hs => nomatch hkeep.symm.trans hs⟩ (hnot _ _)
    | false => exact absurd ⟨hA, fun hs => (nomatch hkeep.symm.trans hs), fun _ => rfl⟩ (hnot _ _)
  · obtain ⟨rfl, -⟩ := Prod.mk.inj (Option.some.inj (hprofiles.a.symm.trans hA))
    refine ⟨profileB, rfl, fun hkeep => ?_⟩
    have hkept := hprofiles.b (hreq.keepRowsSeparate.trans hkeep)
    exact (Prod.mk.inj (Option.some.inj (hkept.symm.trans hB))).1

/-! ## What a worker executes -/

/-- The arguments of the join that a worker runs. -/
structure RunsMessage (message : SCAMPProto.SCAMPArgs ℝ) (T : Join ℝ) : Prop where
  seriesA : T.args.timeseriesA = .ofList .nan message.timeseriesA
  seriesB : T.args.timeseriesB = .ofList .nan message.timeseriesB
  hasB : T.args.hasB = message.hasB
  window : T.args.window = message.window
  startRow : T.args.distributedStartRow = message.distributedStartRow
  startCol : T.args.distributedStartCol = message.distributedStartCol
  computingRows : T.args.computingRows = message.computingRows
  keepRowsSeparate : T.args.keepRowsSeparate = message.keepRowsSeparate
  isAligned : T.args.isAligned = message.isAligned
  profileType : T.args.profileType = message.profileType.convert

theorem Execution.runsMessage {message request : SCAMPProto.SCAMPArgs ℝ} (e : Execution message request) :
    RunsMessage message e.join := by
  obtain ⟨profileA, profileB, hargs⟩ := converted_eq e.args_eq
  have hjoin := e.join_eq
  rw [hargs] at hjoin
  constructor <;> rw [hjoin] <;> rfl

section
variable {J : Join ℝ} {args : SCAMPProto.SCAMPArgs ℝ} {jobId : ℤ} {profileA profileB : SCAMPProto.Profile ℝ}
  {k row col height width : ℕ} {T : Join ℝ}

/-- A worker computes the kind of profile that was requested. -/
theorem RunsMessage.oneNNIndex (h : Submitted J args) (htype : J.args.profileType = .oneNNIndex)
    (hT : RunsMessage ((Job.sized args jobId profileA profileB).makeTiles.message k) T) :
    T.args.profileType = .oneNNIndex := by
  rw [hT.profileType]
  show args.profileType.convert = _
  rw [h.requested.profileType, htype]
  rfl

/-- A range of a series, by position. -/
theorem get_slice (series : List (Sample ℝ)) {start : ℕ} {count : ℤ} {i : ℕ} (hi : i < count.toNat) :
    (Vec.ofList Sample.nan (sliceSeries series start count)).get i = (Vec.ofList Sample.nan series).get (start + i) :=
  getD_sliceSeries series hi

/-- **The join of a tile is a part of the whole**, at the place of the tile. -/
theorem TileAt.partOf (h : Submitted J args)
    (ht : TileAt J (Job.sized args jobId profileA profileB).makeTiles k row col height width)
    (hT : RunsMessage ((Job.sized args jobId profileA profileB).makeTiles.message k) T) :
    PartOf T J row col ∧ T.info.numCols = width ∧ T.info.numRows = height := by
  have hreq := h.requested
  obtain ⟨start, hstart⟩ : ∃ start, start = (Job.sized args jobId profileA profileB).makeTiles := ⟨_, rfl⟩
  have hargs : start.jobArgs = { args with profileA := profileA, profileB := profileB } := by
    rw [hstart]
    rfl
  rw [← hstart] at ht hT
  have hwindow : T.args.window = args.window := by
    rw [hT.window]
    show start.jobArgs.window = _
    rw [hargs]
  have hthree : 3 ≤ T.args.window := T.three_le_window
  have hseriesA : T.args.timeseriesA = .ofList .nan (sliceSeries args.timeseriesA col (width + args.window - 1)) := by
    rw [hT.seriesA]
    show Vec.ofList _ (sliceSeries start.jobArgs.timeseriesA ((start.tiles k).generateArgs start.jobArgs).1.startCol
      ((start.tiles k).width + start.jobArgs.window - 1)) = _
    rw [ht.startCol, ht.width, hargs]
  have hseriesB : T.args.timeseriesB = .ofList .nan
      (sliceSeries (if args.hasB then args.timeseriesB else args.timeseriesA) row (height + args.window - 1)) := by
    rw [hT.seriesB]
    show Vec.ofList _ (sliceSeries (if start.jobArgs.hasB then start.jobArgs.timeseriesB else start.jobArgs.timeseriesA)
      ((start.tiles k).generateArgs start.jobArgs).1.startRow
      ((start.tiles k).height + start.jobArgs.window - 1)) = _
    rw [ht.startRow, ht.height, hargs]
  have hhasB : T.args.hasB = (args.hasB || !((start.tiles k).tileRow == (start.tiles k).tileCol)) := by
    rw [hT.hasB]
    show (start.jobArgs.hasB || _) = _
    rw [hargs]
  have hlenA : T.info.fullTsLenA = width + args.window - 1 := by
    show T.args.timeseriesA.size = _
    rw [hseriesA]
    show (sliceSeries _ _ _).length = _
    rw [length_sliceSeries]
    omega
  have hwholeB : J.seriesB = .ofList .nan (if args.hasB then args.timeseriesB else args.timeseriesA) := by
    unfold Join.seriesB
    rw [hreq.hasB, hreq.seriesA, hreq.seriesB]
    split <;> rfl
  -- the rows: a range of the second series, or, on the diagonal of a self-join, that of the columns
  have hrows : T.info.fullTsLenB = height + args.window - 1 ∧
      ∀ i < height + args.window - 1, T.seriesB.get i = J.seriesB.get (row + i) := by
    cases hb : T.args.hasB with
    | true =>
        have hlenB : T.info.fullTsLenB = T.args.timeseriesB.size := if_pos hb
        have hTB : T.seriesB = T.args.timeseriesB := if_pos hb
        rw [hlenB, hTB, hseriesB, hwholeB]
        refine ⟨?_, fun i hi => get_slice _ (by omega)⟩
        show (sliceSeries _ _ _).length = _
        rw [length_sliceSeries]
        omega
    | false =>
        have hnot : ¬T.args.hasB = true := by simp [hb]
        rw [hb] at hhasB
        obtain ⟨hself, hdiag⟩ : args.hasB = false ∧ (start.tiles k).tileRow = (start.tiles k).tileCol := by
          simpa using hhasB.symm
        have hselfJ : J.args.hasB = false := hreq.hasB.symm.trans hself
        have hrowcol := ht.diagonal.mp hdiag
        have hsquare := ht.square hselfJ hrowcol
        have hlenB : T.info.fullTsLenB = T.info.fullTsLenA := if_neg hnot
        have hTB : T.seriesB = T.args.timeseriesA := if_neg hnot
        rw [hlenB, hlenA, hTB, hseriesA, hwholeB, if_neg (by simp [hself]), hsquare, hrowcol]
        exact ⟨rfl, fun i hi => get_slice _ (by omega)⟩
  refine ⟨⟨?_, ?_, ?_⟩, ?_, ?_⟩
  · show T.args.window = J.args.window
    rw [hwindow, hreq.window]
  · intro i hi
    rw [hlenA] at hi
    unfold Join.seriesA
    rw [hseriesA, hreq.seriesA]
    exact get_slice _ (by omega)
  · intro i hi
    exact hrows.2 i (hrows.1 ▸ hi)
  · show T.info.fullTsLenA - T.args.window + 1 = width
    rw [hlenA, hwindow]
    have hpos := ht.cols.1
    omega
  · show T.info.fullTsLenB - T.args.window + 1 = height
    rw [hrows.1, hwindow]
    have hpos := ht.rows.1
    omega

/-- **The merge of a tile** is at its place in the matrix. -/
theorem TileAt.mergesTile_iff (hsub : Submitted J args) {start : Job ℝ} (ht : TileAt J start k row col height width)
    {request jobArgs jobArgs' : SCAMPProto.SCAMPArgs ℝ} : MergesTile start k request jobArgs jobArgs' ↔
      mergeProfile ((start.tiles k).generateArgs start.jobArgs).1.args jobArgs request.profileA col width
        request.profileB row height = some jobArgs' := by
  have hcols : J.info.numCols < 2 ^ 63 := by
    have hlt := int64_lt (args.timeseriesA.length - args.window + 1)
    rw [show int64 (args.timeseriesA.length - args.window + 1) = _ from hsub.width_eq] at hlt
    exact_mod_cast hlt
  have hrows : J.info.numRows < 2 ^ 63 := by
    have hlt := height_lt args
    rw [hsub.height_eq] at hlt
    exact_mod_cast hlt
  obtain ⟨-, hr⟩ := ht.rows
  obtain ⟨-, hc⟩ := ht.cols
  unfold MergesTile
  dsimp only
  rw [ht.startCol, ht.startRow, show ((start.tiles k).generateArgs start.jobArgs).1.width = _ from ht.width,
    show ((start.tiles k).generateArgs start.jobArgs).1.height = _ from ht.height, uint64_natCast (by omega),
    uint64_natCast (by omega), uint64_natCast (by omega), uint64_natCast (by omega)]

end

/-! ## What a worker sends back -/

/-- The profile of a message for a side. -/
def SCAMPProto.SCAMPArgs.profile {K : Type} (args : SCAMPProto.SCAMPArgs K) : Side → SCAMPProto.Profile K
  | .a => args.profileA
  | .b => args.profileB

/-- The entries of a profile go into the message one by one. -/
theorem convert_ofProfile {p : Profile ℝ} {proto : SCAMPProto.Profile ℝ} (htype : p.type = .oneNNIndex)
    (h : (HostProfile.ofProfile p).convert = some proto) :
    ∃ block, proto = ⟨[block], .oneNNIndex⟩ ∧ block.uint64Value.length = p.data.size ∧
      ∀ c < p.data.size, block.uint64Value.getD c (allocEntry .oneNNIndex) = p.data.get c := by
  have hlength : p.data.toList.length = p.data.size := by simp [Vec.toList]
  have hget : ∀ c < p.data.size, p.data.toList.getD c (allocEntry .oneNNIndex) = p.data.get c := by
    intro c hc
    simp [Vec.toList, List.getD_eq_getElem?_getD, List.getElem?_range hc]
  unfold HostProfile.ofProfile HostProfile.convert at h
  rw [htype] at h
  dsimp only at h
  split at h
  · next hempty =>
      obtain rfl := Option.some.inj h
      rw [List.isEmpty_iff.mp hempty] at hlength
      refine ⟨_, rfl, hlength, fun c hc => ?_⟩
      rw [← hlength] at hc
      exact absurd hc (Nat.not_lt_zero c)
  · obtain rfl := Option.some.inj h
    exact ⟨_, rfl, hlength, hget⟩

/-- **What a worker sends back** are the entries of its profiles. -/
theorem Execution.entries {message request : SCAMPProto.SCAMPArgs ℝ} (e : Execution message request)
    (htype : e.join.args.profileType = .oneNNIndex) {side : Side} (hside : Computed e.join side) :
    ∃ block, request.profile side = ⟨[block], .oneNNIndex⟩ ∧
      block.uint64Value.length = (e.state.shared.profile side).data.size ∧
      ∀ c < (e.state.shared.profile side).data.size,
        block.uint64Value.getD c (allocEntry .oneNNIndex) = (e.state.shared.profile side).data.get c := by
  have hentry : entryType e.join.info.profileType = true := entryType_of_nearest (Or.inl htype)
  have hok : StateOK e.join e.build e.state := stateOK_run hentry e.run
  have hinfo : e.join.info.profileType = .oneNNIndex := htype
  have htypes := (hok.types side hside).trans hinfo
  cases side with
  | a =>
      obtain ⟨block, hproto, hget⟩ := convert_ofProfile htypes e.profileA_eq
      exact ⟨block, (congrArg SCAMPProto.SCAMPArgs.profileA e.request_eq).trans hproto, hget⟩
  | b =>
      obtain ⟨block, hproto, hget⟩ := convert_ofProfile htypes e.profileB_eq
      exact ⟨block, (congrArg SCAMPProto.SCAMPArgs.profileB e.request_eq).trans hproto, hget⟩

/-- The results that are merged come from executions of the message of their tile, by joins of a kind. -/
def HonestResults (joins : ℕ → Join ℝ → Prop) (job : Job ℝ) : Call ℝ → Prop
  | .combineProfile request now => (∃ job', job.combineProfile request now = some (job', true)) →
      ∀ k < job.tileCounter, int32 request.tileId = k → ∃ e : Execution (job.message k) request, joins k e.join
  | _ => True

/-! ## What a tile adds -/

theorem lt_of_mem_comparedCells (T : Join ℝ) {U r c : ℕ} (hU : 0 < U) (h : (r, c) ∈ comparedCells U T.info) :
    r < T.info.numRows ∧ c < T.info.numCols := by
  obtain ⟨t, ht, hmem⟩ := List.mem_flatMap.mp h
  exact ((inTile_iff T).mp (inTile_of_mem_tileCells hU ht hmem)).2

/-- The join of a tile, with its first cell at `(row, col)`, compares cell `(i, j)` of the whole. -/
def ComparesAt (U : ℕ) (T : Join ℝ) (row col : ℕ) (z : ℕ × ℕ) : Prop :=
  row ≤ z.1 ∧ col ≤ z.2 ∧ (z.1 - row, z.2 - col) ∈ comparedCells U T.info

/-- Where a tile at `(row, col)` of `height` rows and `width` columns is merged into a profile: the first
    entry, the number of entries and the offset of the matches. -/
def mergePlace (row col height width : ℕ) : Side → ℕ × ℕ × ℕ
  | .a => (col, width, row)
  | .b => (row, height, col)

/-- **What an AB-join on a worker adds** to a profile of the job: the cells it compares, at the place of its
    tile. -/
theorem Collected.merge_ab {J T : Join ℝ} {row col n : ℕ} (hpart : PartOf T J row col) (hab : T.args.hasB = true)
    (htype : T.args.profileType = .oneNNIndex) {message request : SCAMPProto.SCAMPArgs ℝ}
    (e : Execution message request) (hT : e.join = T) {side : Side} (hside : Computed T side)
    {found : ℕ → ℕ → Prop} {p p' : SCAMPProto.Profile ℝ}
    (h : Collected n found (fun k j => J.pearson (sideCell side k j).1 (sideCell side k j).2) p)
    (hmerge : mergeTileIntoFullProfile (request.profile side)
      (mergePlace row col T.info.numRows T.info.numCols side).1
      (mergePlace row col T.info.numRows T.info.numCols side).2.1 p
      (mergePlace row col T.info.numRows T.info.numCols side).2.2 = some p') :
    Collected n (fun k j => found k j ∨ (ComparesAt e.build.unrollWid T row col (sideCell side k j) ∧
        J.ValidCell (sideCell side k j).1 (sideCell side k j).2))
      (fun k j => J.pearson (sideCell side k j).1 (sideCell side k j).2) p' := by
  subst hT
  have hU := unrollWid_pos e.build
  obtain ⟨block, hblock, hlength, hentries⟩ := e.entries htype hside
  have hlt : ∀ {r c}, (r, c) ∈ comparedCells e.build.unrollWid e.join.info →
      r < e.join.info.numRows ∧ c < e.join.info.numCols := lt_of_mem_comparedCells e.join hU
  -- the profile takes in the entries of the tile, each the best of its cells there
  have hmerged := h.merge
    (fun k i => sideCell side k i ∈ comparedCells e.build.unrollWid e.join.info ∧
      e.join.ValidCell (sideCell side k i).1 (sideCell side k i).2)
    (fun k i => e.join.pearson (sideCell side k i).1 (sideCell side k i).2) hmerge
    (congrArg SCAMPProto.Profile.data hblock) (fun hlen k hk => by
      rw [hentries k (by omega)]
      exact abJoin_entry hab htype e.run e.returned hside k)
    (by
      rintro k hk i ⟨hcell, -⟩
      cases side with
      | a => exact hpart.pearson_eq (hlt hcell).1 (hlt hcell).2
      | b => exact hpart.pearson_eq (hlt hcell).1 (hlt hcell).2)
    (fun k j => neg_one_le_pearson J _ _)
  have hvalid : ∀ {r c}, (r, c) ∈ comparedCells e.build.unrollWid e.join.info →
      (e.join.ValidCell r c ↔ J.ValidCell (row + r) (col + c)) :=
    fun hcell => hpart.validCell_iff (hlt hcell).1 (hlt hcell).2
  -- the cells of the tile, by their place in the matrix of the job
  refine hmerged.congr fun k hk j => or_congr_right ?_
  unfold ComparesAt
  cases side with
  | a =>
      constructor
      · rintro ⟨⟨hr, hc, hcell⟩, hv⟩
        obtain ⟨r, rfl⟩ := Nat.exists_eq_add_of_le (show row ≤ j from hr)
        obtain ⟨c, rfl⟩ := Nat.exists_eq_add_of_le (show col ≤ k from hc)
        simp only [sideCell, Nat.add_sub_cancel_left] at hcell
        exact ⟨c, (hlt hcell).2, r, rfl, rfl, hcell, (hvalid hcell).mpr hv⟩
      · rintro ⟨c, -, r, rfl, rfl, hcell, hv⟩
        refine ⟨⟨Nat.le_add_right row r, Nat.le_add_right col c, ?_⟩, (hvalid hcell).mp hv⟩
        simpa only [sideCell, mergePlace, Nat.add_sub_cancel_left] using hcell
  | b =>
      constructor
      · rintro ⟨⟨hr, hc, hcell⟩, hv⟩
        obtain ⟨r, rfl⟩ := Nat.exists_eq_add_of_le (show row ≤ k from hr)
        obtain ⟨c, rfl⟩ := Nat.exists_eq_add_of_le (show col ≤ j from hc)
        simp only [sideCell, Nat.add_sub_cancel_left] at hcell
        exact ⟨r, (hlt hcell).1, c, rfl, rfl, hcell, (hvalid hcell).mpr hv⟩
      · rintro ⟨r, -, c, rfl, rfl, hcell, hv⟩
        refine ⟨⟨Nat.le_add_right row r, Nat.le_add_right col c, ?_⟩, (hvalid hcell).mp hv⟩
        simpa only [sideCell, mergePlace, Nat.add_sub_cancel_left] using hcell

end Scamp
