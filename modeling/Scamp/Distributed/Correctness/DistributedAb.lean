import Scamp.Distributed.Correctness.Accepted

/-!
# `Distributed.Correctness.DistributedAb` — a distributed AB-join

`PROFILE_TYPE_1NN_INDEX` over the real numbers, for an AB-join that is not aligned. A worker finds the
matches of all cells of its tile, the server merges them at the place of the tile, and the tiles cover the
matrix: once all are merged, in whatever order, the profiles of the job have the values that the join has on
a single machine (`distributedAbJoin_nearest`).
-/

namespace Scamp

open Lib

/-! ## Two small jobs -/

/-- The arguments of an AB-join of two series of four samples, which keeps the rows. -/
noncomputable def fourSampleArgs : HostArgs ℝ where
  timeseriesA := [.finite 0, .finite 1, .finite 3, .finite 2]
  timeseriesB := [.finite 1, .finite 0, .finite 2, .finite 5]
  profileA := ⟨.oneNNIndex, []⟩
  profileB := ⟨.oneNNIndex, []⟩
  hasB := true
  window := 3
  maxTileSize := 1024
  distributedStartRow := -1
  distributedStartCol := -1
  distanceThreshold := 0
  precisionType := .double
  profileType := .oneNNIndex
  computingRows := true
  computingColumns := true
  keepRowsSeparate := true
  isAligned := false
  maxMatchesPerColumn := 0
  matrixHeight := 0
  matrixWidth := 0

/-- The join on a single machine. -/
noncomputable def fourSampleJoin : Join ℝ where
  args := fourSampleArgs.toArgs
  numThreads := 1
  threads_pos := Nat.one_pos
  valid := rfl
  columns := rfl
  rows_self := nofun
  rows_ab := fun _ => rfl
  type_a := rfl
  type_b := fun _ => rfl

/-- The request, for tiles of eight rows and columns. -/
noncomputable def fourSampleRequest : SCAMPProto.SCAMPArgs ℝ :=
  { (convertSCAMPArgsToProtoArgs fourSampleArgs).getD .unset with distributedTileSize := 8 }

/-- Its job. -/
noncomputable def fourSampleJob : Job ℝ :=
  (Job.create fourSampleRequest 0).getD (.new fourSampleRequest 0)

/-- The arguments of a worker before it reads the message. -/
noncomputable def freshArgs : HostArgs ℝ := { fourSampleArgs with profileB := ⟨.invalid, []⟩ }

/-- The arguments that a worker gets for the only tile. -/
noncomputable def fourSampleTileArgs : HostArgs ℝ :=
  (convertProtoArgsToSCAMPArgs (fourSampleJob.message 0) freshArgs).getD freshArgs

/-- The join of a worker for the only tile. -/
noncomputable def fourSampleTileJoin : Join ℝ where
  args := fourSampleTileArgs.toArgs
  numThreads := 1
  threads_pos := Nat.one_pos
  valid := rfl
  columns := rfl
  rows_self := nofun
  rows_ab := fun _ => rfl
  type_a := rfl
  type_b := fun _ => rfl

theorem create_fourSample : Job.create fourSampleRequest 0 = some fourSampleJob := rfl

theorem submitted_fourSample : Submitted fourSampleJoin fourSampleRequest where
  sent := ⟨fourSampleArgs, _, 8, rfl, rfl, rfl, rfl, rfl⟩
  tileSize_pos := by decide
  tileSize_lt := by decide
  lengthA_lt := by decide
  lengthB_lt := by decide

/-- The same with one window in the second series. -/
noncomputable def threeSampleArgs : HostArgs ℝ :=
  { fourSampleArgs with timeseriesB := [.finite 1, .finite 0, .finite 2] }

/-- The join on a single machine. -/
noncomputable def threeSampleJoin : Join ℝ where
  args := threeSampleArgs.toArgs
  numThreads := 1
  threads_pos := Nat.one_pos
  valid := rfl
  columns := rfl
  rows_self := nofun
  rows_ab := fun _ => rfl
  type_a := rfl
  type_b := fun _ => rfl

/-- The request, for tiles of one row and column. -/
noncomputable def threeSampleRequest : SCAMPProto.SCAMPArgs ℝ :=
  { (convertSCAMPArgsToProtoArgs threeSampleArgs).getD .unset with distributedTileSize := 1 }

/-- Its job, with two tiles. -/
noncomputable def threeSampleJob : Job ℝ :=
  (Job.create threeSampleRequest 0).getD (.new threeSampleRequest 0)

/-- The arguments that a worker gets for a tile. -/
noncomputable def threeSampleTileArgs (k : Fin 2) : HostArgs ℝ :=
  (convertProtoArgsToSCAMPArgs (threeSampleJob.message k) freshArgs).getD freshArgs

/-- The join of a worker for a tile. -/
noncomputable def threeSampleTileJoin (k : Fin 2) : Join ℝ where
  args := (threeSampleTileArgs k).toArgs
  numThreads := 1
  threads_pos := Nat.one_pos
  valid := match k with | 0 => rfl | 1 => rfl
  columns := rfl
  rows_self := nofun
  rows_ab := fun _ => rfl
  type_a := rfl
  type_b := fun _ => rfl

theorem create_threeSample : Job.create threeSampleRequest 0 = some threeSampleJob := rfl

theorem submitted_threeSample : Submitted threeSampleJoin threeSampleRequest where
  sent := ⟨threeSampleArgs, _, 1, rfl, rfl, rfl, rfl, rfl⟩
  tileSize_pos := by decide
  tileSize_lt := by decide
  lengthA_lt := by decide
  lengthB_lt := by decide

section
variable {J : Join ℝ} {args : SCAMPProto.SCAMPArgs ℝ} {jobId : ℤ} {start job : Job ℝ}

/-! ## The join of a tile -/

/-- The rows of an AB-join that keeps them go into `profile_b`. -/
theorem computed_ab (hab : J.args.hasB = true) (htype : J.args.profileType = .oneNNIndex) {side : Side} :
    Computed J side ↔ side = .a ∨ J.args.keepRowsSeparate = true := by
  have hentry : entryType J.info.profileType = true := entryType_of_nearest (Or.inl htype)
  unfold Computed
  rw [mergeTargetB_ab hab hentry]
  cases side <;> cases J.args.keepRowsSeparate <;> simp

/-- What a worker runs for a tile of an AB-join: an AB-join of the same kind. -/
theorem runsMessage_ab {T : Join ℝ} (hsub : Submitted J args) (hab : J.args.hasB = true)
    (htype : J.args.profileType = .oneNNIndex) {profileA profileB : SCAMPProto.Profile ℝ} {k : ℕ}
    (hT : RunsMessage ((Job.sized args jobId profileA profileB).makeTiles.message k) T) :
    T.args.hasB = true ∧ T.args.isAligned = J.args.isAligned ∧
      T.args.keepRowsSeparate = J.args.keepRowsSeparate ∧ T.args.profileType = .oneNNIndex := by
  have hreq := hsub.requested
  have hb : args.hasB = true := hreq.hasB.trans hab
  refine ⟨?_, ?_, ?_, ?_⟩
  · rw [hT.hasB]
    show (args.hasB || _) = true
    rw [hb, Bool.true_or]
  · rw [hT.isAligned]
    show (if (args.hasB || _) = true then args.isAligned else true) = _
    rw [hb, Bool.true_or, if_pos rfl, hreq.isAligned]
  · rw [hT.keepRowsSeparate]
    show (if (args.hasB || _) = true then args.keepRowsSeparate else true) = _
    rw [hb, Bool.true_or, if_pos rfl, hreq.keepRowsSeparate]
  · exact hT.oneNNIndex hsub htype

/-! ## One tile -/

/-- The cell is in a tile that was merged, and takes part. -/
def MergedCell (J : Join ℝ) (start : Job ℝ) (merged : ℕ → Prop) (z : ℕ × ℕ) : Prop :=
  (∃ k < start.tileCounter, merged k ∧ (start.tiles k).Covers start.distributedTileSize z.1 z.2) ∧
    J.ValidCell z.1 z.2

/-- The entries of a profile, in its own direction. -/
def CollectedSide (J : Join ℝ) (start : Job ℝ) (merged : ℕ → Prop) (side : Side) (n : ℕ)
    (p : SCAMPProto.Profile ℝ) : Prop :=
  Collected n (fun k j => MergedCell J start merged (sideCell side k j))
    (fun k j => J.pearson (sideCell side k j).1 (sideCell side k j).2) p

/-- What the profiles of the job hold. -/
def AbCollected (J : Join ℝ) (start : Job ℝ) (merged : ℕ → Prop) (jobArgs : SCAMPProto.SCAMPArgs ℝ) : Prop :=
  CollectedSide J start merged .a J.info.numCols jobArgs.profileA ∧
    (J.args.keepRowsSeparate = true → CollectedSide J start merged .b J.info.numRows jobArgs.profileB)

/-- A new job has merged no tile. -/
theorem mergedCell_none (J : Join ℝ) (start : Job ℝ) (z : ℕ × ℕ) : ¬MergedCell J start (fun _ => False) z :=
  fun ⟨⟨_, _, h, _⟩, _⟩ => h

/-- A tile more. -/
theorem mergedCell_add {start : Job ℝ} {k row col h w : ℕ} (hk : k < start.tileCounter)
    (ht : TileAt J start k row col h w) (merged : ℕ → Prop) (z : ℕ × ℕ) :
    MergedCell J start (fun k' => merged k' ∨ k' = k) z ↔
      MergedCell J start merged z ∨ (((row ≤ z.1 ∧ z.1 < row + h) ∧ col ≤ z.2 ∧ z.2 < col + w) ∧
        J.ValidCell z.1 z.2) := by
  unfold MergedCell
  rw [← or_and_right, ← ht.covers]
  refine and_congr_left' ⟨?_, ?_⟩
  · rintro ⟨k', hk', hm | rfl, hcovers⟩
    · exact Or.inl ⟨k', hk', hm, hcovers⟩
    · exact Or.inr hcovers
  · rintro (⟨k', hk', hm, hcovers⟩ | hcovers)
    · exact ⟨k', hk', Or.inl hm, hcovers⟩
    · exact ⟨k, hk, Or.inr rfl, hcovers⟩

/-- **The merge of a tile's profile** adds the cells of the tile. -/
theorem CollectedSide.merge (hab : J.args.hasB = true) (hna : J.args.isAligned = false)
    (htype : J.args.profileType = .oneNNIndex) (hsub : Submitted J args) {profileA profileB : SCAMPProto.Profile ℝ}
    (hstart : start = (Job.sized args jobId profileA profileB).makeTiles) {k row col height width : ℕ}
    (hk : k < start.tileCounter) (ht : TileAt J start k row col height width)
    {request : SCAMPProto.SCAMPArgs ℝ} (e : Execution (start.message k) request) {side : Side}
    (hside : Computed J side) {merged : ℕ → Prop} {n : ℕ} {p p' : SCAMPProto.Profile ℝ}
    (h : CollectedSide J start merged side n p)
    (hmerge : mergeTileIntoFullProfile (request.profile side) (mergePlace row col height width side).1
      (mergePlace row col height width side).2.1 p (mergePlace row col height width side).2.2 = some p') :
    CollectedSide J start (fun k' => merged k' ∨ k' = k) side n p' := by
  subst hstart
  obtain ⟨habT, hnaT, hkeepT, htypeT⟩ := runsMessage_ab hsub hab htype e.runsMessage
  obtain ⟨hpart, hcols, hrows⟩ := ht.partOf hsub e.runsMessage
  have hsideT : Computed e.join side := by
    rw [computed_ab habT htypeT, hkeepT]
    exact (computed_ab hab htype).mp hside
  rw [← hcols, ← hrows] at hmerge
  refine (Collected.merge_ab hpart habT htypeT e rfl hsideT h hmerge).congr fun k' _ j => ?_
  rw [mergedCell_add hk ht]
  refine or_congr_right (and_congr_left' ?_)
  unfold ComparesAt
  rw [mem_comparedCells_abJoin (unrollWid_pos e.build) habT (hnaT.trans hna), hcols, hrows]
  omega

/-- The tile, the job and the request agree on keeping the rows. -/
theorem keepsRows_ab (hab : J.args.hasB = true) (hsub : Submitted J args) {profileA profileB : SCAMPProto.Profile ℝ}
    (hstart : start = (Job.sized args jobId profileA profileB).makeTiles) {jobArgs : SCAMPProto.SCAMPArgs ℝ}
    (hsettings : jobArgs.settings = start.jobArgs.settings) {k : ℕ} :
    ((start.tiles k).generateArgs start.jobArgs).1.args.keepRowsSeparate = J.args.keepRowsSeparate ∧
      jobArgs.keepRowsSeparate = J.args.keepRowsSeparate ∧ jobArgs.computingRows = J.args.keepRowsSeparate := by
  have hreq := hsub.requested
  have hb : args.hasB = true := hreq.hasB.trans hab
  refine ⟨?_, ?_, ?_⟩
  · rw [hstart]
    show (if (args.hasB || _) = true then args.keepRowsSeparate else true) = _
    rw [hb, Bool.true_or, if_pos rfl, hreq.keepRowsSeparate]
  · have heq : jobArgs.settings.keepRowsSeparate = start.jobArgs.settings.keepRowsSeparate := by rw [hsettings]
    rw [show jobArgs.keepRowsSeparate = _ from heq, hstart]
    exact hreq.keepRowsSeparate
  · have heq : jobArgs.settings.computingRows = start.jobArgs.settings.computingRows := by rw [hsettings]
    rw [show jobArgs.computingRows = _ from heq, hstart, ← J.rows_ab hab]
    exact hreq.computingRows

/-- **The merge of a result** adds the cells of its tile to the profiles. -/
theorem AbCollected.merge (hab : J.args.hasB = true) (hna : J.args.isAligned = false)
    (htype : J.args.profileType = .oneNNIndex) (hsub : Submitted J args) {profileA profileB : SCAMPProto.Profile ℝ}
    (hstart : start = (Job.sized args jobId profileA profileB).makeTiles) {k : ℕ} (hk : k < start.tileCounter)
    {request : SCAMPProto.SCAMPArgs ℝ} (e : Execution (start.message k) request) {merged : ℕ → Prop}
    {jobArgs jobArgs' : SCAMPProto.SCAMPArgs ℝ} (hsettings : jobArgs.settings = start.jobArgs.settings)
    (h : AbCollected J start merged jobArgs) (hmerge : MergesTile start k request jobArgs jobArgs') :
    AbCollected J start (fun k' => merged k' ∨ k' = k) jobArgs' := by
  obtain ⟨row, col, height, width, ht⟩ := exists_tileAt hsub jobId profileA profileB (hstart ▸ hk)
  rw [← hstart] at ht
  have hcalled := (ht.mergesTile_iff hsub).mp hmerge
  obtain ⟨htileKeep, hjobKeep, hjobRows⟩ := keepsRows_ab hab hsub hstart hsettings (k := k)
  have hmergedA : ∀ profileA', mergeTileIntoFullProfile request.profileA col width jobArgs.profileA row =
      some profileA' → CollectedSide J start (fun k' => merged k' ∨ k' = k) .a J.info.numCols profileA' :=
    fun _ hA => CollectedSide.merge hab hna htype hsub hstart hk ht e (Or.inl rfl) h.1 hA
  unfold mergeProfile at hcalled
  simp only [Option.bind_eq_bind, Option.pure_def, htileKeep, hjobKeep, hjobRows, Bool.and_self] at hcalled
  obtain ⟨profileA', hA, hcalled⟩ := Option.bind_eq_some_iff.mp hcalled
  cases hkeep : J.args.keepRowsSeparate with
  | false =>
      simp only [hkeep, Bool.false_eq_true, if_false] at hcalled
      obtain rfl := Option.some.inj hcalled
      exact ⟨hmergedA _ hA, fun hs => nomatch hkeep.symm.trans hs⟩
  | true =>
      simp only [hkeep, if_true] at hcalled
      obtain ⟨profileB', hB, hcalled⟩ := Option.bind_eq_some_iff.mp hcalled
      obtain rfl := Option.some.inj hcalled
      have hside : Computed J .b := (computed_ab hab htype).mpr (Or.inr hkeep)
      exact ⟨hmergedA _ hA, fun _ => CollectedSide.merge hab hna htype hsub hstart hk ht e hside (h.2 hkeep) hB⟩

/-! ## Runs -/

/-- **What the profiles hold in every run** are the cells of the tiles merged so far. -/
theorem abCollected_run (hab : J.args.hasB = true) (hna : J.args.isAligned = false)
    (htype : J.args.profileType = .oneNNIndex) (hsub : Submitted J args) (hcreate : Job.create args jobId = some start)
    {trace : List (Call ℝ × Reply ℝ)} (hrun : Job.Run (HonestResults fun _ _ => True) start trace job) :
    AbCollected J start (fun k => .merged k ∈ trace.flatMap events) job.jobArgs := by
  obtain ⟨profileB, hstart, hB⟩ := create_submitted hsub htype hcreate
  have hempty : ∀ side n, CollectedSide J start (fun _ => False) side n (initialProfile n) := fun side n =>
    (collected_initial n _).congr fun _ _ _ => iff_of_false (mergedCell_none J start _) not_false
  refine (merge_run (Q := AbCollected J start) (hstart ▸ fun _ => rfl) (hstart ▸ fun _ => rfl) ⟨?_, ?_⟩ ?_ hrun).2
  · have hprofile : start.jobArgs.profileA = initialProfile J.info.numCols := by
      rw [hstart]
      rfl
    rw [hprofile]
    exact hempty .a _
  · intro hkeep
    have hprofile : start.jobArgs.profileB = initialProfile J.info.numRows := by
      rw [hstart, ← hB hkeep]
      rfl
    rw [hprofile]
    exact hempty .b _
  · intro s merged request now k jobArgs hsame hQ hhonest hcombined hk hid hmerge
    obtain ⟨e, -⟩ := hhonest hcombined k (hsame.count ▸ hk) hid
    exact AbCollected.merge hab hna htype hsub hstart hk (hsame.message k ▸ e) hsame.settings hQ hmerge

/-- **The first tile of the queue is handed out.** -/
theorem exists_fetched (hids : ∀ id, (start.tiles id).tileId = id) {trace : List (Call ℝ × Reply ℝ)}
    (hrun : Job.Run (HonestResults fun _ _ => True) start trace job) (hrunning : job.status = .running) {k : ℕ}
    {rest : List ℕ} (hqueue : job.readyQueue = k :: rest) (now : ℤ) {throughput : ℤ}
    (hthroughput : uint64 throughput ≠ 0) :
    ∃ job', Job.Run (HonestResults fun _ _ => True) start
        (trace ++ [(.fetchReadyTile (List.range start.tileCounter) now throughput, .work (some (start.message k)))]) job' ∧
      job'.status = .running ∧ job'.readyQueue = rest ∧ (job'.tiles k).hasArgs = true ∧
      (job'.tiles k).status = .running ∧ ∀ k', k' ≠ k → job'.tiles k' = job.tiles k' := by
  have hsame : SameTiles start job := (run_refines hids (run_allowed hrun)).1
  obtain ⟨job', hfetch, hrest⟩ : ∃ job', job.fetchReadyTile (List.range start.tileCounter) now throughput =
        some (job', some (job.message k)) ∧
      job'.status = .running ∧ job'.readyQueue = rest ∧ (job'.tiles k).hasArgs = true ∧
      (job'.tiles k).status = .running ∧ ∀ k', k' ≠ k → job'.tiles k' = job.tiles k' := by
    unfold Job.fetchReadyTile Job.handOut
    simp only [hrunning, ne_eq, not_true_eq_false, if_false, hqueue, List.isEmpty_cons, Bool.false_eq_true,
      hthroughput]
    refine ⟨_, rfl, rfl, rfl, ?_, ?_, fun k' hne => Function.update_of_ne hne ..⟩
    · show (Function.update job.tiles k _ k).hasArgs = true
      rw [Function.update_self]
      rfl
    · show (Function.update job.tiles k _ k).status = .running
      rw [Function.update_self]
  refine ⟨job', hrun.snoc ⟨?_, trivial, ?_⟩, hrest⟩
  · show (List.range start.tileCounter).Perm (List.range job.tileCounter)
    rw [hsame.count]
  · show (job.fetchReadyTile _ now throughput).map _ = _
    rw [hfetch, hsame.message k]
    rfl

/-- **The result of a running tile can be merged**, whichever tiles have been merged before. -/
theorem exists_merged (hab : J.args.hasB = true) (hna : J.args.isAligned = false)
    (htype : J.args.profileType = .oneNNIndex) (hsub : Submitted J args) (hcreate : Job.create args jobId = some start)
    {trace : List (Call ℝ × Reply ℝ)} (hrun : Job.Run (HonestResults fun _ _ => True) start trace job) {k : ℕ}
    (hk : k < start.tileCounter) (hargs : (job.tiles k).hasArgs = true) (hstatus : (job.tiles k).status = .running)
    {request : SCAMPProto.SCAMPArgs ℝ} (e : Execution (start.message k) request) (hid : int32 request.tileId = k)
    (now : ℤ) : ∃ job', Job.Run (HonestResults fun _ _ => True) start
        (trace ++ [(.combineProfile request now, .answer true)]) job' ∧
      ∀ k', k' ≠ k → job'.tiles k' = job.tiles k' := by
  obtain ⟨profileB, hstart, -⟩ := create_submitted hsub htype hcreate
  have hcollected := abCollected_run hab hna htype hsub hcreate hrun
  have hsame : SameTiles start job := (run_refines (hstart ▸ fun _ => rfl) (run_allowed hrun)).1
  subst hstart
  obtain ⟨row, col, height, width, ht⟩ := exists_tileAt hsub jobId _ profileB hk
  obtain ⟨-, -, hkeepT, htypeT⟩ := runsMessage_ab hsub hab htype e.runsMessage
  obtain ⟨-, hcols, hrows⟩ := ht.partOf hsub e.runsMessage
  obtain ⟨htileKeep, hjobKeep, hjobRows⟩ := keepsRows_ab hab hsub rfl hsame.settings (k := k)
  -- the profiles of the result fit into those of the job
  obtain ⟨entriesA, hA, hlengthA, -⟩ := hcollected.1
  obtain ⟨blockA, hblockA, hblockLengthA⟩ := e.block htypeT (Or.inl rfl : Side.a = .a ∨ _)
  obtain ⟨profileA', hmergeA⟩ := mergeTile_fits row hblockA hA (hlengthA ▸ ht.cols.2)
    (le_of_eq (hblockLengthA.trans hcols).symm)
  have hmerge : ∃ jobArgs, MergesTile (Job.sized args jobId (initialProfile J.info.numCols) profileB).makeTiles k
      request job.jobArgs jobArgs := by
    simp only [ht.mergesTile_iff hsub, mergeProfile, htileKeep, hjobKeep, hjobRows, Bool.and_self]
    rw [show mergeTileIntoFullProfile request.profileA col width job.jobArgs.profileA row = _ from hmergeA]
    cases hkeep : J.args.keepRowsSeparate with
    | false => exact ⟨_, rfl⟩
    | true =>
        obtain ⟨entriesB, hB, hlengthB, -⟩ := hcollected.2 hkeep
        obtain ⟨blockB, hblockB, hblockLengthB⟩ := e.block htypeT (Or.inr (hkeepT.trans hkeep) : Side.b = .a ∨ _)
        obtain ⟨profileB', hmergeB⟩ := mergeTile_fits col hblockB hB (hlengthB ▸ ht.rows.2)
          (le_of_eq (hblockLengthB.trans hrows).symm)
        show ∃ jobArgs, (mergeTileIntoFullProfile request.profileB row height job.jobArgs.profileB col).bind _ =
          some jobArgs
        rw [show mergeTileIntoFullProfile request.profileB row height job.jobArgs.profileB col = _ from hmergeB]
        exact ⟨_, rfl⟩
  obtain ⟨jobArgs, hmerge⟩ := hmerge
  have hgiven := (hsame.given k).resolve_left fun heq => by
    have hnone : (job.tiles k).hasArgs = false := congrArg Prod.fst heq
    cases hargs.symm.trans hnone
  obtain ⟨job', hcombine⟩ := e.combined hsub rfl ht htypeT (hsame.count ▸ hk) hid (hsame.place k) hgiven hstatus
    hmerge now
  refine ⟨job', hrun.snoc ⟨trivial, fun _ k' hk' hid' => ?_, ?_⟩, fun k' hne => ?_⟩
  · obtain rfl : k' = k := by exact_mod_cast hid'.symm.trans hid
    exact ⟨(hsame.message k').symm ▸ e, trivial⟩
  · show (job.combineProfile request now).map _ = _
    rw [hcombine]
    rfl
  · rcases combine_cases hcombine with ⟨hfalse, -⟩ | ⟨-, id, -, hid', -, jobArgs', -, rfl⟩
    · cases hfalse
    · obtain rfl : id = k := by exact_mod_cast hid'.symm.trans hid
      exact Function.update_of_ne hne ..

/-- The calls in which a worker computes the only tile of a job. -/
noncomputable def fourSampleTrace (request : SCAMPProto.SCAMPArgs ℝ) : List (Call ℝ × Reply ℝ) :=
  [(.fetchReadyTile [0] 0 1, .work (some (fourSampleJob.message 0))), (.combineProfile request 1, .answer true)]

/-- A run in which the only tile is merged. -/
theorem run_fourSample : ∃ request job,
    Job.Run (HonestResults fun _ _ => True) fourSampleJob (fourSampleTrace request) job ∧
      ∀ k < fourSampleJob.tileCounter, .merged k ∈ (fourSampleTrace request).flatMap events := by
  obtain ⟨request, e, -⟩ : ∃ request, ∃ e : Execution (fourSampleJob.message 0) request,
      e.join = fourSampleTileJoin :=
    exists_execution scanBuild (fun _ => zeroTile) rfl rfl rfl rfl rfl (Or.inl rfl)
  have htileId : int32 request.tileId = (0 : ℕ) := congrArg int32 (congrArg SCAMPProto.SCAMPArgs.tileId e.request_eq)
  obtain ⟨job, hfetched, -, -, hargs, hstatus, -⟩ := exists_fetched (fun _ => rfl)
    (Trace.nil : Job.Run _ fourSampleJob [] fourSampleJob) rfl rfl 0 (show uint64 1 ≠ 0 by decide)
  obtain ⟨job', hrun, -⟩ := exists_merged rfl rfl rfl submitted_fourSample create_fourSample hfetched
    (show 0 < fourSampleJob.tileCounter by decide) hargs hstatus e htileId 1
  refine ⟨request, job', hrun, fun k hk => ?_⟩
  obtain rfl : k = 0 := Nat.lt_one_iff.mp hk
  simp [fourSampleTrace, events, htileId]

/-- The calls in which workers get both tiles of a job and the second one is merged first. -/
noncomputable def threeSampleTrace (first second : SCAMPProto.SCAMPArgs ℝ) : List (Call ℝ × Reply ℝ) :=
  [(.fetchReadyTile [0, 1] 0 1, .work (some (threeSampleJob.message 0))),
    (.fetchReadyTile [0, 1] 0 1, .work (some (threeSampleJob.message 1))),
    (.combineProfile second 1, .answer true), (.combineProfile first 1, .answer true)]

/-- A run in which both tiles are merged. -/
theorem run_threeSample : ∃ first second job,
    Job.Run (HonestResults fun _ _ => True) threeSampleJob (threeSampleTrace first second) job ∧
      ∀ k < threeSampleJob.tileCounter, .merged k ∈ (threeSampleTrace first second).flatMap events := by
  have hexecution : ∀ k : Fin 2, ∃ request, Nonempty (Execution (threeSampleJob.message k) request) := fun k => by
    have hargs : convertProtoArgsToSCAMPArgs (threeSampleJob.message k) freshArgs = some (threeSampleTileArgs k) :=
      match k with | 0 => rfl | 1 => rfl
    obtain ⟨request, e, -⟩ : ∃ request, ∃ e : Execution (threeSampleJob.message k) request,
        e.join = threeSampleTileJoin k :=
      exists_execution scanBuild (fun _ => zeroTile) rfl hargs rfl rfl rfl (Or.inl rfl)
    exact ⟨request, ⟨e⟩⟩
  choose request he using hexecution
  have htileId : ∀ k : Fin 2, int32 (request k).tileId = (k : ℕ) := fun k => by
    obtain ⟨e⟩ := he k
    have heq : (request k).tileId = (k : ℕ) := congrArg SCAMPProto.SCAMPArgs.tileId e.request_eq
    rw [heq]
    exact (by decide : ∀ k : Fin 2, int32 (k : ℕ) = (k : ℕ)) k
  obtain ⟨e⟩ := he 0
  obtain ⟨e'⟩ := he 1
  obtain ⟨job, hfetched, hrunning, hqueue, hargs, hstatus, -⟩ := exists_fetched (fun _ => rfl)
    (Trace.nil : Job.Run _ threeSampleJob [] threeSampleJob) rfl rfl 0 (show uint64 1 ≠ 0 by decide)
  obtain ⟨job', hfetched', -, -, hargs', hstatus', hkept⟩ := exists_fetched (fun _ => rfl) hfetched hrunning hqueue 0
    (show uint64 1 ≠ 0 by decide)
  obtain ⟨half, hhalf, hkept'⟩ := exists_merged rfl rfl rfl submitted_threeSample create_threeSample hfetched'
    (show 1 < threeSampleJob.tileCounter by decide) hargs' hstatus' e' (htileId 1) 1
  have hfirst : half.tiles 0 = job.tiles 0 := (hkept' 0 (by decide)).trans (hkept 0 (by decide))
  obtain ⟨both, hboth, -⟩ := exists_merged rfl rfl rfl submitted_threeSample create_threeSample hhalf
    (show 0 < threeSampleJob.tileCounter by decide) (hfirst ▸ hargs) (hfirst ▸ hstatus) e (htileId 0) 1
  refine ⟨request 0, request 1, both, hboth, fun k hk => ?_⟩
  obtain rfl | rfl : k = 0 ∨ k = 1 := by
    have hlt : k < 2 := hk
    omega
  · simp [threeSampleTrace, events, htileId]
  · simp [threeSampleTrace, events, htileId]

/-- Once all tiles are merged, these are the cells of the matrix that take part. -/
theorem mergedCell_all {merged : ℕ → Prop} (hsub : Submitted J args) {profileA profileB : SCAMPProto.Profile ℝ}
    (hab : J.args.hasB = true) (hstart : start = (Job.sized args jobId profileA profileB).makeTiles)
    (hall : ∀ k < start.tileCounter, merged k) (z : ℕ × ℕ) :
    MergedCell J start merged z ↔ (z.1 < J.info.numRows ∧ z.2 < J.info.numCols) ∧ J.ValidCell z.1 z.2 := by
  subst hstart
  refine and_congr_left' ⟨?_, ?_⟩
  · rintro ⟨k, hk, -, hcovers⟩
    obtain ⟨row, col, height, width, ht⟩ := exists_tileAt hsub jobId profileA profileB hk
    obtain ⟨⟨-, hr⟩, -, hc⟩ := (ht.covers z.1 z.2).mp hcovers
    exact ⟨hr.trans_le ht.rows.2, hc.trans_le ht.cols.2⟩
  · rintro ⟨hr, hc⟩
    obtain ⟨k, hk, hcovers | ⟨hself, -⟩⟩ := tile_covers hsub.size_ne_zero (.refl _) (i := z.1) (j := z.2)
      (by rw [hsub.height_eq]; exact_mod_cast hr) (by rw [hsub.width_eq]; exact_mod_cast hc)
    · exact ⟨k, hk, hall k hk, hcovers⟩
    · rw [hsub.requested.hasB, hab] at hself
      cases hself

/-- **A distributed AB-join is the join.** In every run of the job in which all tiles are merged, in whatever
    order, with results that workers computed with tile sizes and threads of their own, every entry of
    `profile_a`, and of `profile_b` if the rows are kept, has the value that the join has on a single machine.
    It is the best of the correlations with its partners and holds the position of one that attains it, and
    the initial entry if it has no partners. -/
theorem distributedAbJoin_nearest (J : Join ℝ) (hab : J.args.hasB = true) (hna : J.args.isAligned = false)
    (htype : J.args.profileType = .oneNNIndex) (args : SCAMPProto.SCAMPArgs ℝ) (hsub : Submitted J args)
    (jobId : ℤ) (start job : Job ℝ) (hcreate : Job.create args jobId = some start)
    (trace : List (Call ℝ × Reply ℝ)) (hrun : Job.Run (HonestResults fun _ _ => True) start trace job)
    (hall : ∀ k < start.tileCounter, .merged k ∈ trace.flatMap events) (bld : Build ℝ) (memory : ℕ → Tile ℝ)
    (s : OpState ℝ) (hsingle : J.Run bld memory s) (hreturned : J.Returned s) (side : Side)
    (hside : side = .a ∨ J.args.keepRowsSeparate = true) :
    ∃ entries, job.jobArgs.profile side = ⟨[.uint64 entries], .oneNNIndex⟩ ∧ entries.length = sideSize J side ∧
      ∀ k < sideSize J side, ∃ e, entries[k]? = some e ∧ e.value = ((s.shared.profile side).data.get k).value ∧
        NearestEntry .oneNNIndex
          (fun j => ((sideCell side k j).1 < J.info.numRows ∧ (sideCell side k j).2 < J.info.numCols) ∧
            J.ValidCell (sideCell side k j).1 (sideCell side k j).2)
          (fun j => J.pearson (sideCell side k j).1 (sideCell side k j).2) e := by
  obtain ⟨profileB, hstart, -⟩ := create_submitted hsub htype hcreate
  have hcollected := abCollected_run hab hna htype hsub hcreate hrun
  obtain ⟨entries, hprofile, hlength, hentries⟩ :
      CollectedSide J start (fun k => .merged k ∈ trace.flatMap events) side (sideSize J side)
        (job.jobArgs.profile side) := by
    cases side with
    | a => exact hcollected.1
    | b => exact hcollected.2 (hside.resolve_left nofun)
  refine ⟨entries, hprofile, hlength, fun k hk => ⟨entries.getD k (allocEntry .oneNNIndex), ?_, ?_⟩⟩
  · rw [List.getD_eq_getElem?_getD, List.getElem?_eq_getElem (hlength ▸ hk)]
    rfl
  · have hdistributed := (hentries k hk).congr
      (fun j => (mergedCell_all hsub hab hstart hall (sideCell side k j)).symm) fun _ _ => rfl
    have hjoin := (abJoin_entry hab htype hsingle hreturned ((computed_ab hab htype).mpr hside) k).congr
      (fun j => and_congr_left' (mem_comparedCells_abJoin (unrollWid_pos bld) hab hna).symm) fun _ _ => rfl
    exact ⟨hdistributed.value_eq hjoin, hdistributed⟩

theorem distributedAbJoin_nearest_threeSample : ∃ first second job s,
    Job.Run (HonestResults fun _ _ => True) threeSampleJob (threeSampleTrace first second) job ∧
    threeSampleJoin.Run scanBuild (fun _ => zeroTile) s ∧ threeSampleJoin.Returned s ∧
    ∀ side, ∃ entries, job.jobArgs.profile side = ⟨[.uint64 entries], .oneNNIndex⟩ ∧
      entries.length = sideSize threeSampleJoin side ∧ ∀ k < sideSize threeSampleJoin side, ∃ e, entries[k]? = some e ∧
        e.value = ((s.shared.profile side).data.get k).value := by
  obtain ⟨first, second, job, hrun, hall⟩ := run_threeSample
  have hinit : StateOK threeSampleJoin scanBuild (threeSampleJoin.initState fun _ => zeroTile) := stateOK_init rfl _
  obtain ⟨s, hsingle, hreturned⟩ := runs_return rfl (Or.inl rfl) hinit
  refine ⟨first, second, job, s, hrun, hsingle, hreturned, fun side => ?_⟩
  obtain ⟨entries, hprofile, hlength, hentries⟩ := distributedAbJoin_nearest threeSampleJoin rfl rfl rfl
    threeSampleRequest submitted_threeSample 0 threeSampleJob job create_threeSample (threeSampleTrace first second)
    hrun hall scanBuild (fun _ => zeroTile) s hsingle hreturned side (Or.inr rfl)
  refine ⟨entries, hprofile, hlength, fun k hk => ?_⟩
  obtain ⟨e, he, hvalue, -⟩ := hentries k hk
  exact ⟨e, he, hvalue⟩

end

end Scamp
