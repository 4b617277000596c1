import Scamp.Distributed.Correctness.TileJoins

/-!
# `Distributed.Correctness.Accepted` — results that the server accepts

The profiles of a join keep their sizes, so that what a worker sends back has the sizes of its tile. It
passes the checks of `CombineProfile` as long as the tile is running (`Execution.accepted`), and fits into
the profiles of the job.
-/

namespace Scamp

open Lib

/-! ## Sizes -/

/-- How many entries a profile has. -/
def sideSize {K : Type} [Field K] [LinearOrder K] (J : Join K) : Side → ℕ
  | .a => J.info.numCols
  | .b => J.info.numRows

section
variable {K : Type} [Field K] [LinearOrder K]

theorem size_mergeTileToProfile {p tileProfile p' : Profile K} {position length indexStart : ℕ}
    (h : mergeTileToProfile p tileProfile position length indexStart = .ok p') : p'.data.size = p.data.size := by
  unfold mergeTileToProfile at h
  split at h
  · cases h
  · split at h
    all_goals cases h
    all_goals simp only [elementwiseSum, elementwiseMaxIndex, elementwiseMax, matrixMerge, size_elementwise]

/-- A worker's step keeps the sizes of the profiles. -/
theorem workerStep_size {op : Operation K} {g g' : Shared K} {w w' : Worker K} {act : Action}
    (h : WorkerStep op g w act g' w') (side : Side) :
    (g'.profile side).data.size = (g.profile side).data.size := by
  cases h with
  | mergeA hw hp =>
      unfold Tile.mergeProfileA at hp
      cases side with
      | a =>
          split at hp
          · exact size_mergeTileToProfile hp
          · cases hp
      | b => rfl
  | @mergeB last target p hw htarget hp =>
      have hsize := size_mergeTileToProfile hp
      cases side <;> cases target <;> first | exact hsize | rfl
  | pop => cases side <;> rfl
  | count => cases side <;> rfl
  | _ => rfl

variable [HasSqrt K] [IsStrictOrderedRing K] {J : Join K} {bld : Build K}

/-- **The profiles of a join keep their sizes.** -/
theorem run_size (htype : entryType J.info.profileType = true) {s s' : OpState K} (hs : StateOK J bld s)
    (hrun : Relation.ReflTransGen (OpStep (J.operation bld) J.numThreads) s s') (side : Side) :
    (s'.shared.profile side).data.size = (s.shared.profile side).data.size := by
  refine (run_inv (I := fun t => StateOK J bld t ∧
    (t.shared.profile side).data.size = (s.shared.profile side).data.size) ?_ hrun ⟨hs, rfl⟩).2
  rintro t t' ⟨ht, hsize⟩ hstep
  refine ⟨stateOK_step htype ht hstep, ?_⟩
  obtain ⟨i, hi, act, hact⟩ := hstep
  obtain ⟨g, w, rfl, hw⟩ := opStep_cases htype ht hi hact
  exact (workerStep_size hw side).trans hsize

omit [HasSqrt K] [IsStrictOrderedRing K] in
/-- Each profile starts with an entry for each of its subsequences. -/
theorem initState_size (htype : J.args.profileType = .oneNNIndex) (memory : ℕ → Tile K) {side : Side}
    (hside : side = .a ∨ J.args.keepRowsSeparate = true) :
    ((J.initState memory).shared.profile side).data.size = sideSize J side := by
  have halloc : ∀ {p : Profile K} {size : ℕ} {h w : ℤ}, p.type = .oneNNIndex → (p.alloc size h w).data.size = size := by
    intro p size h w hp
    unfold Profile.alloc
    rw [hp]
    rfl
  cases side with
  | a => exact halloc (J.type_a.trans htype)
  | b =>
      have hkeep := hside.resolve_left nofun
      show (if J.args.keepRowsSeparate then _ else _ : Profile K).data.size = _
      rw [if_pos hkeep, halloc ((J.type_b hkeep).trans htype)]
      show (if J.args.hasB then _ else _ : ℕ) = (if J.args.hasB then _ else _ : ℕ) - _ + 1
      split <;> rfl

omit [HasSqrt K] [IsStrictOrderedRing K] in
/-- A join that keeps the rows computes them. -/
theorem computed_of_keepRows (htype : entryType J.info.profileType = true) (hkeep : J.args.keepRowsSeparate = true) :
    Computed J .b := by
  have hne : J.args.profileType ≠ .matrixSummary := ne_matrixSummary htype
  have hrows : J.info.computingRows = true := by
    refine (if_neg hne).trans ?_
    cases hb : J.args.hasB with
    | false => exact J.rows_self hb
    | true => exact (J.rows_ab hb).trans hkeep
  have hkeepInfo : J.info.keepRowsSeparate = true := (if_neg hne).trans hkeep
  unfold Computed Tile.mergeTargetB
  rw [hrows, hkeepInfo]
  exact Or.inr rfl

end

/-! ## Results -/

/-- **What a worker sends back** has an entry for each subsequence of its tile. -/
theorem Execution.block {message request : SCAMPProto.SCAMPArgs ℝ} (e : Execution message request)
    (htype : e.join.args.profileType = .oneNNIndex) {side : Side}
    (hside : side = .a ∨ e.join.args.keepRowsSeparate = true) :
    ∃ block, request.profile side = ⟨[block], .oneNNIndex⟩ ∧ block.uint64Value.length = sideSize e.join side := by
  have hentry : entryType e.join.info.profileType = true := entryType_of_nearest (Or.inl htype)
  have hcomputed : Computed e.join side := by
    rcases hside with rfl | hkeep
    · exact Or.inl rfl
    · cases side with
      | a => exact Or.inl rfl
      | b => exact computed_of_keepRows hentry hkeep
  obtain ⟨block, hblock, hlength, -⟩ := e.entries htype hcomputed
  refine ⟨block, hblock, hlength.trans ?_⟩
  rw [run_size hentry (stateOK_init hentry e.memory) e.run side, initState_size htype e.memory hside]

/-- A profile of the type goes into a message. -/
theorem exists_convert_ofProfile {p : Profile ℝ} (htype : p.type = .oneNNIndex) :
    ∃ proto, (HostProfile.ofProfile p).convert = some proto := by
  unfold HostProfile.ofProfile HostProfile.convert
  rw [htype]
  dsimp only
  split <;> exact ⟨_, rfl⟩

/-- **A worker can compute a tile**: the join of a message that keeps the rows returns, and sends a result. -/
theorem exists_execution {message : SCAMPProto.SCAMPArgs ℝ} {fresh args : HostArgs ℝ} {T : Join ℝ} (bld : Build ℝ)
    (memory : ℕ → Tile ℝ) (hfresh : fresh.profileB = ⟨.invalid, []⟩)
    (hargs : convertProtoArgsToSCAMPArgs message fresh = some args) (hjoin : T.args = args.toArgs)
    (htype : T.args.profileType = .oneNNIndex) (hkeep : T.args.keepRowsSeparate = true)
    (hfp : cpuPrecision T.args.precisionType) : ∃ request, ∃ e : Execution message request, e.join = T := by
  have hentry : entryType T.info.profileType = true := entryType_of_nearest (Or.inl htype)
  have hinit : StateOK T bld (T.initState memory) := stateOK_init hentry memory
  obtain ⟨s, hrun, hreturned⟩ := runs_return hentry hfp hinit
  have htypes := (stateOK_run hentry hrun).types
  have hinfo : T.info.profileType = .oneNNIndex := htype
  obtain ⟨profileA, hA⟩ := exists_convert_ofProfile ((htypes .a (Or.inl rfl)).trans hinfo)
  obtain ⟨profileB, hB⟩ := exists_convert_ofProfile
    ((htypes .b (computed_of_keepRows hentry hkeep)).trans hinfo)
  exact ⟨_, ⟨fresh, args, T, bld, memory, s, profileA, profileB, hfresh, hargs, hjoin, hrun, hreturned, hA, hB, rfl⟩,
    rfl⟩

section
variable {J : Join ℝ} {args : SCAMPProto.SCAMPArgs ℝ} {jobId : ℤ} {profileA profileB : SCAMPProto.Profile ℝ}
  {start : Job ℝ} {k row col height width : ℕ}

/-- **A result is accepted** as long as its tile is running. -/
theorem Execution.accepted (hsub : Submitted J args)
    (hstart : start = (Job.sized args jobId profileA profileB).makeTiles) (ht : TileAt J start k row col height width)
    {request : SCAMPProto.SCAMPArgs ℝ} (e : Execution (start.message k) request)
    (htype : e.join.args.profileType = .oneNNIndex) {tile : DistributedTile ℝ}
    (hplace : tile.place = (start.tiles k).place)
    (hgiven : tile.given = ((start.tiles k).generateArgs start.jobArgs).1.given) (hstatus : tile.status = .running) :
    Job.acceptsResult tile request = some true := by
  obtain ⟨-, hrow, hcol, hh, hw⟩ : _ ∧ _ ∧ _ ∧ _ ∧ _ := by
    simpa only [DistributedTile.place, Prod.mk.injEq] using hplace
  obtain ⟨hhas, hstartRow, hstartCol, htileArgs⟩ : _ ∧ _ ∧ _ ∧ _ := by
    simpa only [DistributedTile.given, Prod.mk.injEq] using hgiven
  obtain ⟨-, hcols, hrows⟩ : PartOf e.join J row col ∧ e.join.info.numCols = width ∧ e.join.info.numRows = height := by
    subst hstart
    exact ht.partOf hsub e.runsMessage
  have hreq := e.request_eq
  have hsizeA : request.timeseriesSizeA - request.window + 1 = tile.width := by
    rw [hreq, hw]
    show (start.tiles k).width + start.jobArgs.window - 1 - start.jobArgs.window + 1 = _
    omega
  have hsizeB : request.timeseriesSizeB - request.window + 1 = tile.height := by
    rw [hreq, hh]
    show (start.tiles k).height + start.jobArgs.window - 1 - start.jobArgs.window + 1 = _
    omega
  -- a self-join of a tile is on the diagonal, where the tile is a square
  have hheight : (if request.hasB then uint64 (request.timeseriesSizeB - request.window + 1)
      else uint64 (request.timeseriesSizeA - request.window + 1)) = uint64 tile.height := by
    split
    · rw [hsizeB]
    · next hnot =>
        have hself : e.join.args.hasB = false := by
          rw [e.runsMessage.hasB]
          rw [hreq] at hnot
          exact Bool.eq_false_iff.mpr hnot
        have hsquare := numRows_eq_numCols e.join hself
        rw [hsizeA, hw, hh, ht.width, ht.height, ← hcols, ← hrows, hsquare]
  have hhasArgs : tile.hasArgs = true := hhas
  have hrowEq : tile.startRow = request.distributedStartRow := by
    rw [hstartRow, hreq]
    rfl
  have hcolEq : tile.startCol = request.distributedStartCol := by
    rw [hstartCol, hreq]
    rfl
  have hkeep : tile.args.keepRowsSeparate = e.join.args.keepRowsSeparate := by
    rw [htileArgs, e.runsMessage.keepRowsSeparate]
    rfl
  obtain ⟨blockA, hblockA, hlengthA⟩ := e.block htype (Or.inl rfl : Side.a = .a ∨ _)
  have hprofileA : getProfileSize request.profileA = some e.join.info.numCols := by
    rw [show request.profileA = _ from hblockA]
    exact congrArg some hlengthA
  have hwidthEq : (e.join.info.numCols : ℤ) = tile.width := by
    rw [hw, ht.width, hcols]
  unfold Job.acceptsResult
  dsimp only
  rw [hheight, hsizeA, hhasArgs, hstatus, hrowEq, hcolEq, hprofileA]
  simp only [Bool.not_true, Bool.false_eq_true, if_false, ne_eq, not_true_eq_false, Option.bind_eq_bind,
    Option.bind_some, hwidthEq, Option.pure_def]
  split
  · next hkeeps =>
      obtain ⟨blockB, hblockB, hlengthB⟩ := e.block htype (Or.inr (hkeep ▸ hkeeps) : Side.b = .a ∨ _)
      have hprofileB : getProfileSize request.profileB = some e.join.info.numRows := by
        rw [show request.profileB = _ from hblockB]
        exact congrArg some hlengthB
      rw [hprofileB, hh, ht.height, hrows]
      simp
  · rfl

/-- **The result of a running tile is merged**, if its profiles fit into those of the job. -/
theorem Execution.combined (hsub : Submitted J args)
    (hstart : start = (Job.sized args jobId profileA profileB).makeTiles) (ht : TileAt J start k row col height width)
    {request : SCAMPProto.SCAMPArgs ℝ} (e : Execution (start.message k) request)
    (htype : e.join.args.profileType = .oneNNIndex) {job : Job ℝ} (hk : k < job.tileCounter)
    (hid : int32 request.tileId = k) (hplace : (job.tiles k).place = (start.tiles k).place)
    (hgiven : (job.tiles k).given = ((start.tiles k).generateArgs start.jobArgs).1.given)
    (hstatus : (job.tiles k).status = .running) {jobArgs : SCAMPProto.SCAMPArgs ℝ}
    (hmerge : MergesTile start k request job.jobArgs jobArgs) (now : ℤ) :
    ∃ job', job.combineProfile request now = some (job', true) := by
  obtain ⟨-, -, -, hh, hw⟩ : _ ∧ _ ∧ _ ∧ _ ∧ _ := by
    simpa only [DistributedTile.place, Prod.mk.injEq] using hplace
  obtain ⟨-, hstartRow, hstartCol, htileArgs⟩ : _ ∧ _ ∧ _ ∧ _ := by
    simpa only [DistributedTile.given, Prod.mk.injEq] using hgiven
  have haccepted := e.accepted hsub hstart ht htype hplace hgiven hstatus
  have hmerged : mergeProfile (job.tiles k).args job.jobArgs request.profileA (uint64 (job.tiles k).startCol)
      (uint64 (job.tiles k).width) request.profileB (uint64 (job.tiles k).startRow)
      (uint64 (job.tiles k).height) = some jobArgs := by
    rw [htileArgs, hstartRow, hstartCol, hh, hw]
    exact hmerge
  unfold Job.combineProfile
  rw [hid, if_neg (by omega), Int.toNat_natCast]
  simp only [haccepted, hmerged, Option.bind_eq_bind, Option.bind_some, Bool.not_true, Bool.false_eq_true, if_false,
    Option.pure_def]
  exact ⟨_, rfl⟩

/-- A profile of a tile fits into one of the job. -/
theorem mergeTile_fits {tile full : SCAMPProto.Profile ℝ} {block : SCAMPProto.ProfileData ℝ}
    {entries : List (MpEntry ℝ)} {pos len : ℕ} (off : ℕ) (htile : tile = ⟨[block], .oneNNIndex⟩)
    (hfull : full = ⟨[.uint64 entries], .oneNNIndex⟩) (hfits : pos + len ≤ entries.length)
    (hlen : len ≤ block.uint64Value.length) : ∃ p', mergeTileIntoFullProfile tile pos len full off = some p' := by
  subst htile hfull
  exact ⟨_, congrArg (Option.map _) (if_pos ⟨hfits, hlen⟩)⟩

end

end Scamp
