import Scamp.Distributed.Correctness.DistributedAb
import Scamp.Distributed.Correctness.SystemRun

/-!
# `Distributed.Correctness.DistributedResult` — what a client gets

A client of the distributed system calls `do_SCAMP_distributed` in place of `do_SCAMP`. If it gets a result,
it is that of the job the server made from its own request, of which all tiles were merged
(`client_fetches`), and for an AB-join the profiles have the values that the join has on a single machine
(`distributed_result`). This holds in every run of the system: with any number of workers and other clients,
failures of the transport, workers that stop, and results that are sent several times.
-/

namespace Scamp

open Lib
open SCAMPProto (JobStatus)

/-! ## A client of a system -/

/-- The tile of the join of four samples, handed out and merged. -/
theorem fourSample_merges : ∃ request jobArgs job, Nonempty (Execution (fourSampleJob.message 0) request) ∧
    request.jobId = 0 ∧ fourSampleJob.call (.fetchReadyTile [0] 0 1) =
        some (job, .work (some (fourSampleJob.message 0))) ∧
      job.combineProfile request 1 = some ({ job with jobArgs := jobArgs, tilesCompleted := 1 }.setTile 0
        { job.tiles 0 with status := .finished, endTime := 1 }, true) ∧
      ∃ args, convertProtoArgsToSCAMPArgs jobArgs fourSampleArgs = some args := by
  obtain ⟨request, job, hrun, hall⟩ := run_fourSample
  have hcollected := abCollected_run rfl rfl rfl submitted_fourSample create_fourSample hrun
  obtain ⟨fetched, hfetch, -, hhonest, hcombine⟩ := Trace.of_snoc [_] hrun
  obtain ⟨start, hnil, -, -, hfetch⟩ := Trace.of_snoc [] hfetch
  obtain rfl := hnil.of_nil
  obtain ⟨⟨job', merged⟩, hcombined, heq⟩ := Option.map_eq_some_iff.mp hcombine
  obtain ⟨rfl, hmerged⟩ := Prod.mk.inj heq
  obtain rfl := Reply.answer.inj hmerged
  have htile : fetched.tileCounter = 1 ∧ fetched.tilesCompleted = 0 ∧
      fetched.message 0 = fourSampleJob.message 0 := by
    obtain ⟨rfl, -⟩ := Prod.mk.inj (Option.some.inj hfetch)
    exact ⟨rfl, rfl, rfl⟩
  rcases combine_cases hcombined with ⟨hfalse, -⟩ | ⟨-, id, hid, htileId, -, jobArgs, hmerge, rfl⟩
  · cases hfalse
  · obtain rfl : id = 0 := by omega
    obtain ⟨e, -⟩ := hhonest ⟨_, hcombined⟩ 0 hid htileId
    rw [htile.2.2] at e
    rw [htile.2.1] at hcombined
    refine ⟨request, jobArgs, fetched, ⟨e⟩, ?_, hfetch, hcombined, ?_⟩
    · rw [e.request_eq]
      rfl
    · obtain ⟨⟨entriesA, hA, -⟩, hB⟩ := hcollected
      obtain ⟨entriesB, hB, -⟩ := hB rfl
      change jobArgs.profileA = _ at hA
      change jobArgs.profileB = _ at hB
      unfold convertProtoArgsToSCAMPArgs
      rw [hA, hB]
      cases jobArgs.keepRowsSeparate
      · exact ⟨_, rfl⟩
      · exact ⟨_, rfl⟩


theorem serves_oneTile {s : System ℝ} {server : Server ℝ} {n : ℕ} {h : Handler ℝ} {events : List (JobEvent ℝ)}
    (hh : s.server.handler n = some h) (hnext : h.next oneTileMoment n s.server = some (server, events))
    (horders : ∀ id call, .moved id call ∈ events → call.1.Orders (s.server.job id)) :
    System.Step s events { s with server := server } := .serves hh hnext horders

/-- The thread of a result finds its job. -/
theorem combiner_next {m : Moment} {n job : ℕ} {s : Server ℝ} {request : SCAMPProto.SCAMPArgs ℝ}
    (hfree : s.mutex = none) (hjob : job < s.jobs.count) (hkey : int32 (int32 request.jobId) = job) :
    (Handler.received (.scampCombiner request)).next m n s = some (s.goto n (.combining request job), []) := by
  simp only [Handler.next, Request.next, getJobThen, hfree, getJob_eq hjob hkey]
  rfl

/-- The thread of a result goes on when the result was combined. -/
theorem combining_next {m : Moment} {n job : ℕ} {s : Server ℝ} {request : SCAMPProto.SCAMPArgs ℝ} {job' : Job ℝ}
    {merged : Bool} (h : (s.job job).combineProfile request m.now = some (job', merged)) :
    (Handler.combining request job).next m n s = some ((s.setJob job job').goto n (.returned .result),
      [.moved job (.combineProfile request m.now, .answer merged)]) := by
  simp only [Handler.next, h, Option.map_some]

/-- A client asks for the join, a worker computes its tile, and the client gets the result. -/
theorem fourSample_returned : ∃ labels t, System.Run (K := ℝ) (fun _ => 1) (fun _ => (fourSampleArgs, 8)) labels t ∧
    (t.client 0).phase = .returned true := by
  obtain ⟨request, jobArgs, job, he, hjobId, hfetch, hcombine, args, hargs⟩ := fourSample_merges
  obtain ⟨rfl, -⟩ := Prod.mk.inj (Option.some.inj hfetch)
  have hconverted := Trace.nil.snoc (System.Step.asks (s := System.start (fun _ => 1) fun _ => (fourSampleArgs, 8))
    (i := 0) (@SCAMPInterface.Step.converts ℝ _ _ _ _ fourSampleRequest rfl rfl))
  have hissued := hconverted.snoc (System.Step.asks (i := 0) (.issues rfl))
  have hadded := ((hissued.snoc (serves_oneTile (n := 0) rfl rfl orders_added)).snoc
    (serves_oneTile (n := 0) (h := .added 0) rfl rfl orders_none)).snoc
      (serves_oneTile (n := 0) (h := .reporting 0 0) rfl rfl orders_none)
  have hpolling := hadded.snoc (System.Step.asks (i := 0) (@SCAMPInterface.Step.issued ℝ _ _ _ _ 0 0 .running rfl rfl))
  have hrequested := hpolling.snoc (System.Step.works (i := 0) (.requests rfl))
  have hhanded := ((hrequested.snoc (serves_oneTile (n := 1) rfl rfl orders_none)).snoc
    (serves_oneTile (n := 1) rfl rfl (by exact orders_one (.refl _)))).snoc
      (serves_oneTile (n := 1) rfl rfl (by exact orders_one (.refl _)))
  have hreceived := hhanded.snoc (System.Step.works (i := 0) (.receives rfl rfl))
  have hsaved := (hreceived.snoc (System.Step.works (i := 0) (.computes rfl he))).snoc
    (System.Step.works (i := 0) (.saves rfl rfl))
  have hmerging := (hsaved.snoc (System.Step.works (i := 0) (.begins rfl))).snoc
    (System.Step.works (i := 0) (.merges rfl rfl))
  have hkey : int32 (int32 request.jobId) = (0 : ℕ) := by
    rw [hjobId]
    rfl
  have hfound := hmerging.snoc (System.Step.serves (n := 2) (m := oneTileMoment) rfl
    (combiner_next rfl Nat.one_pos hkey) orders_none)
  have hcombined := hfound.snoc (System.Step.serves (n := 2) (m := { oneTileMoment with now := 1 }) rfl
    (combining_next hcombine) (by exact orders_one trivial))
  have hpolled := hcombined.snoc (System.Step.asks (i := 0) (.polls rfl))
  have hasked := ((hpolled.snoc (serves_oneTile (n := 3) rfl rfl orders_none)).snoc
    (serves_oneTile (n := 3) rfl rfl (by exact orders_one trivial))).snoc (serves_oneTile (n := 3) rfl rfl orders_none)
  have hdone := (hasked.snoc (System.Step.asks (i := 0)
    (@SCAMPInterface.Step.done ℝ _ _ _ _ 0 3 0 rfl rfl))).snoc (System.Step.asks (i := 0) (.fetches rfl))
  have hcopied := ((hdone.snoc (serves_oneTile (n := 4) rfl rfl orders_none)).snoc
    (serves_oneTile (n := 4) rfl rfl (by exact orders_one trivial))).snoc (serves_oneTile (n := 4) rfl rfl orders_none)
  have hfetched := hcopied.snoc (System.Step.asks (i := 0) (@SCAMPInterface.Step.fetched ℝ _ _ _ _ 0 4 (some jobArgs) rfl rfl))
  exact ⟨_, _, hfetched.snoc (System.Step.asks (i := 0) (.returns rfl hargs)), rfl⟩

section
variable {throughput : ℕ → ℤ} {labels : List (List (JobEvent ℝ))}

/-! ## Results at their place -/

/-- A result that is accepted names the place of its tile. -/
theorem accepts_place {K : Type} {tile : DistributedTile K} {request : SCAMPProto.SCAMPArgs K}
    (h : Job.acceptsResult tile request = some true) :
    uint64 tile.startRow = uint64 request.distributedStartRow ∧
      uint64 tile.startCol = uint64 request.distributedStartCol := by
  unfold Job.acceptsResult at h
  simp only [Option.bind_eq_bind, Option.pure_def] at h
  generalize (if request.hasB = true then uint64 (request.timeseriesSizeB - request.window + 1)
    else uint64 (request.timeseriesSizeA - request.window + 1)) = height at h
  iterate 4
    split at h
    · cases h
  split at h
  · cases h
  · next hrow =>
      split at h
      · cases h
      · next hcol => exact ⟨not_not.mp hrow, not_not.mp hcol⟩

variable {J : Join ℝ} {args : SCAMPProto.SCAMPArgs ℝ} {jobId : ℤ} {start job : Job ℝ}

/-- The place of a tile in its message. -/
theorem TileAt.message_place {k row col height width : ℕ} (ht : TileAt J start k row col height width) :
    (start.message k).distributedStartRow = row ∧ (start.message k).distributedStartCol = col :=
  ⟨ht.startRow, ht.startCol⟩

/-- **A result is merged at the place of its tile**, also where its tile id does not fit into an `int`: what
    workers compute from the messages of the tiles are honest results. -/
theorem honest_of_sent (hsub : Submitted J args) (htype : J.args.profileType = .oneNNIndex)
    (hcreate : Job.create args jobId = some start) {trace : List (Call ℝ × Reply ℝ)}
    (hrun : Job.Run SentByWorker start trace job) : Job.Run (HonestResults fun _ _ => True) start trace job := by
  obtain ⟨profileB, hstart, -⟩ := create_submitted hsub htype hcreate
  obtain ⟨-, hids, -⟩ := create_start hcreate
  refine hrun.strengthen ?_
  rintro trace s ⟨call, reply⟩ s' hbefore ⟨horder, hsent, hcall⟩
  refine ⟨horder, ?_, hcall⟩
  cases call with
  | combineProfile request now =>
      rintro ⟨job', hcombine⟩ k hk hid
      obtain ⟨k', hk', ⟨e⟩⟩ := hsent
      obtain ⟨hsame, -⟩ := run_refines hids (run_allowed hbefore)
      rw [hsame.count] at hk hk'
      rcases combine_cases hcombine with ⟨hfalse, -⟩ | ⟨-, id, -, hid', haccepted, -⟩
      · cases hfalse
      · obtain rfl : k = id := by exact_mod_cast hid.symm.trans hid'
        obtain ⟨row, col, height, width, ht⟩ := exists_tileAt hsub jobId _ profileB (hstart ▸ hk)
        obtain ⟨row', col', height', width', ht'⟩ := exists_tileAt hsub jobId _ profileB (hstart ▸ hk')
        rw [← hstart] at ht ht'
        -- the tile has arguments, and had none at the start
        have hgiven : (s.tiles k).given = ((start.tiles k).generateArgs start.jobArgs).1.given := by
          refine (hsame.given k).resolve_left fun hg => ?_
          have heq : (s.tiles k).hasArgs = (start.tiles k).hasArgs := congrArg Prod.fst hg
          rw [(accepts_cases haccepted).1, hstart] at heq
          cases heq
        obtain ⟨-, hrow, hcol, -⟩ : _ ∧ _ ∧ _ ∧ _ := by
          simpa only [DistributedTile.given, Prod.mk.injEq] using hgiven
        obtain ⟨hplaceRow, hplaceCol⟩ := accepts_place haccepted
        -- both tiles have the same first cell
        have hmessage : request.distributedStartRow = row' ∧ request.distributedStartCol = col' := by
          rw [← ht'.message_place.1, ← ht'.message_place.2, ← hsame.message, e.request_eq]
          exact ⟨rfl, rfl⟩
        rw [hrow, ht.startRow, hmessage.1] at hplaceRow
        rw [hcol, ht.startCol, hmessage.2] at hplaceCol
        have hrows : (J.info.numRows : ℤ) < 2 ^ 63 := hsub.height_eq ▸ height_lt args
        have hcols : (J.info.numCols : ℤ) < 2 ^ 63 := hsub.width_eq ▸ int64_lt _
        obtain ⟨⟨hh, hr⟩, hw, hc⟩ := And.intro ht.rows ht.cols
        obtain ⟨⟨hh', hr'⟩, hw', hc'⟩ := And.intro ht'.rows ht'.cols
        rw [uint64_natCast (by omega), uint64_natCast (by omega)] at hplaceRow hplaceCol
        obtain rfl : k = k' := TileAt.unique hsub hstart hk hk' ht ht' (i := row) (j := col) (by omega) (by omega)
        exact ⟨e, trivial⟩
  | _ => trivial

/-! ## What a client gets -/

section
variable {K : Type} [Field K] [LinearOrder K] [HasSqrt K]

/-- **What a client gets.** In every run of the system, a client that has returned either has its request back,
    or the final arguments of a job that the server made from its request: the job is finished, what was
    combined into it was computed by workers from the messages of its tiles, and if the server accepted the
    request, every tile was merged. -/
theorem client_fetches {throughput : ℕ → ℤ} {input : ℕ → HostArgs K × ℤ} {labels : List (List (JobEvent K))}
    {t : System K} (hrun : System.Run throughput input labels t) {i : ℕ} {fetched : Bool}
    (hreturned : (t.client i).phase = .returned fetched) :
    ∃ request, jobRequest (input i).1 (input i).2 = some request ∧
      (fetched = false → convertProtoArgsToSCAMPArgs request (input i).1 = some (t.client i).args) ∧
      (fetched = true → ∃ (id : ℕ) (start : Job K), .added id request ∈ labels.flatten ∧ Job.create request id = some start ∧
        Job.Run SentByWorker start (stepsOf id labels.flatten) (t.server.job id) ∧
        (t.server.job id).status = .finished ∧
        (start.status ≠ .invalid → ∀ k < start.tileCounter, .merged k ∈ (stepsOf id labels.flatten).flatMap events) ∧
        convertProtoArgsToSCAMPArgs (t.server.job id).jobArgs (input i).1 = some (t.client i).args) := by
  have hknows := (systemInv_run hrun).clients i
  rw [hreturned] at hknows
  obtain ⟨result, hconverts, hargs⟩ := hknows
  cases fetched with
  | false => exact ⟨result, hconverts, fun _ => hargs, nofun⟩
  | true =>
      obtain ⟨id, request, ⟨hrequest, hadded⟩, hfinished, rfl⟩ := hconverts
      obtain ⟨start, hcreate, hjob⟩ := system_job hrun hadded
      exact ⟨request, hrequest, nofun, fun _ => ⟨id, start, hadded, hcreate, hjob, hfinished,
        fun haccepted => merged_of_finished hcreate hjob haccepted hfinished, hargs⟩⟩

end

theorem client_fetches_fourSample : ∃ labels t id, ∃ start : Job ℝ,
    System.Run (K := ℝ) (fun _ => 1) (fun _ => (fourSampleArgs, 8)) labels t ∧
      (t.server.job id).status = .finished ∧
        (start.status ≠ .invalid → ∀ k < start.tileCounter, .merged k ∈ (stepsOf id labels.flatten).flatMap events) := by
  obtain ⟨labels, t, hrun, hreturned⟩ := fourSample_returned
  obtain ⟨request, -, -, hfetched⟩ := client_fetches hrun hreturned
  obtain ⟨id, start, -, -, -, hfinished, hmerged, -⟩ := hfetched rfl
  exact ⟨labels, t, id, start, hrun, hfinished, hmerged⟩

/-! ## AB-joins -/

/-- The profile in memory. -/
def HostArgs.profile {K : Type} (args : HostArgs K) : Side → HostProfile K
  | .a => args.profileA
  | .b => args.profileB

/-- A client that asks for the join: the profiles come without data, and the series and the tile size fit into
    their fields. -/
structure AsksFor (J : Join ℝ) (input : HostArgs ℝ × ℤ) : Prop where
  join : J.args = input.1.toArgs
  profiles : input.1.profileA.data = [] ∧ input.1.profileB.data = []
  tileSize : 1 ≤ input.2 ∧ input.2 < 2 ^ 63
  series : input.1.timeseriesA.length < 2 ^ 31 ∧ input.1.timeseriesB.length < 2 ^ 31

/-- Its request. -/
theorem AsksFor.submitted {input : HostArgs ℝ × ℤ} (h : AsksFor J input) (hrequest : jobRequest input.1 input.2 = some args) :
    Submitted J args := by
  obtain ⟨proto, hproto, rfl⟩ := Option.map_eq_some_iff.mp hrequest
  have hseries : proto.timeseriesA = input.1.timeseriesA ∧ proto.timeseriesB = input.1.timeseriesB := by
    unfold convertSCAMPArgsToProtoArgs at hproto
    rw [convert_of_noData h.profiles.1, convert_of_noData h.profiles.2] at hproto
    obtain rfl := Option.some.inj hproto
    exact ⟨rfl, rfl⟩
  refine ⟨⟨input.1, proto, input.2, h.join, hproto, rfl, h.profiles.1, h.profiles.2⟩, h.tileSize.1, h.tileSize.2, ?_, ?_⟩
  · show proto.timeseriesA.length < _
    rw [hseries.1]
    exact h.series.1
  · show proto.timeseriesB.length < _
    rw [hseries.2]
    exact h.series.2

/-- What the profiles of a job hold once all its tiles are merged. -/
theorem collected_all (hab : J.args.hasB = true) (hna : J.args.isAligned = false)
    (htype : J.args.profileType = .oneNNIndex) (hsub : Submitted J args) (hcreate : Job.create args jobId = some start)
    {trace : List (Call ℝ × Reply ℝ)} (hrun : Job.Run SentByWorker start trace job)
    (hall : ∀ k < start.tileCounter, .merged k ∈ trace.flatMap events) {side : Side}
    (hside : side = .a ∨ J.args.keepRowsSeparate = true) :
    Collected (sideSize J side) (fun k j => ((sideCell side k j).1 < J.info.numRows ∧
      (sideCell side k j).2 < J.info.numCols) ∧ J.ValidCell (sideCell side k j).1 (sideCell side k j).2)
      (fun k j => J.pearson (sideCell side k j).1 (sideCell side k j).2) (job.jobArgs.profile side) := by
  obtain ⟨profileB, hstart, -⟩ := create_submitted hsub htype hcreate
  have hcollected := abCollected_run hab hna htype hsub hcreate (honest_of_sent hsub htype hcreate hrun)
  have hmerged : CollectedSide J start (fun k => .merged k ∈ trace.flatMap events) side (sideSize J side)
      (job.jobArgs.profile side) := by
    cases side with
    | a => exact hcollected.1
    | b => exact hcollected.2 (hside.resolve_left nofun)
  exact hmerged.congr fun k _ j => (mergedCell_all hsub hab hstart hall (sideCell side k j)).symm

/-- A profile comes out of the message as it is. -/
theorem converted_profile {proto : SCAMPProto.SCAMPArgs ℝ} {fresh args : HostArgs ℝ}
    (h : convertProtoArgsToSCAMPArgs proto fresh = some args) {side : Side}
    (hside : side = .a ∨ proto.keepRowsSeparate = true) {entries : List (MpEntry ℝ)}
    (hprofile : proto.profile side = ⟨[.uint64 entries], .oneNNIndex⟩) :
    args.profile side = ⟨.oneNNIndex, [{ ProfileData.empty with uint64Value := entries }]⟩ := by
  unfold convertProtoArgsToSCAMPArgs at h
  simp only [Option.bind_eq_bind, Option.pure_def] at h
  obtain ⟨profileA, hA, h⟩ := Option.bind_eq_some_iff.mp h
  cases side with
  | a =>
      change proto.profileA = _ at hprofile
      rw [hprofile] at hA
      obtain rfl := Option.some.inj hA
      split at h
      all_goals
        obtain ⟨profileB, -, h⟩ := Option.bind_eq_some_iff.mp h
        obtain rfl := Option.some.inj h
        rfl
  | b =>
      rw [if_pos (hside.resolve_left nofun)] at h
      obtain ⟨profileB, hB, h⟩ := Option.bind_eq_some_iff.mp h
      obtain rfl := Option.some.inj h
      change proto.profileB = _ at hprofile
      rw [hprofile] at hB
      exact (Option.some.inj hB).symm

/-- **A distributed AB-join.** In every run of the system: if a client that asks for an AB-join, not aligned,
    of type `PROFILE_TYPE_1NN_INDEX` returns with a result, every entry of its `profile_a`, and of its
    `profile_b` if the rows are kept, has the value that the join has on a single machine. It is the best of
    the correlations with its partners and holds the position of one that attains it. -/
theorem distributed_result (hab : J.args.hasB = true) (hna : J.args.isAligned = false)
    (htype : J.args.profileType = .oneNNIndex) {input : ℕ → HostArgs ℝ × ℤ} {t : System ℝ}
    (hrun : System.Run throughput input labels t) {i : ℕ} (hasks : AsksFor J (input i))
    (hreturned : (t.client i).phase = .returned true) {bld : Build ℝ} {memory : ℕ → Tile ℝ} {s : OpState ℝ}
    (hsingle : J.Run bld memory s) (hend : J.Returned s) {side : Side}
    (hside : side = .a ∨ J.args.keepRowsSeparate = true) :
    ∃ entries, (t.client i).args.profile side = ⟨.oneNNIndex, [{ ProfileData.empty with uint64Value := entries }]⟩ ∧
      entries.length = sideSize J side ∧ ∀ k < sideSize J side, ∃ e, entries[k]? = some e ∧
        e.value = ((s.shared.profile side).data.get k).value ∧
        NearestEntry .oneNNIndex
          (fun j => ((sideCell side k j).1 < J.info.numRows ∧ (sideCell side k j).2 < J.info.numCols) ∧
            J.ValidCell (sideCell side k j).1 (sideCell side k j).2)
          (fun j => J.pearson (sideCell side k j).1 (sideCell side k j).2) e := by
  have hknows := (systemInv_run hrun).clients i
  rw [hreturned] at hknows
  obtain ⟨_, ⟨id, request, ⟨hrequest, hadded⟩, hfinished, rfl⟩, hargs⟩ := hknows
  obtain ⟨start, hcreate, hjob⟩ := system_job hrun hadded
  have hsub := hasks.submitted hrequest
  obtain ⟨profileB, hstart, -⟩ := create_submitted hsub htype hcreate
  have haccepted : start.status ≠ .invalid := by
    rw [hstart]
    exact JobStatus.noConfusion
  have hall := merged_of_finished hcreate hjob haccepted hfinished
  obtain ⟨entries, hprofile, hlength, hentries⟩ := collected_all hab hna htype hsub hcreate hjob hall hside
  -- the job keeps the rows where the join does
  have hkeep : (t.server.job id).jobArgs.keepRowsSeparate = J.args.keepRowsSeparate := by
    have hsame := (run_refines (create_start hcreate).2.1 (run_allowed hjob)).1
    have hset : (t.server.job id).jobArgs.settings.keepRowsSeparate = start.jobArgs.settings.keepRowsSeparate := by
      rw [hsame.settings]
    rw [show (t.server.job id).jobArgs.keepRowsSeparate = _ from hset, hstart]
    exact hsub.requested.keepRowsSeparate
  refine ⟨entries, converted_profile hargs (hkeep ▸ hside) hprofile, hlength, fun k hk =>
    ⟨entries.getD k (allocEntry .oneNNIndex), ?_, ?_, hentries k hk⟩⟩
  · rw [List.getD_eq_getElem?_getD, List.getElem?_eq_getElem (hlength ▸ hk)]
    rfl
  · have hjoin := (abJoin_entry hab htype hsingle hend ((computed_ab hab htype).mpr hside) k).congr
      (fun j => and_congr_left' (mem_comparedCells_abJoin (unrollWid_pos bld) hab hna).symm) fun _ _ => rfl
    exact (hentries k hk).value_eq hjoin

end

theorem distributed_result_fourSample : ∃ labels t s,
    System.Run (K := ℝ) (fun _ => 1) (fun _ => (fourSampleArgs, 8)) labels t ∧ (t.client 0).phase = .returned true ∧
    fourSampleJoin.Run scanBuild (fun _ => zeroTile) s ∧ fourSampleJoin.Returned s ∧ ∃ entries,
      (t.client 0).args.profile .b = ⟨.oneNNIndex, [{ ProfileData.empty with uint64Value := entries }]⟩ ∧
      entries.length = 2 ∧ ∀ k < 2, ∃ e, entries[k]? = some e ∧ e.value = (s.shared.profileB.data.get k).value := by
  obtain ⟨labels, t, hrun, hreturned⟩ := fourSample_returned
  have hinit : StateOK fourSampleJoin scanBuild (fourSampleJoin.initState fun _ => zeroTile) := stateOK_init rfl _
  obtain ⟨s, hsingle, hend⟩ := runs_return rfl (Or.inl rfl) hinit
  have hasks : AsksFor fourSampleJoin (fourSampleArgs, 8) := ⟨rfl, ⟨rfl, rfl⟩, by norm_num, by decide⟩
  obtain ⟨entries, hprofile, hlength, hentries⟩ :=
    distributed_result rfl rfl rfl hrun hasks hreturned hsingle hend (Or.inr rfl : Side.b = .a ∨ _)
  refine ⟨labels, t, s, hrun, hreturned, hsingle, hend, entries, hprofile, hlength, fun k hk => ?_⟩
  obtain ⟨e, he, hvalue, -⟩ := hentries k hk
  exact ⟨e, he, hvalue⟩

end Scamp
