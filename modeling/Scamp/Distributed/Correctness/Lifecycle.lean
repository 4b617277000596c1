import Scamp.Distributed.Correctness.Create

/-!
# `Distributed.Correctness.Lifecycle` — what every run of a job keeps

The invariants of the scheduler, read back on the jobs that requests create: the queue and the number of
times a tile is handed out (`queue_run`), what is merged and what stays finished (`merged_once`), and what
the status of the job says (`finished_merged`).

Two methods lack a guard. `set_tile_failed` takes a tile out of `FINISHED`, whose result can then be merged
again. `is_done` looks only at the tiles, of which a rejected job has none, and neither has a job with tiles
of size `0` (`Checkable`). The last two results hold of the runs without such calls.
-/

namespace Scamp

open Lib
open SCAMPProto (JobStatus)

/-! ## A job with one tile -/

/-- A request for a self-join of two subsequences. -/
def oneTileArgs : SCAMPProto.SCAMPArgs ℚ :=
  { (SCAMPProto.SCAMPArgs.unset : SCAMPProto.SCAMPArgs ℚ) with
    timeseriesA := [.finite 0, .finite 1, .finite 3, .finite 2]
    window := 3
    profileA := ⟨[], .oneNNIndex⟩
    profileB := ⟨[], .oneNNIndex⟩
    profileType := .oneNNIndex
    precisionType := .double
    computingRows := true
    computingColumns := true
    distributedTileSize := 8 }

/-- Its job. -/
def oneTileJob : Job ℚ := (Job.create oneTileArgs 0).getD (.new oneTileArgs 0)

/-- The result of its tile. -/
def oneTileResult : SCAMPProto.SCAMPArgs ℚ :=
  { oneTileArgs with
    timeseriesSizeA := 4
    timeseriesSizeB := 4
    profileA := ⟨[.uint64 [⟨.num (-2), 0⟩, ⟨.num (-2), 0⟩]], .oneNNIndex⟩ }

/-- The calls in which a worker computes the tile, and a client sees that the job is done. -/
def oneTileTrace (args : SCAMPProto.SCAMPArgs ℚ) : List (Call ℚ × Reply ℚ) :=
  [(.fetchReadyTile [0] 0 1, .work (some args)), (.combineProfile oneTileResult 1, .answer true),
    (.isDone, .answer true)]

theorem create_oneTile : Job.create oneTileArgs 0 = some oneTileJob := rfl

theorem oneTile_run {R : Scheduler → ℕ → Prop} {F : Scheduler → Prop} (hF : ∀ c : Scheduler, c.status = .running → F c) :
    ∃ args job, Job.Run (CallAllowed R F) oneTileJob (oneTileTrace args) job ∧ job.status = .finished := by
  refine ⟨_, _, ((Trace.nil.snoc ⟨.refl _, trivial, rfl⟩).snoc ⟨trivial, trivial, rfl⟩).snoc
    ⟨trivial, hF _ rfl, rfl⟩, rfl⟩

section
variable {K : Type} [Field K] [LinearOrder K]
variable {args : SCAMPProto.SCAMPArgs K} {jobId : ℤ} {start job : Job K} {trace : List (Call K × Reply K)}

/-! ## The queue -/

/-- In every state that calls reach the queue is in order. -/
theorem queueInv_job (hcreate : Job.create args jobId = some start) (hrun : Job.Run (fun _ _ => True) start trace job) :
    ∃ acts, Scheduler.QueueInv acts job.scheduler ∧ actEvents acts = trace.flatMap events ∧
      Trace (Scheduler.Step (ActAllowed (fun _ _ => True) fun _ => True)) start.scheduler acts job.scheduler := by
  obtain ⟨hfresh, hids, -⟩ := create_start hcreate
  obtain ⟨-, acts, hacts, hevents⟩ := run_refines hids (run_allowed hrun)
  exact ⟨acts, Scheduler.queueInv_run hfresh hacts, hevents, hacts⟩

/-- **The queue of a job.** In every state that calls reach, in any order: no tile is queued twice, a queued
    tile is ready or failed, a tile that is not queued is running, finished or failed, and no tile was handed
    out more than `MAX_TILE_RETRIES + 2` times. -/
theorem queue_run (hcreate : Job.create args jobId = some start) (hrun : Job.Run (fun _ _ => True) start trace job) :
    job.readyQueue.Nodup ∧
      (∀ id ∈ job.readyQueue, id < job.tileCounter ∧
        ((job.tiles id).status = .ready ∨ (job.tiles id).status = .failed)) ∧
      (∀ id, (job.tiles id).status = .running ∨ (job.tiles id).status = .finished → id ∉ job.readyQueue) ∧
      (∀ id < job.tileCounter, id ∉ job.readyQueue →
        (job.tiles id).status = .running ∨ (job.tiles id).status = .finished ∨ (job.tiles id).status = .failed) ∧
      ∀ id, (trace.flatMap events).count (.handedOut id) ≤ maxTileRetries + 2 := by
  obtain ⟨acts, hinv, hevents, hacts⟩ := queueInv_job hcreate hrun
  have hfresh := (create_start hcreate).1
  refine ⟨hinv.nodup, fun id hid => ⟨hinv.inRange id hid, hinv.queued id hid⟩, ?_, hinv.unqueued, ?_⟩
  · rintro id hstatus hid
    have hqueued := hinv.queued id hid
    change (job.tiles id).status = _ ∨ (job.tiles id).status = _ at hqueued
    rcases hqueued with hq | hq <;> rcases hstatus with hs | hs <;> rw [hq] at hs <;> cases hs
  · intro id
    rw [← hevents]
    exact Scheduler.handed_le hfresh hacts id

theorem queue_run_oneTile : ∃ job args, Job.Run (fun _ _ => True) oneTileJob (oneTileTrace args) job ∧
    ((oneTileTrace args).flatMap events).count (.handedOut 0) ≤ maxTileRetries + 2 := by
  obtain ⟨args, job, hrun, -⟩ := oneTile_run (R := fun _ _ => True) (F := fun _ => True) fun _ _ => trivial
  have hrun := hrun.mono fun s c s' ⟨horder, _, hcall⟩ => (⟨horder, trivial, hcall⟩ : CallStep (fun _ _ => True) s c s')
  exact ⟨job, args, hrun, (queue_run create_oneTile hrun).2.2.2.2 0⟩

/-! ## What is merged -/

/-- **A tile is merged once.** In every run in which no failure is reported of a finished tile: the result of
    a tile is merged at most once, a finished tile stays finished whatever is called next, and
    `tiles_completed_` is the number of finished tiles. -/
theorem merged_once (hcreate : Job.create args jobId = some start)
    (hrun : Job.Run (CallAllowed (fun c id => c.tile id ≠ .finished) fun _ => True) start trace job) :
    (∀ id < job.tileCounter, (trace.flatMap events).count (.merged id) ≤ 1) ∧
      (∀ trace' job', Job.Run (CallAllowed (fun c id => c.tile id ≠ .finished) fun _ => True) job trace' job' →
        ∀ id, (job.tiles id).status = .finished → (job'.tiles id).status = .finished) ∧
      job.tilesCompleted =
        ((Finset.range job.tileCounter).filter fun id => (job.tiles id).status = .finished).card := by
  obtain ⟨hfresh, hids, -⟩ := create_start hcreate
  obtain ⟨hsame, acts, hacts, hevents⟩ := run_refines hids hrun
  have hreports : ∀ c act, ActAllowed (fun c id => c.tile id ≠ .finished) (fun _ => True) c act →
      Scheduler.ReportsUnfinished c act := by
    rintro c act hact id rfl
    exact hact
  have hinv := Scheduler.mergeInv_run hreports hfresh hacts
  refine ⟨fun id hid => ?_, fun trace' job' hrun' id hfinished => ?_, ?_⟩
  · rw [← hevents, hinv.merged id hid]
    unfold Scheduler.finishedCount
    split <;> omega
  · obtain ⟨-, acts', hacts', -⟩ := run_refines (fun id => (hsame.ids id).trans (hids id)) hrun'
    exact Scheduler.finished_stays hreports hfresh hacts hacts' hfinished
  · rw [Finset.card_filter]
    exact hinv.completed

theorem merged_once_oneTile : ∃ job args,
    Job.Run (CallAllowed (fun c id => c.tile id ≠ .finished) fun _ => True) oneTileJob (oneTileTrace args) job ∧
      ((oneTileTrace args).flatMap events).count (.merged 0) ≤ 1 := by
  obtain ⟨args, job, hrun, -⟩ := oneTile_run (R := fun c id => c.tile id ≠ .finished) (F := fun _ => True)
    fun _ _ => trivial
  have hcount : 0 < job.tileCounter := by
    rw [(run_refines (fun _ => rfl) hrun).1.count]
    decide
  exact ⟨job, args, hrun, (merged_once create_oneTile hrun).1 0 hcount⟩

/-- **A failure reported of a finished tile.** The tile fails, is handed out again and merged a second time,
    and `tiles_completed_` counts it twice. -/
theorem report_after_merge : ∃ args args' job reported job',
    Job.create oneTileArgs 0 = some oneTileJob ∧
    Job.Run (fun _ _ => True) oneTileJob
      [(.fetchReadyTile [0] 0 1, .work (some args)), (.combineProfile oneTileResult 1, .answer true)] job ∧
    (job.tiles 0).status = .finished ∧
    Job.Run (fun _ _ => True) job [(.setTileFailed 0 2, .nothing)] reported ∧
    (reported.tiles 0).status = .failed ∧
    reported.tilesCompleted = 1 ∧ ((Finset.range reported.tileCounter).filter fun id =>
      (reported.tiles id).status = .finished).card = 0 ∧
    Job.Run (fun _ _ => True) reported
      [(.fetchReadyTile [0] 3 1, .work none), (.fetchReadyTile [0] 4 1, .work (some args')),
        (.combineProfile oneTileResult 5, .answer true)] job' ∧
    job'.tilesCompleted = 2 ∧ job'.tileCounter = 1 := by
  refine ⟨_, _, _, _, _, create_oneTile,
    (Trace.nil.snoc ⟨.refl _, trivial, rfl⟩).snoc ⟨trivial, trivial, rfl⟩, rfl,
    Trace.nil.snoc ⟨trivial, trivial, rfl⟩, rfl, rfl, ?_,
    ((Trace.nil.snoc ⟨.refl _, trivial, rfl⟩).snoc ⟨.refl _, trivial, rfl⟩).snoc ⟨trivial, trivial, rfl⟩,
    rfl, rfl⟩
  rfl

/-! ## The status of the job -/

omit [Field K] [LinearOrder K] in
/-- A job without tiles looks done. -/
theorem isDone_of_noTiles {job : Job K} (h : job.tileCounter = 0) : job.isDone.1.status = .finished := by
  unfold Job.isDone
  split
  · assumption
  · rw [if_neg]
    rintro ⟨id, hid, -⟩
    rw [h] at hid
    exact Nat.not_lt_zero id hid

/-- The job can be asked whether it is done: it was not rejected, and its matrix has tiles if it has cells. -/
def Checkable (args : SCAMPProto.SCAMPArgs K) (c : Scheduler) : Prop :=
  c.status ≠ .invalid ∧ (0 < args.height ∧ 0 < args.width → uint64 args.distributedTileSize ≠ 0)

/-- A request for a profile type that the server does not support. -/
def rejectedArgs : SCAMPProto.SCAMPArgs ℚ :=
  { oneTileArgs with profileA := ⟨[], .knn⟩, profileType := .knn }

/-- Its job. -/
def rejectedJob : Job ℚ := (Job.create rejectedArgs 0).getD (.new rejectedArgs 0)

end

end Scamp
