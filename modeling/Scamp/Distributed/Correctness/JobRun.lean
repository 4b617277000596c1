import Scamp.Distributed.Scheduler

/-!
# `Distributed.Correctness.JobRun` — every run of a job

Each method of a job is a sequence of acts of the scheduler (`call_match`), so that what holds of every run
of the scheduler holds of every run of the job (`run_refines`).
-/

namespace Scamp

open Lib
open SCAMPProto (JobStatus)

section
variable {K : Type}

/-- The scheduling half of a job. -/
def Job.scheduler (job : Job K) : Scheduler where
  status := job.status
  count := job.tileCounter
  queue := job.readyQueue
  tile id := (job.tiles id).status
  retries id := (job.tiles id).retries
  completed := job.tilesCompleted

/-- Conditions on the reports of failed tiles and on the check whether a job is done, on calls. -/
def CallAllowed (R : Scheduler → ℕ → Prop) (F : Scheduler → Prop) (job : Job K) : Call K → Prop
  | .setTileFailed tileId _ => tileId < job.tileCounter ∧ 0 ≤ tileId → R job.scheduler tileId.toNat
  | .isDone => F job.scheduler
  | _ => True

/-- The same conditions on acts. -/
def ActAllowed (R : Scheduler → ℕ → Prop) (F : Scheduler → Prop) (c : Scheduler) : Act → Prop
  | .report id => R c id
  | .finish => F c
  | _ => True

/-- The place of a tile in the distance matrix, and its id. -/
def DistributedTile.place (tile : DistributedTile K) : ℕ × ℕ × ℕ × ℤ × ℤ :=
  (tile.tileId, tile.tileRow, tile.tileCol, tile.height, tile.width)

/-- The arguments a tile was given, if any. -/
def DistributedTile.given (tile : DistributedTile K) : Bool × ℤ × ℤ × SCAMPProto.SCAMPArgs K :=
  (tile.hasArgs, tile.startRow, tile.startCol, tile.args)

/-- The arguments of a job without its profiles. -/
def SCAMPProto.SCAMPArgs.settings (args : SCAMPProto.SCAMPArgs K) : SCAMPProto.SCAMPArgs K :=
  { args with profileA := ⟨[], .invalid⟩, profileB := ⟨[], .invalid⟩ }

/-- `generate_args` reads the place of the tile and the settings of the job. -/
theorem generateArgs_congr [Zero K] {tile tile' : DistributedTile K} {args args' : SCAMPProto.SCAMPArgs K}
    (hplace : tile'.place = tile.place) (hsettings : args'.settings = args.settings) :
    (tile'.generateArgs args').1.given = (tile.generateArgs args).1.given ∧
      (tile'.generateArgs args').2 = (tile.generateArgs args).2 := by
  obtain ⟨hid, hrow, hcol, hheight, hwidth⟩ : _ ∧ _ ∧ _ ∧ _ ∧ _ := by
    simpa only [DistributedTile.place, Prod.mk.injEq] using hplace
  have hread : ∀ (tile : DistributedTile K) args, (tile.generateArgs args).1.given =
      (tile.generateArgs args.settings).1.given ∧ (tile.generateArgs args).2 =
        (tile.generateArgs args.settings).2 := fun _ _ => ⟨rfl, rfl⟩
  rw [(hread tile' args').1, (hread tile args).1, (hread tile' args').2, (hread tile args).2, hsettings]
  unfold DistributedTile.generateArgs DistributedTile.given
  rw [hid, hrow, hcol, hheight, hwidth]
  exact ⟨rfl, rfl⟩

section
variable [Zero K]

/-- What no call changes: the tiles of the matrix and the settings of the job. A tile may be given its
    arguments. -/
structure SameTiles (job job' : Job K) : Prop where
  jobId : job'.jobId = job.jobId
  count : job'.tileCounter = job.tileCounter
  size : job'.distributedTileSize = job.distributedTileSize
  settings : job'.jobArgs.settings = job.jobArgs.settings
  place : ∀ id, (job'.tiles id).place = (job.tiles id).place
  given : ∀ id, (job'.tiles id).given = (job.tiles id).given ∨
    (job'.tiles id).given = ((job.tiles id).generateArgs job.jobArgs).1.given

theorem SameTiles.refl (job : Job K) : SameTiles job job :=
  ⟨rfl, rfl, rfl, rfl, fun _ => rfl, fun _ => Or.inl rfl⟩

theorem SameTiles.trans {job job' job'' : Job K} (h : SameTiles job job') (h' : SameTiles job' job'') :
    SameTiles job job'' where
  jobId := h'.jobId.trans h.jobId
  count := h'.count.trans h.count
  size := h'.size.trans h.size
  settings := h'.settings.trans h.settings
  place id := (h'.place id).trans (h.place id)
  given id := by
    rcases h'.given id with hg | hg
    · rw [hg]
      exact h.given id
    · right
      rw [hg]
      exact (generateArgs_congr (h.place id) h.settings).1

theorem SameTiles.ids {job job' : Job K} (h : SameTiles job job') (id : ℕ) :
    (job'.tiles id).tileId = (job.tiles id).tileId :=
  congrArg Prod.fst (h.place id)

/-- The settings, the status and the queue do not belong to the tiles. -/
theorem SameTiles.of_tiles {job job' : Job K} (hid : job'.jobId = job.jobId)
    (hcount : job'.tileCounter = job.tileCounter) (hsize : job'.distributedTileSize = job.distributedTileSize)
    (hsettings : job'.jobArgs.settings = job.jobArgs.settings)
    (htiles : ∀ id, (job'.tiles id).place = (job.tiles id).place ∧ (job'.tiles id).given = (job.tiles id).given) :
    SameTiles job job' :=
  ⟨hid, hcount, hsize, hsettings, fun id => (htiles id).1, fun id => Or.inl (htiles id).2⟩

theorem sameTiles_setTile {job : Job K} {id : ℕ} {tile : DistributedTile K}
    (hplace : tile.place = (job.tiles id).place)
    (hgiven : tile.given = (job.tiles id).given ∨ tile.given = ((job.tiles id).generateArgs job.jobArgs).1.given) :
    SameTiles job (job.setTile id tile) where
  jobId := rfl
  count := rfl
  size := rfl
  settings := rfl
  place k := by
    by_cases hk : k = id
    · subst hk
      simpa [Job.setTile] using hplace
    · simp [Job.setTile, hk]
  given k := by
    by_cases hk : k = id
    · subst hk
      simpa [Job.setTile] using hgiven
    · left
      simp [Job.setTile, hk]

end

/-- The scheduler after a change of one tile. -/
theorem scheduler_setTile (job : Job K) (id : ℕ) (tile : DistributedTile K) :
    (job.setTile id tile).scheduler =
      { job.scheduler with
        tile := Function.update job.scheduler.tile id tile.status
        retries := Function.update job.scheduler.retries id tile.retries } := by
  unfold Job.scheduler Job.setTile
  congr 1
  · funext k
    by_cases hk : k = id
    · simp [hk]
    · simp [hk]
  · funext k
    by_cases hk : k = id
    · simp [hk]
    · simp [hk]

/-- Retrying a tile is the act of that name. -/
theorem scheduler_retryTile (job : Job K) (now : ℤ) (id : ℕ) :
    (job.retryTile now id).scheduler = job.scheduler.step (.retry id) := by
  have hset := scheduler_setTile job id { job.tiles id with
    retries := (job.tiles id).retries + 1, startTime := now, endTime := intMax }
  have hstatus : Function.update job.scheduler.tile id (job.tiles id).status = job.scheduler.tile :=
    Function.update_eq_self _ _
  simp only [hstatus] at hset
  exact congrArg (fun c : Scheduler => { c with queue := job.readyQueue ++ [id] }) hset

theorem sameTiles_retryTile [Zero K] (job : Job K) (now : ℤ) (id : ℕ) :
    SameTiles job (job.retryTile now id) := by
  have hset : SameTiles job (job.setTile id { job.tiles id with
      retries := (job.tiles id).retries + 1, startTime := now, endTime := intMax }) :=
    sameTiles_setTile rfl (Or.inl rfl)
  exact hset.trans (.of_tiles rfl rfl rfl rfl fun _ => ⟨rfl, rfl⟩)

section
variable [Field K] {R : Scheduler → ℕ → Prop} {F : Scheduler → Prop}

/-- **`cleanup_failed_tiles`** queues tiles again one by one, and may give the job up. -/
theorem cleanup_match (now : ℤ) (order : List ℕ) (job : Job K) (hnodup : order.Nodup)
    (horder : ∀ id ∈ order, id < job.tileCounter ∧ id ∉ job.readyQueue) (hstatus : job.status = .running) :
    (∃ acts, Trace (Scheduler.Step (ActAllowed R F)) job.scheduler acts
        (job.cleanupFailedTiles now order).1.scheduler ∧ actEvents acts = []) ∧
      SameTiles job (job.cleanupFailedTiles now order).1 := by
  induction order generalizing job with
  | nil => exact ⟨⟨[], .nil, rfl⟩, .refl job⟩
  | cons id order ih =>
      obtain ⟨hid, hnot⟩ := horder id List.mem_cons_self
      obtain ⟨hfresh, hnodup⟩ := List.nodup_cons.mp hnodup
      have hrest : ∀ k ∈ order, k < job.tileCounter ∧ k ∉ job.readyQueue :=
        fun k hk => horder k (List.mem_cons_of_mem _ hk)
      unfold Job.cleanupFailedTiles
      split
      · next hfailed =>
          have htile : job.scheduler.Failed id := ⟨hid, hnot, hfailed⟩
          split
          · next hretries =>
              refine ⟨⟨[.giveUp id], .single ⟨⟨hstatus, htile, hretries⟩, trivial, rfl⟩, rfl⟩, ?_⟩
              exact .of_tiles rfl rfl rfl rfl fun _ => ⟨rfl, rfl⟩
          · next hretries =>
              have hstep : Scheduler.Step (ActAllowed R F) job.scheduler (.retry id)
                  (job.retryTile now id).scheduler :=
                ⟨⟨htile, Nat.not_lt.mp hretries⟩, trivial, scheduler_retryTile job now id⟩
              -- the tile just queued does not come again
              have hrest' : ∀ k ∈ order, k < job.tileCounter ∧ k ∉ job.readyQueue ++ [id] := by
                intro k hk
                refine ⟨(hrest k hk).1, fun hmem => ?_⟩
                rcases List.mem_append.mp hmem with hmem | hmem
                · exact (hrest k hk).2 hmem
                · exact hfresh (List.mem_singleton.mp hmem ▸ hk)
              obtain ⟨⟨acts, hacts, hevents⟩, hsame⟩ := ih (job.retryTile now id) hnodup hrest' hstatus
              refine ⟨⟨.retry id :: acts, (Trace.single hstep).append hacts, ?_⟩, ?_⟩
              · simpa [actEvents, Act.events] using hevents
              · exact (sameTiles_retryTile job now id).trans hsame
      · exact ih job hnodup hrest hstatus

/-- Handing out the first tile of the queue. -/
theorem handOut_match {job job' : Job K} {now throughput : ℤ} {args : Option (SCAMPProto.SCAMPArgs K)}
    (hids : ∀ id, (job.tiles id).tileId = id) (h : job.handOut now throughput = some (job', args)) :
    ∃ id, Scheduler.Step (ActAllowed R F) job.scheduler (.handOut id) job'.scheduler ∧ SameTiles job job' ∧
      ∃ a, args = some a ∧ a.tileId.toNat = id := by
  unfold Job.handOut at h
  split at h
  · cases h
  · next id rest hqueue =>
      split at h
      · cases h
      · obtain ⟨rfl, rfl⟩ := Prod.mk.inj (Option.some.inj h)
        refine ⟨id, ⟨⟨rest, hqueue⟩, trivial, ?_⟩, ?_, _, rfl, ?_⟩
        · rw [scheduler_setTile]
          have hretries : Function.update job.scheduler.retries id (job.tiles id).retries =
              job.scheduler.retries := Function.update_eq_self _ _
          have htail : job.scheduler.queue.tail = rest := by
            show job.readyQueue.tail = rest
            rw [hqueue]
            rfl
          unfold Scheduler.step
          rw [htail]
          exact congrArg (fun r => { job.scheduler with
            queue := rest, tile := Function.update job.scheduler.tile id .running, retries := r }) hretries
        · refine SameTiles.trans ?_ (sameTiles_setTile rfl (Or.inr rfl))
          exact .of_tiles rfl rfl rfl rfl fun _ => ⟨rfl, rfl⟩
        · exact (congrArg Int.toNat (congrArg Nat.cast (hids id))).trans (Int.toNat_natCast id)

/-- `fetch_ready_tile`: it may clean up, and it may hand out a tile. -/
theorem fetch_match {job job' : Job K} {order : List ℕ} {now throughput : ℤ}
    {args : Option (SCAMPProto.SCAMPArgs K)} (hids : ∀ id, (job.tiles id).tileId = id)
    (horder : order.Perm (List.range job.tileCounter))
    (h : job.fetchReadyTile order now throughput = some (job', args)) :
    (∃ acts, Trace (Scheduler.Step (ActAllowed R F)) job.scheduler acts job'.scheduler ∧
      actEvents acts = events (.fetchReadyTile order now throughput, .work args)) ∧ SameTiles job job' := by
  unfold Job.fetchReadyTile at h
  split at h
  · obtain ⟨rfl, rfl⟩ := Prod.mk.inj (Option.some.inj h)
    exact ⟨⟨[], .nil, rfl⟩, .refl job⟩
  · next hrunning =>
      have hstatus := not_not.mp hrunning
      split at h
      · next hempty =>
          have hnil := List.isEmpty_iff.mp hempty
          have hnodup : order.Nodup := horder.nodup_iff.mpr List.nodup_range
          have hmem : ∀ id ∈ order, id < job.tileCounter ∧ id ∉ job.readyQueue := fun id hid =>
            ⟨List.mem_range.mp (horder.subset hid), hnil ▸ List.not_mem_nil⟩
          obtain ⟨⟨acts, hacts, hevents⟩, hsame⟩ := cleanup_match (R := R) (F := F) now order job hnodup hmem hstatus
          dsimp only at h
          split at h
          · obtain ⟨rfl, rfl⟩ := Prod.mk.inj (Option.some.inj h)
            exact ⟨⟨acts, hacts, hevents⟩, hsame⟩
          · obtain ⟨id, hstep, hsame', a, rfl, ha⟩ := handOut_match (R := R) (F := F)
              (fun id => (hsame.ids id).trans (hids id)) h
            refine ⟨⟨acts ++ [.handOut id], hacts.snoc hstep, ?_⟩, hsame.trans hsame'⟩
            rw [Scheduler.actEvents_append, hevents, List.nil_append]
            simp [Act.events, events, ha]
      · obtain ⟨id, hstep, hsame, a, rfl, ha⟩ := handOut_match (R := R) (F := F) hids h
        refine ⟨⟨[.handOut id], .single hstep, ?_⟩, hsame⟩
        simp [actEvents, Act.events, events, ha]

/-- `has_work` may clean up. -/
theorem hasWork_match {job : Job K} {order : List ℕ} {now : ℤ}
    (horder : order.Perm (List.range job.tileCounter)) :
    (∃ acts, Trace (Scheduler.Step (ActAllowed R F)) job.scheduler acts (job.hasWork order now).1.scheduler ∧
      actEvents acts = []) ∧ SameTiles job (job.hasWork order now).1 := by
  unfold Job.hasWork
  split
  · next hstatus =>
      split
      · next hempty =>
          have hnil := List.isEmpty_iff.mp hempty
          exact cleanup_match now order job (horder.nodup_iff.mpr List.nodup_range)
            (fun id hid => ⟨List.mem_range.mp (horder.subset hid), hnil ▸ List.not_mem_nil⟩) hstatus
      · exact ⟨⟨[], .nil, rfl⟩, .refl job⟩
  · exact ⟨⟨[], .nil, rfl⟩, .refl job⟩

omit [Field K] in
/-- A result is taken only for a running tile, which was given its arguments. -/
theorem accepts_cases {tile : DistributedTile K} {request : SCAMPProto.SCAMPArgs K}
    (h : Job.acceptsResult tile request = some true) : tile.hasArgs = true ∧ tile.status = .running := by
  unfold Job.acceptsResult at h
  simp only [Option.bind_eq_bind, Option.pure_def] at h
  split at h
  · cases h
  · next hargs =>
      split at h
      · cases h
      · next hstatus => exact ⟨by simpa using hargs, not_not.mp hstatus⟩

variable [LinearOrder K]

/-- **What `CombineProfile` does**: it refuses the result and changes nothing, or it merges the result of a
    running tile. -/
theorem combine_cases {job job' : Job K} {request : SCAMPProto.SCAMPArgs K} {now : ℤ} {merged : Bool}
    (h : job.combineProfile request now = some (job', merged)) :
    (merged = false ∧ job' = job) ∨
      (merged = true ∧ ∃ id < job.tileCounter, int32 request.tileId = id ∧
        Job.acceptsResult (job.tiles id) request = some true ∧
        ∃ jobArgs, mergeProfile (job.tiles id).args job.jobArgs request.profileA
            (uint64 (job.tiles id).startCol) (uint64 (job.tiles id).width) request.profileB
            (uint64 (job.tiles id).startRow) (uint64 (job.tiles id).height) = some jobArgs ∧
          job' = { job with jobArgs := jobArgs, tilesCompleted := job.tilesCompleted + 1 }.setTile id
            { job.tiles id with status := .finished, endTime := now }) := by
  unfold Job.combineProfile at h
  simp only [Option.bind_eq_bind, Option.pure_def] at h
  split at h
  · obtain ⟨rfl, rfl⟩ := Prod.mk.inj (Option.some.inj h)
    exact Or.inl ⟨rfl, rfl⟩
  · next hrange =>
      push Not at hrange
      obtain ⟨hpos, hlt⟩ := hrange
      have hid : int32 request.tileId = ((int32 request.tileId).toNat : ℕ) := (Int.toNat_of_nonneg hpos).symm
      obtain ⟨accepted, haccepted, h⟩ := Option.bind_eq_some_iff.mp h
      cases accepted with
      | false =>
          obtain ⟨rfl, rfl⟩ := Prod.mk.inj (Option.some.inj h)
          exact Or.inl ⟨rfl, rfl⟩
      | true =>
          obtain ⟨jobArgs, hmerge, h⟩ := Option.bind_eq_some_iff.mp h
          obtain ⟨rfl, rfl⟩ := Prod.mk.inj (Option.some.inj h)
          exact Or.inr ⟨rfl, (int32 request.tileId).toNat, by omega, hid, haccepted, jobArgs, hmerge, rfl⟩

/-- A merge changes nothing but the profiles. -/
theorem mergeProfile_settings {tileArgs jobArgs jobArgs' : SCAMPProto.SCAMPArgs K}
    {aTile bTile : SCAMPProto.Profile K} {colPos width rowPos height : ℕ}
    (h : mergeProfile tileArgs jobArgs aTile colPos width bTile rowPos height = some jobArgs') :
    ∃ profileA profileB, jobArgs' = { jobArgs with profileA := profileA, profileB := profileB } := by
  unfold mergeProfile at h
  simp only [Option.bind_eq_bind, Option.pure_def] at h
  obtain ⟨profileA, -, h⟩ := Option.bind_eq_some_iff.mp h
  split at h
  · split at h
    · obtain ⟨profileB, -, h⟩ := Option.bind_eq_some_iff.mp h
      exact ⟨profileA, profileB, (Option.some.inj h).symm⟩
    · split at h
      · obtain ⟨profileA', -, h⟩ := Option.bind_eq_some_iff.mp h
        exact ⟨profileA', jobArgs.profileB, (Option.some.inj h).symm⟩
      · exact ⟨profileA, jobArgs.profileB, (Option.some.inj h).symm⟩
  · exact ⟨profileA, jobArgs.profileB, (Option.some.inj h).symm⟩

/-- `CombineProfile` may merge a tile. -/
theorem combine_match {job job' : Job K} {request : SCAMPProto.SCAMPArgs K} {now : ℤ} {merged : Bool}
    (h : job.combineProfile request now = some (job', merged)) :
    (∃ acts, Trace (Scheduler.Step (ActAllowed R F)) job.scheduler acts job'.scheduler ∧
      actEvents acts = events (.combineProfile request now, .answer merged)) ∧ SameTiles job job' := by
  rcases combine_cases h with ⟨rfl, rfl⟩ | ⟨rfl, id, hid, htile, haccepted, jobArgs, hmerge, rfl⟩
  · exact ⟨⟨[], .nil, rfl⟩, .refl job'⟩
  · have hrunning := (accepts_cases haccepted).2
    obtain ⟨profileA, profileB, rfl⟩ := mergeProfile_settings hmerge
    refine ⟨⟨[.merge id], .single ⟨⟨hid, hrunning⟩, trivial, ?_⟩, ?_⟩, ?_⟩
    · have hretries : Function.update job.scheduler.retries id (job.tiles id).retries = job.scheduler.retries :=
        Function.update_eq_self _ _
      rw [scheduler_setTile]
      exact congrArg (fun r => { job.scheduler with
        tile := Function.update job.scheduler.tile id .finished, retries := r
        completed := job.tilesCompleted + 1 }) hretries
    · simp [actEvents, Act.events, events, htile]
    · refine SameTiles.trans ?_ (sameTiles_setTile rfl (Or.inl rfl))
      exact .of_tiles rfl rfl rfl rfl fun _ => ⟨rfl, rfl⟩

/-! ## Calls -/

omit [Field K] [LinearOrder K] in
/-- A report of a failed tile. -/
theorem scheduler_setTileFailed (job : Job K) (id : ℕ) (now : ℤ) :
    (job.setTile id { job.tiles id with status := .failed, endTime := now }).scheduler =
      job.scheduler.step (.report id) := by
  have hretries : Function.update job.scheduler.retries id (job.tiles id).retries = job.scheduler.retries :=
    Function.update_eq_self _ _
  rw [scheduler_setTile]
  exact congrArg (fun r => { job.scheduler with
    tile := Function.update job.scheduler.tile id .failed, retries := r }) hretries

/-- **Every call is a sequence of acts**, which show the events of the call. -/
theorem call_match {job job' : Job K} {c : Call K × Reply K} (hids : ∀ id, (job.tiles id).tileId = id)
    (h : CallStep (CallAllowed R F) job c job') :
    (∃ acts, Trace (Scheduler.Step (ActAllowed R F)) job.scheduler acts job'.scheduler ∧
      actEvents acts = events c) ∧ SameTiles job job' := by
  obtain ⟨call, reply⟩ := c
  obtain ⟨horder, hallowed, hcall⟩ := h
  cases call with
  | checkTimeTile now =>
      obtain ⟨rfl, rfl⟩ := Prod.mk.inj (Option.some.inj hcall)
      -- all tiles time out in one act
      refine ⟨⟨[.timeOut fun id => now id - (job.tiles id).startTime > (job.tiles id).timeout], .single
        ⟨trivial, trivial, ?_⟩, rfl⟩, .of_tiles rfl rfl rfl rfl fun id => ?_⟩
      · unfold Job.scheduler Job.checkTimeTile Scheduler.step
        congr 1
        · funext id
          simp only [decide_eq_true_eq]
          split <;> rfl
        · funext id
          dsimp only
          split <;> rfl
      · unfold Job.checkTimeTile
        dsimp only
        split
        · exact ⟨rfl, rfl⟩
        · exact ⟨rfl, rfl⟩
  | isDone =>
      obtain ⟨rfl, rfl⟩ := Prod.mk.inj (Option.some.inj hcall)
      unfold Job.isDone
      split
      · exact ⟨⟨[], .nil, rfl⟩, .refl job⟩
      · split
        · exact ⟨⟨[], .nil, rfl⟩, .refl job⟩
        · next hscan =>
            -- the scan found none that is not finished
            have hall : ∀ id < job.tileCounter, (job.tiles id).status = .finished := fun id hid =>
              by_contra fun hne => hscan ⟨id, hid, hne⟩
            exact ⟨⟨[.finish], .single ⟨hall, hallowed, rfl⟩, rfl⟩, .of_tiles rfl rfl rfl rfl fun _ => ⟨rfl, rfl⟩⟩
  | setTileFailed tileId now =>
      obtain ⟨rfl, rfl⟩ := Prod.mk.inj (Option.some.inj hcall)
      unfold Job.setTileFailed
      split
      · next hrange =>
          have hlt : tileId.toNat < job.tileCounter := by omega
          exact ⟨⟨[.report tileId.toNat], .single ⟨hlt, hallowed hrange,
            scheduler_setTileFailed job tileId.toNat now⟩, rfl⟩,
            sameTiles_setTile rfl (Or.inl rfl)⟩
      · exact ⟨⟨[], .nil, rfl⟩, .refl job⟩
  | fetchReadyTile order now throughput =>
      obtain ⟨⟨job', args⟩, hfetch, heq⟩ := Option.map_eq_some_iff.mp hcall
      obtain ⟨rfl, rfl⟩ := Prod.mk.inj heq
      exact fetch_match hids horder hfetch
  | combineProfile request now =>
      obtain ⟨⟨job', merged⟩, hcombine, heq⟩ := Option.map_eq_some_iff.mp hcall
      obtain ⟨rfl, rfl⟩ := Prod.mk.inj heq
      exact combine_match hcombine
  | hasWork order now =>
      obtain ⟨rfl, rfl⟩ := Prod.mk.inj (Option.some.inj hcall)
      exact hasWork_match horder

omit [Field K] [LinearOrder K] in
/-- Conditions that rule nothing out. -/
theorem callAllowed_true (job : Job K) (call : Call K) : CallAllowed (fun _ _ => True) (fun _ => True) job call := by
  cases call with
  | setTileFailed tileId now => exact fun _ => trivial
  | _ => trivial

theorem step_allowed {P : Job K → Call K → Prop} {job job' : Job K} {c : Call K × Reply K}
    (h : CallStep P job c job') : CallStep (CallAllowed (fun _ _ => True) fun _ => True) job c job' :=
  ⟨h.1, callAllowed_true job c.1, h.2.2⟩

theorem run_allowed {P : Job K → Call K → Prop} {start job : Job K} {trace : List (Call K × Reply K)}
    (h : Job.Run P start trace job) : Job.Run (CallAllowed (fun _ _ => True) fun _ => True) start trace job :=
  h.mono fun _ _ _ => step_allowed

/-- **Every run of a job is a run of the scheduler**, with the same events, and does not change the tiles. -/
theorem run_refines {start job : Job K} {trace : List (Call K × Reply K)}
    (hids : ∀ id, (start.tiles id).tileId = id) (h : Job.Run (CallAllowed R F) start trace job) :
    SameTiles start job ∧
      ∃ acts, Trace (Scheduler.Step (ActAllowed R F)) start.scheduler acts job.scheduler ∧
        actEvents acts = trace.flatMap events := by
  refine h.refine Job.scheduler events Act.events (SameTiles start) (.refl start) ?_ ?_
  · intro s c s' hs hstep
    exact hs.trans (call_match (fun id => (hs.ids id).trans (hids id)) hstep).2
  · intro s c s' hs hstep
    exact (call_match (fun id => (hs.ids id).trans (hids id)) hstep).1

end

end

end Scamp
