import Scamp.Distributed.Correctness.Lifecycle

/-!
# `Distributed.Correctness.HasWork` — which calls find work

`cleanup_failed_tiles` queues the failed tiles again and returns true, unless it meets a tile that was
retried too often: then it gives the job up and returns false. Both its callers take the result the other
way round. So a job whose failed tiles are all queued again reports no work, and a job that was just given
up still has work when a tile was queued before.

`cleanup_spec` says what is queued, in terms of the order in which the hash table is traversed. From it
`workExact_iff` finds the states in which `has_work` and `fetch_ready_tile` answer as their names say.
-/

namespace Scamp

open Lib
open SCAMPProto (JobStatus)

section
variable {K : Type}

/-! ## What there is to do -/

/-- The tile waits in the queue. -/
def Job.Queued (job : Job K) (id : ℕ) : Prop := id < job.tileCounter ∧ id ∈ job.readyQueue

/-- The tile has failed and may be tried again. -/
def Job.Retryable (job : Job K) (id : ℕ) : Prop :=
  id < job.tileCounter ∧ id ∉ job.readyQueue ∧ (job.tiles id).status = .failed ∧
    (job.tiles id).retries ≤ maxTileRetries

/-- The tile has failed for good. -/
def Job.Exhausted (job : Job K) (id : ℕ) : Prop :=
  id < job.tileCounter ∧ id ∉ job.readyQueue ∧ (job.tiles id).status = .failed ∧
    maxTileRetries < (job.tiles id).retries

/-- **What the two calls should answer.** -/
structure WorkExact [Zero K] (job : Job K) (order : List ℕ) (now throughput : ℤ) : Prop where
  hasWork : (job.hasWork order now).2 = true ↔
    (job.hasWork order now).1.status = .running ∧ (job.hasWork order now).1.readyQueue ≠ []
  fetch : (∃ job' args, job.fetchReadyTile order now throughput = some (job', some args)) ↔
    job.status = .running ∧
      ((∃ id, job.Queued id) ∨ (∃ id, job.Retryable id) ∧ ∀ id, ¬job.Exhausted id)
  running : ∀ job' args, job.fetchReadyTile order now throughput = some (job', some args) →
    job.status = .running ∧ job'.status = .running

/-- The first failed tile that `cleanup_failed_tiles` meets, if there is one, makes it give the job up. -/
def Job.GivesUpFirst (job : Job K) (order : List ℕ) : Prop :=
  ∀ id, order.find? (fun id => (job.tiles id).status = .failed) = some id →
    maxTileRetries < (job.tiles id).retries

/-! ## `cleanup_failed_tiles` -/

/-- The tiles that are queued again: the failed ones up to the first that was retried too often. -/
def Job.retried (job : Job K) : List ℕ → List ℕ
  | [] => []
  | id :: order =>
      if (job.tiles id).status = .failed then
        if maxTileRetries < (job.tiles id).retries then [] else id :: job.retried order
      else job.retried order

/-- Whether no failed tile was retried too often. -/
def Job.NoneSpent (job : Job K) (order : List ℕ) : Prop :=
  ∀ id ∈ order, (job.tiles id).status = .failed → (job.tiles id).retries ≤ maxTileRetries

theorem noneSpent_cons {job : Job K} {id : ℕ} {order : List ℕ} :
    job.NoneSpent (id :: order) ↔
      ((job.tiles id).status = .failed → (job.tiles id).retries ≤ maxTileRetries) ∧ job.NoneSpent order :=
  List.forall_mem_cons

/-- **What `cleanup_failed_tiles` does**, over tiles that are as they were in `job₀`: which tiles it queues,
    that it returns true when no tile was retried too often, and that it fails the job otherwise. -/
theorem cleanup_spec (job₀ : Job K) (now : ℤ) {order : List ℕ} (hnodup : order.Nodup) (job : Job K)
    (hsame : ∀ id ∈ order, job.tiles id = job₀.tiles id) :
    (job.cleanupFailedTiles now order).1.readyQueue = job.readyQueue ++ job₀.retried order ∧
      ((job.cleanupFailedTiles now order).2 = true ↔ job₀.NoneSpent order) ∧
      (job.cleanupFailedTiles now order).1.status =
        if (job.cleanupFailedTiles now order).2 then job.status else .failed := by
  induction order generalizing job with
  | nil => simp [Job.cleanupFailedTiles, Job.retried, Job.NoneSpent]
  | cons id order ih =>
      obtain ⟨hfresh, hnodup⟩ := List.nodup_cons.mp hnodup
      have htile : job.tiles id = job₀.tiles id := hsame id List.mem_cons_self
      have hrest : ∀ k ∈ order, job.tiles k = job₀.tiles k := fun k hk => hsame k (List.mem_cons_of_mem _ hk)
      unfold Job.cleanupFailedTiles Job.retried
      rw [htile, noneSpent_cons]
      by_cases hfailed : (job₀.tiles id).status = .failed
      · by_cases hspent : maxTileRetries < (job₀.tiles id).retries
        · have hnot : ¬(job₀.tiles id).retries ≤ maxTileRetries := Nat.not_le.mpr hspent
          simp [hfailed, hspent, hnot]
        · -- the tile goes to the end of the queue; the others are as before
          have hrest' : ∀ k ∈ order, (job.retryTile now id).tiles k = job₀.tiles k := by
            intro k hk
            have hne : k ≠ id := fun heq => hfresh (heq ▸ hk)
            simp [Job.retryTile, Job.setTile, hne, hrest k hk]
          obtain ⟨hqueue, hresult, hstatus⟩ := ih hnodup (job.retryTile now id) hrest'
          have hle : (job₀.tiles id).retries ≤ maxTileRetries := Nat.not_lt.mp hspent
          simp only [hfailed, if_true, gt_iff_lt, hspent, if_false]
          refine ⟨?_, ?_, hstatus⟩
          · rw [hqueue]
            simp [Job.retryTile, Job.setTile]
          · rw [hresult]
            simp [hle]
      · simpa [hfailed] using ih hnodup job hrest

/-- Nothing is queued exactly when the job is given up at the first failed tile, if there is one. -/
theorem retried_eq_nil_iff {job : Job K} {order : List ℕ} : job.retried order = [] ↔ job.GivesUpFirst order := by
  induction order with
  | nil => simp [Job.retried, Job.GivesUpFirst]
  | cons id order ih =>
      unfold Job.GivesUpFirst at ih ⊢
      unfold Job.retried
      by_cases hfailed : (job.tiles id).status = .failed
      · by_cases hspent : maxTileRetries < (job.tiles id).retries <;> simp [hfailed, hspent]
      · simpa [hfailed] using ih

/-- When no tile was retried too often, all failed tiles are queued. -/
theorem mem_retried {job : Job K} {order : List ℕ} (hnone : job.NoneSpent order) {id : ℕ} :
    id ∈ job.retried order ↔ id ∈ order ∧ (job.tiles id).status = .failed := by
  induction order with
  | nil => simp [Job.retried]
  | cons k order ih =>
      obtain ⟨hk, hrest⟩ := noneSpent_cons.mp hnone
      unfold Job.retried
      by_cases hfailed : (job.tiles k).status = .failed
      · have hspent : ¬maxTileRetries < (job.tiles k).retries := Nat.not_lt.mpr (hk hfailed)
        simp only [hfailed, hspent, if_true, if_false, List.mem_cons, ih hrest]
        constructor
        · rintro (rfl | ⟨hmem, hid⟩)
          · exact ⟨Or.inl rfl, hfailed⟩
          · exact ⟨Or.inr hmem, hid⟩
        · rintro ⟨rfl | hmem, hid⟩
          · exact Or.inl rfl
          · exact Or.inr ⟨hmem, hid⟩
      · simp only [hfailed, if_false, List.mem_cons, ih hrest]
        constructor
        · rintro ⟨hmem, hid⟩
          exact ⟨Or.inr hmem, hid⟩
        · rintro ⟨rfl | hmem, hid⟩
          · exact absurd hid hfailed
          · exact ⟨hmem, hid⟩

/-! ## The two calls -/

section
variable [Zero K]

/-- A tile is handed out when one is queued, and the throughput is not `0`. -/
theorem handOut_iff {job : Job K} {now throughput : ℤ} :
    (∃ job' args, job.handOut now throughput = some (job', some args)) ↔
      job.readyQueue ≠ [] ∧ uint64 throughput ≠ 0 := by
  unfold Job.handOut
  cases hqueue : job.readyQueue with
  | nil => simp
  | cons id rest =>
      by_cases hzero : uint64 throughput = 0
      · simp [hzero]
      · simp [hzero]

theorem handOut_status {job job' : Job K} {now throughput : ℤ} {args : Option (SCAMPProto.SCAMPArgs K)}
    (h : job.handOut now throughput = some (job', args)) : job'.status = job.status := by
  unfold Job.handOut at h
  split at h
  · cases h
  · split at h
    · cases h
    · obtain ⟨rfl, -⟩ := Prod.mk.inj (Option.some.inj h)
      rfl

/-- A job that is not running has no work and hands nothing out. -/
theorem workExact_of_not_running {job : Job K} (order : List ℕ) (now throughput : ℤ)
    (hstatus : job.status ≠ .running) : WorkExact job order now throughput := by
  have hfetch : job.fetchReadyTile order now throughput = some (job, none) := by
    unfold Job.fetchReadyTile
    rw [if_pos hstatus]
  refine ⟨?_, ?_, ?_⟩
  · simp [Job.hasWork, hstatus]
  · simp [hfetch, hstatus]
  · simp [hfetch]

/-- A running job with a queued tile has work, and hands it out unless the request has no throughput. -/
theorem workExact_of_queued {job : Job K} (order : List ℕ) (now throughput : ℤ) (hstatus : job.status = .running)
    (hqueue : job.readyQueue ≠ []) (hrange : ∀ id ∈ job.readyQueue, id < job.tileCounter) :
    WorkExact job order now throughput ↔ uint64 throughput ≠ 0 := by
  have hempty : job.readyQueue.isEmpty = false := by simpa using hqueue
  have hfetch : job.fetchReadyTile order now throughput = job.handOut now throughput := by
    unfold Job.fetchReadyTile
    simp [hstatus, hempty]
  have hqueued : ∃ id, job.Queued id := by
    obtain ⟨id, hid⟩ := List.exists_mem_of_ne_nil _ hqueue
    exact ⟨id, hrange id hid, hid⟩
  constructor
  · intro h
    have hexists := h.fetch.mpr ⟨hstatus, Or.inl hqueued⟩
    rw [hfetch, handOut_iff] at hexists
    exact hexists.2
  · intro hthroughput
    refine ⟨?_, ?_, ?_⟩
    · simp [Job.hasWork, hstatus, hempty, hqueue]
    · rw [hfetch, handOut_iff]
      exact iff_of_true ⟨hqueue, hthroughput⟩ ⟨hstatus, Or.inl hqueued⟩
    · intro job' args h
      rw [hfetch] at h
      exact ⟨hstatus, (handOut_status h).trans hstatus⟩

/-- **A running job with an empty queue**: the calls answer right when nothing can be queued again. Then
    either no tile has failed, or the job is given up before a tile is queued. -/
theorem workExact_of_empty {job : Job K} {order : List ℕ} (now throughput : ℤ)
    (horder : order.Perm (List.range job.tileCounter)) (hstatus : job.status = .running)
    (hqueue : job.readyQueue = []) : WorkExact job order now throughput ↔ job.GivesUpFirst order := by
  have hnodup : order.Nodup := horder.nodup_iff.mpr List.nodup_range
  have hmem : ∀ id, id ∈ order ↔ id < job.tileCounter := fun id => by rw [horder.mem_iff, List.mem_range]
  obtain ⟨hretried, hresult, hcleaned⟩ := cleanup_spec job now hnodup job fun _ _ => rfl
  have hnot : ∀ id, ¬job.Queued id := fun id h => List.not_mem_nil (hqueue ▸ h.2)
  have hwork : job.hasWork order now = ((job.cleanupFailedTiles now order).1,
      !(job.cleanupFailedTiles now order).1.readyQueue.isEmpty && !(job.cleanupFailedTiles now order).2) := by
    unfold Job.hasWork
    simp [hstatus, hqueue]
  have hfetch : job.fetchReadyTile order now throughput =
      if (job.cleanupFailedTiles now order).2 ∨ (job.cleanupFailedTiles now order).1.readyQueue.isEmpty then
        some ((job.cleanupFailedTiles now order).1, none)
      else (job.cleanupFailedTiles now order).1.handOut now throughput := by
    unfold Job.fetchReadyTile
    simp [hstatus, hqueue]
  rw [hqueue, List.nil_append] at hretried
  rw [← retried_eq_nil_iff, ← hretried]
  cases hclean : (job.cleanupFailedTiles now order).2 with
  | true =>
      -- the result says that all went well, and is taken for a failure
      rw [hclean, if_pos rfl, hstatus] at hcleaned
      have hnone := hresult.mp hclean
      constructor
      · intro h
        by_contra hne
        have hwork' := h.hasWork.mpr (by rw [hwork]; exact ⟨hcleaned, hne⟩)
        simp [hwork, hclean] at hwork'
      · intro hnil
        have hfailed : ∀ id, ¬job.Retryable id := by
          rintro id ⟨hid, -, hstat, -⟩
          have hretry := (mem_retried hnone).mpr ⟨(hmem id).mpr hid, hstat⟩
          rw [← hretried, hnil] at hretry
          exact List.not_mem_nil hretry
        refine ⟨?_, ?_, ?_⟩
        · simp [hwork, hnil]
        · simp [hfetch, hnil, hnot, hfailed]
        · simp [hfetch, hnil]
  | false =>
      -- the job was given up
      rw [hclean] at hcleaned hresult
      have hspent : ∃ id, job.Exhausted id := by
        have hnone : ¬job.NoneSpent order := fun h => by simpa using hresult.mpr h
        unfold Job.NoneSpent at hnone
        push Not at hnone
        obtain ⟨id, hid, hstat, hretries⟩ := hnone
        exact ⟨id, (hmem id).mp hid, hqueue ▸ List.not_mem_nil, hstat, hretries⟩
      constructor
      · intro h
        by_contra hne
        have hwork' := h.hasWork.mp (by simp [hwork, hclean, hne])
        rw [hwork] at hwork'
        rw [hcleaned] at hwork'
        cases hwork'.1
      · intro hnil
        refine ⟨?_, ?_, ?_⟩
        · simp [hwork, hnil]
        · refine iff_of_false (by simp [hfetch, hnil]) ?_
          rintro ⟨-, ⟨id, hid⟩ | ⟨-, hnone⟩⟩
          · exact hnot id hid
          · obtain ⟨id, hid⟩ := hspent
            exact hnone id hid
        · simp [hfetch, hnil]

end

/-! ## Every state of a job -/

section
variable [Field K] [LinearOrder K]
variable {args : SCAMPProto.SCAMPArgs K} {jobId : ℤ} {start job : Job K} {trace : List (Call K × Reply K)}

/-- **Where the calls find work.** In every state that calls reach, `has_work` and `fetch_ready_tile` answer
    as they should exactly when the job is not running, or a tile is queued (and the request has a
    throughput), or no failed tile comes before one that has failed for good. -/
theorem workExact_iff (hcreate : Job.create args jobId = some start) (hrun : Job.Run (fun _ _ => True) start trace job)
    {order : List ℕ} (horder : order.Perm (List.range job.tileCounter)) (now throughput : ℤ) :
    WorkExact job order now throughput ↔
      job.status ≠ .running ∨ (job.readyQueue ≠ [] ∧ uint64 throughput ≠ 0) ∨
        (job.readyQueue = [] ∧ job.GivesUpFirst order) := by
  obtain ⟨acts, hinv, -⟩ := queueInv_job hcreate hrun
  by_cases hstatus : job.status = .running
  · by_cases hqueue : job.readyQueue = []
    · simp [workExact_of_empty now throughput horder hstatus hqueue, hstatus, hqueue]
    · have hrange : ∀ id ∈ job.readyQueue, id < job.tileCounter := hinv.inRange
      simp [workExact_of_queued order now throughput hstatus hqueue hrange, hstatus, hqueue]
  · exact iff_of_true (workExact_of_not_running order now throughput hstatus) (Or.inl hstatus)

/-- A worker fetched the only tile and reported that it failed. -/
def reportedTrace (args : SCAMPProto.SCAMPArgs ℚ) : List (Call ℚ × Reply ℚ) :=
  [(.fetchReadyTile [0] 0 1, .work (some args)), (.setTileFailed 0 1, .nothing)]

theorem workExact_iff_oneTile : ∃ job args, Job.Run (fun _ _ => True) oneTileJob
    [(.fetchReadyTile [0] 0 1, .work (some args))] job ∧ WorkExact job [0] 1 1 := by
  have hrun : ∃ job args, Job.Run (fun _ _ => True) oneTileJob
      [(.fetchReadyTile [0] 0 1, .work (some args))] job ∧ [0].Perm (List.range job.tileCounter) ∧
      job.readyQueue = [] ∧ (job.tiles 0).status = .running := by
    exact ⟨_, _, Trace.nil.snoc ⟨.refl _, trivial, rfl⟩, .refl _, rfl, rfl⟩
  obtain ⟨job, args, hrun, horder, hqueue, hstatus⟩ := hrun
  refine ⟨job, args, hrun, (workExact_iff create_oneTile hrun horder 1 1).mpr (Or.inr (Or.inr ⟨hqueue, ?_⟩))⟩
  intro id hid
  simp [hstatus] at hid

/-- **A failed tile that no worker gets.** The tile may be tried again and is queued, but the job reports no
    work and hands nothing out. -/
theorem reported_no_work : ∃ job args, Job.create oneTileArgs 0 = some oneTileJob ∧
    Job.Run (fun _ _ => True) oneTileJob (reportedTrace args) job ∧ [0].Perm (List.range job.tileCounter) ∧
    job.Retryable 0 ∧ (job.hasWork [0] 2).1.status = .running ∧ (job.hasWork [0] 2).1.readyQueue = [0] ∧
    (job.hasWork [0] 2).2 = false ∧ (∃ job', job.fetchReadyTile [0] 2 1 = some (job', none)) ∧
    ¬WorkExact job [0] 2 1 := by
  have hrun : ∃ job args, Job.Run (fun _ _ => True) oneTileJob (reportedTrace args) job ∧
      [0].Perm (List.range job.tileCounter) ∧ job.Retryable 0 ∧ (job.hasWork [0] 2).1.status = .running ∧
      (job.hasWork [0] 2).1.readyQueue = [0] ∧ (job.hasWork [0] 2).2 = false ∧
      ∃ job', job.fetchReadyTile [0] 2 1 = some (job', none) := by
    refine ⟨_, _, (Trace.nil.snoc ⟨.refl _, trivial, rfl⟩).snoc ⟨trivial, trivial, rfl⟩, .refl _, ?_, rfl, rfl, rfl,
      _, rfl⟩
    refine ⟨?_, ?_, rfl, ?_⟩ <;> decide
  obtain ⟨job, args, hrun, horder, hretry, hstatus, hqueue, hanswer, hfetch⟩ := hrun
  refine ⟨job, args, create_oneTile, hrun, horder, hretry, hstatus, hqueue, hanswer, hfetch, fun h => ?_⟩
  have htrue := h.hasWork.mpr ⟨hstatus, by simp [hqueue]⟩
  rw [hanswer] at htrue
  cases htrue

end

end

end Scamp
