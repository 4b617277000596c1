import Scamp.Distributed.Correctness.HasWork
import Scamp.Distributed.Correctness.ServerRun

/-!
# `Distributed.Correctness.Finished` — a finished job does not change

A job that is finished hands out no tile and merges none, whatever is called (`frozen_call`). On the server
this makes two things safe that its handlers do without a lock held in between: a client that was told that
its job is finished fetches the job's result later, and `FetchJobResult` copies the arguments of the job
through a reference (`finished_result`).
-/

namespace Scamp

open Lib
open SCAMPProto (JobStatus)

section
variable {K : Type}

/-! ## Calls -/

/-- The job is finished and none of its tiles runs. -/
structure Job.Frozen (job : Job K) : Prop where
  status : job.status = .finished
  tiles : ∀ id < job.tileCounter, (job.tiles id).status ≠ .running

/-- The status that `cleanup_failed_tiles` leaves. -/
theorem cleanup_status (now : ℤ) (order : List ℕ) (job : Job K) :
    (job.cleanupFailedTiles now order).1.status = job.status ∨
      (job.cleanupFailedTiles now order).1.status = .failed := by
  induction order generalizing job with
  | nil => exact Or.inl rfl
  | cons id order ih =>
      unfold Job.cleanupFailedTiles
      split
      · split
        · exact Or.inr rfl
        · exact ih (job.retryTile now id)
      · exact ih job

/-- `fetch_ready_tile` may give up a running job. -/
theorem fetch_status [Zero K] {job job' : Job K} {order : List ℕ} {now throughput : ℤ}
    {args : Option (SCAMPProto.SCAMPArgs K)} (h : job.fetchReadyTile order now throughput = some (job', args)) :
    job'.status = job.status ∨ (job.status = .running ∧ job'.status = .failed) := by
  unfold Job.fetchReadyTile at h
  split at h
  · obtain ⟨rfl, -⟩ := Prod.mk.inj (Option.some.inj h)
    exact Or.inl rfl
  · next hstatus =>
      have hrunning := not_not.mp hstatus
      split at h
      · have hcleanup := (cleanup_status now order job).imp_right fun hf => And.intro hrunning hf
        dsimp only at h
        split at h
        · obtain ⟨rfl, -⟩ := Prod.mk.inj (Option.some.inj h)
          exact hcleanup
        · rwa [handOut_status h]
      · exact Or.inl (handOut_status h)

/-- `has_work` may give up a running job. -/
theorem hasWork_status (job : Job K) (order : List ℕ) (now : ℤ) :
    (job.hasWork order now).1.status = job.status ∨
      (job.status = .running ∧ (job.hasWork order now).1.status = .failed) := by
  unfold Job.hasWork
  split
  · next hrunning =>
      split
      · exact (cleanup_status now order job).imp_right fun hf => And.intro hrunning hf
      · exact Or.inl rfl
  · exact Or.inl rfl

variable [Field K] [LinearOrder K] {job job' : Job K} {call : Call K} {reply : Reply K}

/-- **What a call does to the status of a job**: nothing, or it gives up a running job, or it finds that all
    tiles are finished. -/
theorem call_status (h : job.call call = some (job', reply)) :
    job'.status = job.status ∨ (job.status = .running ∧ job'.status = .failed) ∨
      ((∀ id < job.tileCounter, (job.tiles id).status = .finished) ∧ job' = { job with status := .finished }) := by
  cases call with
  | checkTimeTile now =>
      obtain ⟨rfl, rfl⟩ := Prod.mk.inj (Option.some.inj h)
      exact Or.inl rfl
  | isDone =>
      obtain ⟨rfl, rfl⟩ := Prod.mk.inj (Option.some.inj h)
      unfold Job.isDone
      split
      · exact Or.inl rfl
      · split
        · exact Or.inl rfl
        · next hscan =>
            exact Or.inr (Or.inr ⟨fun id hid => by_contra fun hne => hscan ⟨id, hid, hne⟩, rfl⟩)
  | setTileFailed tileId now =>
      obtain ⟨rfl, rfl⟩ := Prod.mk.inj (Option.some.inj h)
      unfold Job.setTileFailed
      split <;> exact Or.inl rfl
  | fetchReadyTile order now throughput =>
      obtain ⟨⟨job', args⟩, hfetch, heq⟩ := Option.map_eq_some_iff.mp h
      obtain ⟨rfl, rfl⟩ := Prod.mk.inj heq
      exact (fetch_status hfetch).imp_right Or.inl
  | combineProfile request now =>
      obtain ⟨⟨job', merged⟩, hcombine, heq⟩ := Option.map_eq_some_iff.mp h
      obtain ⟨rfl, rfl⟩ := Prod.mk.inj heq
      rcases combine_cases hcombine with ⟨-, rfl⟩ | ⟨-, id, -, -, -, jobArgs, -, rfl⟩
      · exact Or.inl rfl
      · exact Or.inl rfl
  | hasWork order now =>
      obtain ⟨rfl, rfl⟩ := Prod.mk.inj (Option.some.inj h)
      exact (hasWork_status job order now).imp_right Or.inl

/-- A job that runs ran before. -/
theorem running_before (h : job.call call = some (job', reply)) (hrunning : job'.status = .running) :
    job.status = .running := by
  rcases call_status h with hs | ⟨-, hs⟩ | ⟨-, rfl⟩
  · rwa [hs] at hrunning
  · rw [hs] at hrunning
    cases hrunning
  · cases hrunning

/-- **A finished job does not change**: it stays finished, and its profiles stay as they are. -/
theorem frozen_call (hf : job.Frozen) (h : job.call call = some (job', reply)) :
    job'.Frozen ∧ job'.jobArgs = job.jobArgs := by
  have hnot : job.status ≠ .running := by
    rw [hf.status]
    decide
  cases call with
  | checkTimeTile now =>
      obtain ⟨rfl, rfl⟩ := Prod.mk.inj (Option.some.inj h)
      refine ⟨⟨hf.status, fun id hid => ?_⟩, rfl⟩
      unfold Job.checkTimeTile
      dsimp only
      split
      · exact nofun
      · exact hf.tiles id hid
  | isDone =>
      obtain ⟨rfl, rfl⟩ := Prod.mk.inj (Option.some.inj h)
      unfold Job.isDone
      rw [if_pos hf.status]
      exact ⟨hf, rfl⟩
  | setTileFailed tileId now =>
      obtain ⟨rfl, rfl⟩ := Prod.mk.inj (Option.some.inj h)
      unfold Job.setTileFailed
      split
      · refine ⟨⟨hf.status, fun id hid => ?_⟩, rfl⟩
        by_cases hk : id = tileId.toNat
        · subst hk
          simp [Job.setTile]
        · simpa [Job.setTile, hk] using hf.tiles id hid
      · exact ⟨hf, rfl⟩
  | fetchReadyTile order now throughput =>
      obtain ⟨⟨job', args⟩, hfetch, heq⟩ := Option.map_eq_some_iff.mp h
      obtain ⟨rfl, rfl⟩ := Prod.mk.inj heq
      unfold Job.fetchReadyTile at hfetch
      rw [if_pos hnot] at hfetch
      obtain ⟨rfl, -⟩ := Prod.mk.inj (Option.some.inj hfetch)
      exact ⟨hf, rfl⟩
  | combineProfile request now =>
      obtain ⟨⟨job', merged⟩, hcombine, heq⟩ := Option.map_eq_some_iff.mp h
      obtain ⟨rfl, rfl⟩ := Prod.mk.inj heq
      rcases combine_cases hcombine with ⟨-, rfl⟩ | ⟨-, id, hid, -, haccepted, -⟩
      · exact ⟨hf, rfl⟩
      · exact absurd (accepts_cases haccepted).2 (hf.tiles id hid)
  | hasWork order now =>
      obtain ⟨rfl, rfl⟩ := Prod.mk.inj (Option.some.inj h)
      unfold Job.hasWork
      rw [if_neg hnot]
      exact ⟨hf, rfl⟩

/-- When a job finishes, none of its tiles runs. -/
theorem frozen_of_finished (hbefore : job.status = .finished → job.Frozen)
    (h : job.call call = some (job', reply)) (hfinished : job'.status = .finished) : job'.Frozen := by
  rcases call_status h with hs | ⟨-, hs⟩ | ⟨hall, rfl⟩
  · rw [hs] at hfinished
    exact (frozen_call (hbefore hfinished) h).1
  · rw [hs] at hfinished
    cases hfinished
  · refine ⟨rfl, fun id hid => ?_⟩
    show (job.tiles id).status ≠ .running
    rw [hall id hid]
    decide

/-! ## Runs of a job -/

/-- A job that was accepted stays so. -/
theorem accepted_run {P : Job K → Call K → Prop} {start : Job K} {trace : List (Call K × Reply K)}
    (hrun : Job.Run P start trace job) (haccepted : start.status ≠ .invalid) : job.status ≠ .invalid := by
  refine hrun.inv (I := fun _ s => s.status ≠ .invalid) haccepted ?_
  rintro trace s ⟨call, reply⟩ s' - hs ⟨-, -, hcall⟩
  rcases call_status hcall with heq | ⟨-, hfailed⟩ | ⟨-, rfl⟩
  · rwa [heq]
  · rw [hfailed]
    decide
  · exact JobStatus.noConfusion

/-- **When an accepted job is finished, all its tiles were merged**, whatever was called. -/
theorem merged_of_finished {P : Job K → Call K → Prop} {args : SCAMPProto.SCAMPArgs K} {id : ℤ} {start : Job K}
    {trace : List (Call K × Reply K)} (hcreate : Job.create args id = some start) (hrun : Job.Run P start trace job)
    (haccepted : start.status ≠ .invalid) (hfinished : job.status = .finished) :
    ∀ k < start.tileCounter, .merged k ∈ trace.flatMap events := by
  obtain ⟨hfresh, hids, hstatus⟩ := create_start hcreate
  -- `is_done` is called on a job that is not invalid
  have hallowed : Job.Run (CallAllowed (fun _ _ => True) fun c => c.status ≠ .invalid) start trace job := by
    refine hrun.strengthen ?_
    rintro trace s ⟨call, reply⟩ s' hbefore ⟨horder, -, hcall⟩
    refine ⟨horder, ?_, hcall⟩
    cases call with
    | isDone => exact accepted_run hbefore haccepted
    | setTileFailed tileId now => exact fun _ => trivial
    | _ => trivial
  obtain ⟨hsame, acts, hacts, hevents⟩ := run_refines hids hallowed
  have hfinishes : ∀ c act, ActAllowed (fun _ _ => True) (fun c => c.status ≠ .invalid) c act →
      Scheduler.FinishesAccepted c act := by
    rintro c act hact rfl
    exact hact
  intro k hk
  rw [← hevents]
  rw [← hsame.count] at hk
  exact (Scheduler.statusInv_run hfinishes hfresh hstatus hacts).finished hfinished k hk

/-! ## Runs of the server -/

variable {s s' : Server K} {h h' : Handler K} {events : List (JobEvent K)} {jobs : JobList (Job K)}

omit [Field K] [LinearOrder K] in
theorem getJob_eq {J : Type} {l : JobList J} {jobId : ℤ} {id : ℕ} (hid : id < l.count) (hkey : int32 jobId = id) :
    l.getJob jobId = some id := by
  unfold JobList.getJob
  rw [hkey]
  simp [hid]

theorem int32_int64 (x : ℤ) : int32 (int64 x) = int32 x :=
  Int.bmod_bmod_of_dvd (by norm_num)

/-- What a thread knows of the job it reports on. -/
def Handler.Tells (s : Server K) : Handler K → Prop
  | .reporting jobId job => int32 jobId = job
  | .checkingDone jobId job => int32 jobId = job
  | .returned (.status jobId .finished) =>
      ∃ id < s.jobs.count, int32 jobId = id ∧ (s.job id).status = .finished
  | _ => True

/-- What holds of the finished jobs in every run: none of their tiles runs, and a thread that says that a job
    is finished is right. -/
structure FinishedInv (s : Server K) : Prop where
  threads : ServerInv s
  frozen : ∀ id < s.jobs.count, (s.job id).status = .finished → (s.job id).Frozen
  tells : ∀ n h, s.handler n = some h → h.Tells s

/-- A job that is finished stays as it is. -/
theorem FinishedInv.stays (hs : FinishedInv s) (hstep : Server.Step s events s') {id : ℕ}
    (hid : id < s.jobs.count) (hfinished : (s.job id).status = .finished) :
    (s'.job id).status = .finished ∧ (s'.job id).jobArgs = (s.job id).jobArgs := by
  rcases step_job hstep hid with heq | ⟨call, reply, -, hcall⟩
  · rw [heq]
    exact ⟨hfinished, rfl⟩
  · obtain ⟨hfrozen, hargs⟩ := frozen_call (hs.frozen id hid hfinished) hcall
    exact ⟨hfrozen.status, hargs⟩

/-- What a thread says stays true. -/
theorem Handler.Tells.mono (hs : FinishedInv s) (hstep : Server.Step s events s') (ht : h.Tells s) : h.Tells s' := by
  unfold Handler.Tells at ht ⊢
  split
  · exact ht
  · exact ht
  · obtain ⟨id, hid, hkey, hfinished⟩ := ht
    exact ⟨id, hid.trans_le (step_count_le hstep), hkey, (hs.stays hstep hid hfinished).1⟩
  · trivial

omit [Field K] [LinearOrder K] in
/-- A thread finds the job whose id it was given. -/
theorem tells_found {jobId : ℤ} {next : ℕ → Handler K} {job : ℕ} (hfinds : h.finds = some (jobId, next))
    (hjob : s.jobs.getJob jobId = some job) : (next job).Tells s' := by
  have hkey : int32 (int64 jobId) = job := by
    rw [int32_int64, (lt_of_getJob hjob).2]
  unfold Handler.finds at hfinds
  split at hfinds
  all_goals first
    | (cases hfinds; done)
    | (obtain ⟨rfl, rfl⟩ := Prod.mk.inj (Option.some.inj hfinds)
       first | exact hkey | exact trivial)

/-- A step of a thread keeps what it says true. -/
theorem Goes.tells (hgoes : Goes s h events s'.jobs h') (ht : h.Tells s)
    (hknown : ∀ id, h.pointsTo = some id → id < s.jobs.count) : h'.Tells s' := by
  generalize hjobs : s'.jobs = jobs at hgoes
  cases hgoes with
  | found _ hfinds hjob => exact tells_found hfinds hjob
  | checked => exact ht
  | @reported jobId job =>
      have hid := hknown job rfl
      unfold Handler.Tells
      split
      · next heq => cases heq
      · next heq => cases heq
      · next heq =>
          obtain ⟨rfl, hfinished⟩ : jobId = _ ∧ (s.job job).status = .finished := by simpa using heq
          refine ⟨job, hjobs ▸ hid, ht, ?_⟩
          show (s'.jobs.task job).status = .finished
          rw [hjobs]
          exact hfinished
      · trivial
  | _ => exact trivial

/-- **Every step keeps the invariant of the finished jobs.** -/
theorem finishedInv_step (hs : FinishedInv s) (hstep : Server.Step s events s') : FinishedInv s' where
  threads := serverInv_step hs.threads hstep
  frozen := by
    intro id hid hfinished
    by_cases hold : id < s.jobs.count
    · rcases step_job hstep hold with heq | ⟨call, reply, -, hcall⟩
      · rw [heq] at hfinished ⊢
        exact hs.frozen id hold hfinished
      · exact frozen_of_finished (hs.frozen id hold) hcall hfinished
    · -- a new job is not finished
      obtain ⟨args, -, -, hcreate⟩ := new_job hstep (not_lt.mp hold) hid
      rcases (create_start hcreate).2.2 with hs | hs <;> (rw [hs] at hfinished; cases hfinished)
  tells := threads_step (P := fun _ h => h.Tells s) (Q := fun _ h => h.Tells s') hstep hs.tells (fun _ _ _ => trivial)
    (fun _ _ _ _ ht => ht.mono hs hstep) fun n h _ hn ht hgoes => hgoes.tells ht fun id => hs.threads.known n h id hn

theorem finishedInv_run {labels : List (List (JobEvent K))} (hrun : Server.Run labels s) : FinishedInv s := by
  refine hrun.inv (I := fun _ s => FinishedInv s) ⟨serverInv_start, fun id hid => ?_, fun _ _ h => nomatch h⟩
    fun _ _ _ _ _ hs hstep => finishedInv_step hs hstep
  exact absurd hid (Nat.not_lt_zero id)

/-- From a state in which a job is finished, it stays as it is. -/
theorem finished_stays_run (hs : FinishedInv s) {id : ℕ} (hid : id < s.jobs.count)
    (hfinished : (s.job id).status = .finished) {labels : List (List (JobEvent K))}
    (hrun : Trace Server.Step s labels s') : FinishedInv s' ∧ id < s'.jobs.count ∧
      (s'.job id).status = .finished ∧ (s'.job id).jobArgs = (s.job id).jobArgs := by
  refine hrun.inv (I := fun _ t => FinishedInv t ∧ id < t.jobs.count ∧ (t.job id).status = .finished ∧
    (t.job id).jobArgs = (s.job id).jobArgs) ⟨hs, hid, hfinished, rfl⟩ ?_
  rintro labels t events t' - ⟨ht, hlt, hstatus, hargs⟩ hstep
  obtain ⟨hstatus', hargs'⟩ := ht.stays hstep hlt hstatus
  exact ⟨finishedInv_step ht hstep, hlt.trans_le (step_count_le hstep), hstatus', hargs'.trans hargs⟩

/-- Where a thread is that fetches the result `args` of job `id`. -/
def Handler.Fetches (id : ℕ) (args : SCAMPProto.SCAMPArgs K) (h : Handler K) : Prop :=
  (∃ jobId, h = .received (.fetchJobResult jobId) ∧ int32 jobId = id) ∨ h = .fetchingDone id ∨
    h = .copying id ∨ h = .returned (.work (some args))

/-- A thread that fetches the result of a finished job gets there. -/
theorem Handler.Fetches.step {id : ℕ} {args : SCAMPProto.SCAMPArgs K} (hid : id < s.jobs.count)
    (hfinished : (s.job id).status = .finished) (hargs : (s.job id).jobArgs = args)
    (hfetches : h.Fetches id args) (hgoes : Goes s h events jobs h') : h'.Fetches id args := by
  have hdone : (s.job id).isDone.2 = true := by
    unfold Job.isDone
    rw [if_pos hfinished]
  rcases hfetches with ⟨jobId, rfl, hkey⟩ | rfl | rfl | rfl
  · have hget := getJob_eq hid hkey
    cases hgoes with
    | unknown _ hfinds hjob =>
        obtain ⟨rfl, rfl⟩ := Prod.mk.inj (Option.some.inj hfinds)
        rw [hget] at hjob
        cases hjob
    | found _ hfinds hjob =>
        obtain ⟨rfl, rfl⟩ := Prod.mk.inj (Option.some.inj hfinds)
        rw [hget] at hjob
        obtain rfl := Option.some.inj hjob
        exact Or.inr (Or.inl rfl)
  · cases hgoes with
    | unknown _ hfinds _ => cases hfinds
    | found _ hfinds _ => cases hfinds
    | done _ => exact Or.inr (Or.inr (Or.inl rfl))
    | notDone hnot =>
        rw [hdone] at hnot
        cases hnot
  · cases hgoes with
    | unknown _ hfinds _ => cases hfinds
    | found _ hfinds _ => cases hfinds
    | copied => exact Or.inr (Or.inr (Or.inr (by rw [hargs])))
  · cases hgoes with
    | unknown _ hfinds _ => cases hfinds
    | found _ hfinds _ => cases hfinds

/-- **The result of a finished job.** Once the server has said that a job is finished, the job is finished in
    every later state, with the same arguments, and every `FetchJobResult` for it that arrives from then on
    can only return these arguments, whatever the other threads do between its steps. -/
theorem finished_result {labels : List (List (JobEvent K))} (hrun : Server.Run labels s) {n : ℕ} {jobId : ℤ}
    (htold : s.handler n = some (.returned (.status jobId .finished))) :
    ∃ id < s.jobs.count, int32 jobId = id ∧ ∀ labels' s', Trace Server.Step s labels' s' →
      ((s'.job id).status = .finished ∧ (s'.job id).jobArgs = (s.job id).jobArgs) ∧
      ∀ m jobId', s'.handler m = some (.received (.fetchJobResult jobId')) → int32 jobId' = id →
        ∀ labels'' s'' response, Trace Server.Step s' labels'' s'' →
          s''.handler m = some (.returned response) → response = .work (some (s.job id).jobArgs) := by
  have hs := finishedInv_run hrun
  obtain ⟨id, hid, hkey, hfinished⟩ := hs.tells n _ htold
  refine ⟨id, hid, hkey, fun labels' s' hrun' => ?_⟩
  obtain ⟨hs', hid', hfinished', hargs'⟩ := finished_stays_run hs hid hfinished hrun'
  refine ⟨⟨hfinished', hargs'⟩, fun m jobId' hm hkey' labels'' s'' response hrun'' hreturned => ?_⟩
  -- the thread goes its way while the job stays as it is
  have hfetches : ∃ h, s''.handler m = some h ∧ h.Fetches id (s.job id).jobArgs := by
    refine hrun''.inv (I := fun _ t => ∃ h, t.handler m = some h ∧ h.Fetches id (s.job id).jobArgs)
      ⟨_, hm, Or.inl ⟨jobId', rfl, hkey'⟩⟩ ?_
    rintro labels t events t' hbefore ⟨h, hh, hfetch⟩ hstep
    obtain ⟨-, hlt, hstatus, hargs⟩ := finished_stays_run hs' hid' hfinished' hbefore
    rcases handler_step hstep hh with hsame | ⟨h', hh', hgoes⟩
    · exact ⟨h, hsame, hfetch⟩
    · exact ⟨h', hh', hfetch.step hlt hstatus (hargs.trans hargs') hgoes⟩
  obtain ⟨h, hh, hfetch⟩ := hfetches
  rw [hreturned] at hh
  obtain rfl := Option.some.inj hh
  rcases hfetch with ⟨_, heq, -⟩ | heq | heq | heq
  · cases heq
  · cases heq
  · cases heq
  · exact (Handler.returned.inj heq)

end

theorem finished_result_oneTile : ∃ labels s labels' s' labels'' s'', Server.Run (K := ℚ) labels s ∧
    s.handler 3 = some (.returned (.status 0 .finished)) ∧ Trace Server.Step s labels' s' ∧
    s'.handler 4 = some (.received (.fetchJobResult 0)) ∧ Trace Server.Step s' labels'' s'' ∧
    s''.handler 4 = some (.returned (.work (some (s.job 0).jobArgs))) := by
  obtain ⟨labels, s, labels', s', labels'', s'', response, hrun, htold, -, hrun', hm, hrun'', hreturned⟩ :=
    oneTile_served
  obtain ⟨id, -, hkey, hstays⟩ := finished_result hrun htold
  have hzero : int32 0 = 0 := rfl
  obtain rfl : 0 = id := by exact_mod_cast hzero.symm.trans hkey
  rw [(hstays labels' s' hrun').2 4 0 hm rfl labels'' s'' response hrun'' hreturned] at hreturned
  exact ⟨labels, s, labels', s', labels'', s'', hrun, htold, hrun', hm, hrun'', hreturned⟩

end Scamp
