import Scamp.Distributed.Correctness.Finished
import Scamp.Distributed.Correctness.Merges

/-!
# `Distributed.Correctness.TileMessages` — what a worker gets from the server

What `RequestSCAMPWork` returns is the message of a tile of a job, and its ids lead back to that tile
(`work_message`). The message of a tile does not change, so that what a worker got at some time is the
message of a tile from then on.
-/

namespace Scamp

open Lib
open SCAMPProto (JobStatus)

section
variable {K : Type} [Field K] [LinearOrder K]
variable {s s' : Server K} {labels : List (List (JobEvent K))} {events : List (JobEvent K)}

/-! ## The jobs of a run -/

/-- The keys of the jobs are of type `int`. -/
theorem count_le_run (hrun : Server.Run labels s) : s.jobs.count ≤ 2 ^ 31 := by
  refine hrun.inv (I := fun _ s => s.jobs.count ≤ 2 ^ 31) (Nat.zero_le _) ?_
  rintro labels s events s' - hle hstep
  cases hstep with
  | arrives => exact hle
  | @handles n h m s' events hn hnext _ =>
      obtain ⟨h', -, hgoes, -⟩ := next_spec hnext
      have ht := hgoes.touches
      generalize s'.jobs = jobs at ht ⊢
      cases ht with
      | created _ hcount _ => exact Nat.succ_le_of_lt hcount
      | _ => exact hle

omit [LinearOrder K] in
/-- The key of a job of a run, as an `int`. -/
theorem int32_job {id : ℕ} (hid : id < 2 ^ 31) : int32 (id : ℤ) = id := by
  unfold int32
  exact Int.bmod_eq_of_le (by omega) (by omega)

/-- A job that has tiles has the id under which it was created. -/
theorem create_jobId {args : SCAMPProto.SCAMPArgs K} {id : ℤ} {job : Job K} (h : Job.create args id = some job)
    (htiles : 0 < job.tileCounter) : job.jobId = id := by
  rcases create_cases h with ⟨hrejected, -⟩ | ⟨profileA, profileB, -, rfl⟩
  · rw [hrejected.count] at htiles
    cases htiles
  · rfl

/-- A job of a run, and its tiles. -/
theorem job_tiles (hrun : Server.Run labels s) {id : ℕ} (hid : id < s.jobs.count) :
    (∀ k, ((s.job id).tiles k).tileId = k) ∧ (0 < (s.job id).tileCounter → (s.job id).jobId = id) := by
  obtain ⟨args, hadded⟩ := exists_added (family_run hrun) (if_pos hid : s.family id = some (s.job id))
  obtain ⟨-, start, hcreate, hjob⟩ := job_run hrun hadded
  have hids := (create_start hcreate).2.1
  obtain ⟨hsame, -⟩ := run_refines hids (run_allowed hjob)
  refine ⟨fun k => (hsame.ids k).trans (hids k), fun htiles => ?_⟩
  rw [hsame.jobId, create_jobId hcreate (hsame.count ▸ htiles)]

/-- No step changes the tiles of a job. -/
theorem step_sameTiles (hrun : Server.Run labels s) (hstep : Server.Step s events s') {id : ℕ}
    (hid : id < s.jobs.count) : SameTiles (s.job id) (s'.job id) := by
  rcases step_job hstep hid with heq | ⟨call, reply, ⟨-, horder⟩, hcall⟩
  · rw [heq]
    exact .refl _
  · have hallowed : CallStep (fun _ _ => True) (s.job id) (call, reply) (s'.job id) := ⟨horder, trivial, hcall⟩
    exact (call_match (job_tiles hrun hid).1 (step_allowed hallowed)).2

/-! ## Messages -/

/-- The message of a tile of job `id`. -/
def Server.TileMessage (s : Server K) (id : ℕ) (message : SCAMPProto.SCAMPArgs K) : Prop :=
  id < s.jobs.count ∧ ∃ k < (s.job id).tileCounter, message = (s.job id).message k

/-- It stays one. -/
theorem Server.TileMessage.step {id : ℕ} {message : SCAMPProto.SCAMPArgs K} (h : s.TileMessage id message)
    (hrun : Server.Run labels s) (hstep : Server.Step s events s') : s'.TileMessage id message := by
  obtain ⟨hid, k, hk, rfl⟩ := h
  have hsame := step_sameTiles hrun hstep hid
  exact ⟨hid.trans_le (step_count_le hstep), k, hsame.count ▸ hk, (hsame.message k).symm⟩

/-- **The ids in a message** lead back to its tile. -/
theorem Server.TileMessage.ids {id : ℕ} {message : SCAMPProto.SCAMPArgs K} (h : s.TileMessage id message)
    (hrun : Server.Run labels s) : message.jobId = id ∧ int32 message.jobId = id ∧
      ∃ k < (s.job id).tileCounter, message.tileId = k ∧ message = (s.job id).message k := by
  obtain ⟨hid, k, hk, rfl⟩ := h
  obtain ⟨hids, hjobId⟩ := job_tiles hrun hid
  have hjob : ((s.job id).message k).jobId = id := hjobId (Nat.zero_lt_of_lt hk)
  refine ⟨hjob, ?_, k, hk, congrArg Nat.cast (hids k), rfl⟩
  rw [hjob]
  exact int32_job (hid.trans_le (count_le_run hrun))

/-- **What a worker gets is the message of a tile** of the job that was chosen. -/
theorem work_message (hrun : Server.Run labels s) (hstep : Server.Step s events s') {id : ℕ} {order : List ℕ}
    {now throughput : ℤ} {message : SCAMPProto.SCAMPArgs K} (hid : id < s.jobs.count)
    (hmoved : .moved id (.fetchReadyTile order now throughput, .work (some message)) ∈ events) :
    s'.TileMessage id message := by
  obtain ⟨k, rfl⟩ : ∃ k, message = (s.job id).message k := by
    rcases step_happens (serverInv_run hrun) hstep (P := fun _ _ => True) fun _ _ _ => trivial with
      ⟨rfl, -⟩ | ⟨e, rfl, hhappens⟩
    · cases hmoved
    · obtain rfl := List.mem_singleton.mp hmoved
      generalize s'.family = family at hhappens
      cases hhappens with
      | @moved _ _ job job' hjob hcall =>
          obtain rfl := Option.some.inj ((if_pos hid : s.family id = some (s.job id)).symm.trans hjob)
          obtain ⟨horder, -, hcall⟩ := hcall
          obtain ⟨⟨job', args'⟩, hfetch, heq⟩ := Option.map_eq_some_iff.mp hcall
          obtain ⟨rfl, hargs⟩ := Prod.mk.inj heq
          exact (fetch_message horder hfetch).2 message (Reply.work.inj hargs)
  -- it was handed out, so it is the message of a tile of the job
  obtain ⟨args, hadded⟩ := exists_added (family_run hrun) (if_pos hid : s.family id = some (s.job id))
  have hadded' : .added id args ∈ (labels ++ [events]).flatten := by
    rw [List.flatten_append]
    exact List.mem_append_left _ hadded
  obtain ⟨-, start, hcreate, hjob⟩ := job_run (hrun.snoc hstep) hadded'
  obtain ⟨acts, -, hevents, hacts⟩ := queueInv_job hcreate hjob
  have hsame := step_sameTiles hrun hstep hid
  have hk : k < (s'.job id).tileCounter := by
    refine Scheduler.handed_lt (create_start hcreate).1 hacts ?_
    rw [hevents]
    refine List.mem_flatMap.mpr ⟨_, mem_stepsOf.mpr (List.mem_flatten.mpr ⟨events, by simp, hmoved⟩), ?_⟩
    have hid : ((s.job id).message k).tileId = k := congrArg Nat.cast ((job_tiles hrun hid).1 k)
    simp [Scamp.events, hid]
  exact ⟨hid.trans_le (step_count_le hstep), k, hk, (hsame.message k).symm⟩

end

end Scamp
