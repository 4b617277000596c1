import Scamp.Distributed.Correctness.Create

/-!
# `Distributed.Correctness.Merges` — what the profiles of a job take in

Of all calls only `CombineProfile` changes the profiles of a job. What holds of the profiles of a new job,
and is kept by the merge of one tile, holds in every run of the tiles merged so far (`merge_run`). A tile
is merged at the place where `generate_args` put it, and a worker gets the message of that place
(`fetch_message`).
-/

namespace Scamp

open Lib

section
variable {K : Type} [Field K]

/-- The message for tile `id`. -/
def Job.message (job : Job K) (id : ℕ) : SCAMPProto.SCAMPArgs K :=
  { ((job.tiles id).generateArgs job.jobArgs).2 with jobId := job.jobId }

theorem SameTiles.message {job job' : Job K} (h : SameTiles job job') (id : ℕ) : job'.message id = job.message id := by
  unfold Job.message
  rw [(generateArgs_congr (h.place id) h.settings).2, h.jobId]

/-! ## Calls that merge nothing -/

omit [Field K] in
theorem cleanup_jobArgs (now : ℤ) (order : List ℕ) (job : Job K) :
    (job.cleanupFailedTiles now order).1.jobArgs = job.jobArgs := by
  induction order generalizing job with
  | nil => rfl
  | cons id order ih =>
      unfold Job.cleanupFailedTiles
      split
      · split
        · rfl
        · exact ih (job.retryTile now id)
      · exact ih job

/-- A tile that is handed out comes with its message. -/
theorem handOut_cases {job job' : Job K} {now throughput : ℤ} {args : Option (SCAMPProto.SCAMPArgs K)}
    (h : job.handOut now throughput = some (job', args)) :
    job'.jobArgs = job.jobArgs ∧ ∃ id, args = some (job.message id) := by
  unfold Job.handOut at h
  split at h
  · cases h
  · next id rest hqueue =>
      split at h
      · cases h
      · obtain ⟨rfl, rfl⟩ := Prod.mk.inj (Option.some.inj h)
        exact ⟨rfl, id, rfl⟩

/-- **What a worker gets** is the message of a tile. -/
theorem fetch_message {job job' : Job K} {order : List ℕ} {now throughput : ℤ}
    {args : Option (SCAMPProto.SCAMPArgs K)} (horder : order.Perm (List.range job.tileCounter))
    (h : job.fetchReadyTile order now throughput = some (job', args)) :
    job'.jobArgs = job.jobArgs ∧ ∀ message, args = some message → ∃ id, message = job.message id := by
  unfold Job.fetchReadyTile at h
  split at h
  · obtain ⟨rfl, rfl⟩ := Prod.mk.inj (Option.some.inj h)
    exact ⟨rfl, by simp⟩
  · next hrunning =>
      split at h
      · next hempty =>
          have hnil := List.isEmpty_iff.mp hempty
          have hsame := (cleanup_match (R := fun _ _ => True) (F := fun _ => True) now order job
            (horder.nodup_iff.mpr List.nodup_range)
            (fun id hid => ⟨List.mem_range.mp (horder.subset hid), hnil ▸ List.not_mem_nil⟩)
            (not_not.mp hrunning)).2
          dsimp only at h
          split at h
          · obtain ⟨rfl, rfl⟩ := Prod.mk.inj (Option.some.inj h)
            exact ⟨cleanup_jobArgs now order job, by simp⟩
          · obtain ⟨hargs, id, rfl⟩ := handOut_cases h
            refine ⟨hargs.trans (cleanup_jobArgs now order job), fun message hmessage => ⟨id, ?_⟩⟩
            rw [← Option.some.inj hmessage, hsame.message]
      · obtain ⟨hargs, id, rfl⟩ := handOut_cases h
        exact ⟨hargs, fun message hmessage => ⟨id, (Option.some.inj hmessage).symm⟩⟩

omit [Field K] in
theorem hasWork_jobArgs (job : Job K) (order : List ℕ) (now : ℤ) :
    (job.hasWork order now).1.jobArgs = job.jobArgs := by
  unfold Job.hasWork
  split
  · split
    · exact cleanup_jobArgs now order job
    · rfl
  · rfl

variable [LinearOrder K]

/-- **A call that merges nothing leaves the profiles as they are**, and another one merges one tile. -/
theorem call_cases {job job' : Job K} {call : Call K} {reply : Reply K} (horder : call.Orders job)
    (h : job.call call = some (job', reply)) :
    (job'.jobArgs = job.jobArgs ∧ ∀ id, .merged id ∉ events (call, reply)) ∨
      ∃ request now, call = .combineProfile request now ∧ reply = .answer true ∧
        job.combineProfile request now = some (job', true) := by
  cases call with
  | checkTimeTile now =>
      obtain ⟨rfl, rfl⟩ := Prod.mk.inj (Option.some.inj h)
      exact Or.inl ⟨rfl, fun _ => List.not_mem_nil⟩
  | isDone =>
      obtain ⟨rfl, rfl⟩ := Prod.mk.inj (Option.some.inj h)
      refine Or.inl ⟨?_, fun _ => List.not_mem_nil⟩
      unfold Job.isDone
      split_ifs <;> rfl
  | setTileFailed tileId now =>
      obtain ⟨rfl, rfl⟩ := Prod.mk.inj (Option.some.inj h)
      refine Or.inl ⟨?_, fun _ => List.not_mem_nil⟩
      unfold Job.setTileFailed
      split_ifs <;> rfl
  | fetchReadyTile order now throughput =>
      obtain ⟨⟨job', args⟩, hfetch, heq⟩ := Option.map_eq_some_iff.mp h
      obtain ⟨rfl, rfl⟩ := Prod.mk.inj heq
      refine Or.inl ⟨(fetch_message horder hfetch).1, fun id => ?_⟩
      cases args <;> simp [events]
  | combineProfile request now =>
      obtain ⟨⟨job', merged⟩, hcombine, heq⟩ := Option.map_eq_some_iff.mp h
      obtain ⟨rfl, rfl⟩ := Prod.mk.inj heq
      cases merged with
      | true => exact Or.inr ⟨request, now, rfl, rfl, hcombine⟩
      | false =>
          rcases combine_cases hcombine with ⟨-, rfl⟩ | ⟨hfalse, -⟩
          · exact Or.inl ⟨rfl, fun _ => List.not_mem_nil⟩
          · cases hfalse
  | hasWork order now =>
      obtain ⟨rfl, rfl⟩ := Prod.mk.inj (Option.some.inj h)
      exact Or.inl ⟨hasWork_jobArgs job order now, fun _ => List.not_mem_nil⟩

/-! ## Runs -/

/-- The merge of a result for tile `id`, at the place that `generate_args` gives the tile. -/
def MergesTile (start : Job K) (id : ℕ) (request jobArgs jobArgs' : SCAMPProto.SCAMPArgs K) : Prop :=
  let tile := ((start.tiles id).generateArgs start.jobArgs).1
  mergeProfile tile.args jobArgs request.profileA (uint64 tile.startCol) (uint64 tile.width) request.profileB
    (uint64 tile.startRow) (uint64 tile.height) = some jobArgs'

/-- **What merges keep holds in every run**, of the tiles merged so far. -/
theorem merge_run {P : Job K → Call K → Prop} {Q : (ℕ → Prop) → SCAMPProto.SCAMPArgs K → Prop} {start job : Job K}
    {trace : List (Call K × Reply K)} (hids : ∀ id, (start.tiles id).tileId = id)
    (hnew : ∀ id, (start.tiles id).hasArgs = false) (hstart : Q (fun _ => False) start.jobArgs)
    (hmerge : ∀ s merged request now id jobArgs, SameTiles start s → Q merged s.jobArgs →
      P s (.combineProfile request now) → (∃ s', s.combineProfile request now = some (s', true)) →
      id < start.tileCounter → int32 request.tileId = id →
      MergesTile start id request s.jobArgs jobArgs → Q (fun k => merged k ∨ k = id) jobArgs)
    (hrun : Job.Run P start trace job) :
    SameTiles start job ∧ Q (fun k => .merged k ∈ trace.flatMap events) job.jobArgs := by
  refine hrun.inv (I := fun trace s => SameTiles start s ∧ Q (fun k => .merged k ∈ trace.flatMap events) s.jobArgs)
    ⟨.refl start, by simpa using hstart⟩ ?_
  rintro trace s ⟨call, reply⟩ s' - ⟨hsame, hQ⟩ hstep
  refine ⟨hsame.trans (call_match (fun id => (hsame.ids id).trans (hids id)) (step_allowed hstep)).2, ?_⟩
  obtain ⟨horder, hP, hcall⟩ := hstep
  rcases call_cases horder hcall with ⟨hargs, hnone⟩ | ⟨request, now, rfl, rfl, hcombine⟩
  · rw [hargs]
    simpa [hnone] using hQ
  · have hcombined : ∃ s', s.combineProfile request now = some (s', true) := ⟨_, hcombine⟩
    rcases combine_cases hcombine with ⟨hfalse, -⟩ | ⟨-, id, hid, htile, haccepted, jobArgs, hmerged, rfl⟩
    · cases hfalse
    · have hargs : (s.tiles id).hasArgs = true := (accepts_cases haccepted).1
      -- the tile has arguments now, and had none at the start
      have hgiven : (s.tiles id).given = ((start.tiles id).generateArgs start.jobArgs).1.given := by
        refine (hsame.given id).resolve_left fun hg => ?_
        have heq : (s.tiles id).hasArgs = (start.tiles id).hasArgs := congrArg Prod.fst hg
        rw [hargs, hnew] at heq
        cases heq
      obtain ⟨-, hrow, hcol, hargs⟩ : _ ∧ _ ∧ _ ∧ _ := by
        simpa only [DistributedTile.given, Prod.mk.injEq] using hgiven
      obtain ⟨-, -, -, hheight, hwidth⟩ : _ ∧ _ ∧ _ ∧ _ ∧ _ := by
        simpa only [DistributedTile.place, Prod.mk.injEq] using hsame.place id
      rw [hargs, hrow, hcol, hheight, hwidth] at hmerged
      have hstep := hmerge s _ request now id jobArgs hsame hQ hP hcombined (hsame.count ▸ hid) htile hmerged
      have hevents : events (.combineProfile request now, .answer true) = [.merged id] := by
        simp [events, htile]
      have hmem : ∀ k, Event.merged k ∈ (trace ++ [(Call.combineProfile request now, Reply.answer true)]).flatMap
          events ↔ .merged k ∈ trace.flatMap events ∨ k = id := by
        simp [hevents]
      simp only [hmem]
      exact hstep

end

end Scamp
