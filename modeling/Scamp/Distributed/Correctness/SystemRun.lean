import Scamp.Distributed.Correctness.TileMessages
import Scamp.Distributed.System

/-!
# `Distributed.Correctness.SystemRun` — what every run of the system keeps

The callers of the server know more than the server, which takes requests from whomever: a caller knows
which call its answer belongs to (`Handler.Serves`), a worker sends what it computed from the message of a
tile (`SCAMPWorker.Honest`), and a client asks for the job that the server created from its request
(`SCAMPInterface.Knows`). Transport failures, repeated results and late answers are all part of the runs.
-/

namespace Scamp

open Lib
open SCAMPProto (JobStatus)

section
variable {K : Type} [Field K] [LinearOrder K]
variable {s s' : Server K} {h h' : Handler K} {events : List (JobEvent K)} {labels : List (List (JobEvent K))}

/-! ## Calls -/

/-- Where the thread of a call of `request` may be, with what happened to the jobs so far in `hs`. -/
inductive Handler.Serves (hs : List (JobEvent K)) (s : Server K) : Request K → Handler K → Prop
  | received {request} : Serves hs s request (.received request)
  | refused {request code} : Serves hs s request (.returned (.error code))
  | added {args id} : id < s.jobs.count → .added id args ∈ hs → Serves hs s (.issueNewJob args) (.added id)
  | reportingNew {args id key job} : id < s.jobs.count → .added id args ∈ hs → key = int64 id →
      Serves hs s (.issueNewJob args) (.reporting key job)
  | issued {args id key status} : id < s.jobs.count → .added id args ∈ hs → key = int64 id →
      Serves hs s (.issueNewJob args) (.returned (.status key status))
  | checkingDone {jobId : ℕ} {key job} : key = int64 jobId → Serves hs s (.checkJobStatus jobId) (.checkingDone key job)
  | reporting {jobId : ℕ} {key job} : key = int64 jobId → Serves hs s (.checkJobStatus jobId) (.reporting key job)
  | checked {jobId : ℕ} {key status} : key = int64 jobId →
      Serves hs s (.checkJobStatus jobId) (.returned (.status key status))
  | fetchingDone {jobId job} : Serves hs s (.fetchJobResult jobId) (.fetchingDone job)
  | copying {jobId job} : Serves hs s (.fetchJobResult jobId) (.copying job)
  | result {jobId args} : Serves hs s (.fetchJobResult jobId) (.returned (.work args))
  | asking {throughput i} : Serves hs s (.requestSCAMPWork throughput) (.asking throughput i)
  | fetching {throughput job} : Serves hs s (.requestSCAMPWork throughput) (.fetching throughput job)
  | work {throughput args} : (∀ message, args = some message → ∃ id, s.TileMessage id message) →
      Serves hs s (.requestSCAMPWork throughput) (.returned (.work args))
  | combining {request job} : int32 request.jobId = (job : ℕ) →
      Serves hs s (.scampCombiner request) (.combining request job)
  | combined {request} : Serves hs s (.scampCombiner request) (.returned .result)
  | failing {request tileId job} : tileId = int32 request.tileId →
      Serves hs s (.reportTileFailure request) (.failing tileId job)
  | failed {request} : Serves hs s (.reportTileFailure request) (.returned .result)
  | checkingTime {iter} : Serves hs s .cleanup (.checkingTime iter)
  | checkingStatus {iter} : Serves hs s .cleanup (.checkingStatus iter)
  | swept : Serves hs s .cleanup (.returned .result)

/-- What happens later changes nothing of it. -/
theorem Handler.Serves.mono {hs hs' : List (JobEvent K)} {request : Request K} (hserves : h.Serves hs s request)
    (hrun : Server.Run labels s) (hstep : Server.Step s events s') (hle : hs ⊆ hs') : h.Serves hs' s' request := by
  have hcount := step_count_le hstep
  cases hserves with
  | added hid hadded => exact .added (hid.trans_le hcount) (hle hadded)
  | reportingNew hid hadded hkey => exact .reportingNew (hid.trans_le hcount) (hle hadded) hkey
  | issued hid hadded hkey => exact .issued (hid.trans_le hcount) (hle hadded) hkey
  | combining hjob => exact .combining hjob
  | work hmessage =>
      refine .work fun message hargs => ?_
      obtain ⟨id, htile⟩ := hmessage message hargs
      exact ⟨id, htile.step hrun hstep⟩
  | _ => constructor <;> assumption

omit [LinearOrder K] in
/-- The thread of a call finds the job. -/
theorem Handler.Serves.found {hs : List (JobEvent K)} {request : Request K} (hserves : h.Serves hs s request)
    {jobId : ℤ} {next : ℕ → Handler K} {job : ℕ} (hfinds : h.finds = some (jobId, next))
    (hjob : s.jobs.getJob jobId = some job) : (next job).Serves hs s request := by
  have hkey := (lt_of_getJob hjob).2
  cases hserves with
  | received =>
      cases request with
      | checkJobStatus jobId =>
          obtain ⟨rfl, rfl⟩ := Prod.mk.inj (Option.some.inj hfinds)
          exact .checkingDone rfl
      | fetchJobResult jobId =>
          obtain ⟨rfl, rfl⟩ := Prod.mk.inj (Option.some.inj hfinds)
          exact .fetchingDone
      | scampCombiner request =>
          obtain ⟨rfl, rfl⟩ := Prod.mk.inj (Option.some.inj hfinds)
          have hid : int32 (int32 request.jobId) = int32 request.jobId := Int.bmod_bmod
          exact .combining (hid.symm.trans hkey.symm)
      | reportTileFailure request =>
          obtain ⟨rfl, rfl⟩ := Prod.mk.inj (Option.some.inj hfinds)
          exact .failing rfl
      | _ => cases hfinds
  | added hid hadded =>
      obtain ⟨rfl, rfl⟩ := Prod.mk.inj (Option.some.inj hfinds)
      exact .reportingNew hid hadded rfl
  | _ => cases hfinds

/-- **A step of the thread of a call.** -/
theorem Handler.Serves.step {hs : List (JobEvent K)} {request : Request K} (hserves : h.Serves hs s request)
    (hrun : Server.Run labels s) (hstep : Server.Step s events s')
    (hknown : ∀ id, h.pointsTo = some id → id < s.jobs.count) (hgoes : Goes s h events s'.jobs h') :
    h'.Serves (hs ++ events) s' request := by
  have hmono : h.Serves (hs ++ events) s' request := hserves.mono hrun hstep (List.subset_append_left hs events)
  obtain ⟨jobs, hjobs⟩ : ∃ jobs, jobs = s'.jobs := ⟨_, rfl⟩
  rw [← hjobs] at hgoes
  cases hgoes with
  | invalid => exact .refused
  | threw => exact .refused
  | unknown => exact .refused
  | found _ hfinds hjob =>
      exact (hserves.found hfinds hjob).mono hrun hstep (List.subset_append_left hs _)
  | created _ _ _ =>
      cases hserves
      refine .added ?_ (by simp)
      rw [← hjobs]
      exact Nat.lt_succ_self _
  | reported =>
      cases hmono with
      | reportingNew hid hadded hkey => exact .issued hid hadded hkey
      | reporting hkey => exact .checked hkey
  | checked =>
      cases hserves with
      | checkingDone hkey => exact .reporting hkey
  | done _ =>
      cases hserves
      exact .copying
  | notDone _ =>
      cases hserves
      exact .result
  | copied =>
      cases hserves
      exact .result
  | begins _ =>
      cases hserves
      exact .asking
  | noWork _ =>
      cases hserves
      exact .work (by simp)
  | chosen _ _ _ =>
      cases hserves
      exact .fetching
  | passed _ _ _ =>
      cases hserves
      exact .asking
  | @fetched throughput job order now job' args hfetch =>
      cases hserves
      refine .work fun message hargs => ⟨job, ?_⟩
      subst hargs
      exact work_message hrun hstep (hknown job rfl) (List.mem_singleton_self _)
  | combined _ =>
      cases hserves
      exact .combined
  | failed =>
      cases hserves
      exact .failed
  | sweeps _ =>
      cases hserves
      exact .checkingTime
  | swept _ =>
      cases hserves
      exact .swept
  | timed _ =>
      cases hserves
      exact .checkingStatus
  | erased _ _ =>
      cases hserves
      exact .checkingTime
  | kept _ _ =>
      cases hserves
      exact .checkingTime

/-- Thread `rpc` is that of a call of `request`. -/
def Server.Calls (hs : List (JobEvent K)) (s : Server K) (rpc : ℕ) (request : Request K) : Prop :=
  ∃ h, s.handler rpc = some h ∧ h.Serves hs s request

/-- It stays so. -/
theorem Server.Calls.step {hs : List (JobEvent K)} {rpc : ℕ} {request : Request K} (hcalls : s.Calls hs rpc request)
    (hrun : Server.Run labels s) (hstep : Server.Step s events s') : s'.Calls (hs ++ events) rpc request := by
  obtain ⟨h, hh, hserves⟩ := hcalls
  rcases handler_step hstep hh with hsame | ⟨h', hh', hgoes⟩
  · exact ⟨h, hsame, hserves.mono hrun hstep (List.subset_append_left hs events)⟩
  · exact ⟨h', hh', hserves.step hrun hstep (fun id => (serverInv_run hrun).known rpc h id hh) hgoes⟩

variable [HasSqrt K]

/-! ## Results -/

/-- A worker computed `request` from the message of a tile of job `id`. -/
def Server.TileResult (s : Server K) (id : ℕ) (request : SCAMPProto.SCAMPArgs K) : Prop :=
  ∃ message, s.TileMessage id message ∧ Nonempty (Execution message request)

theorem Server.TileResult.step {id : ℕ} {request : SCAMPProto.SCAMPArgs K} (hresult : s.TileResult id request)
    (hrun : Server.Run labels s) (hstep : Server.Step s events s') : s'.TileResult id request := by
  obtain ⟨message, hmessage, e⟩ := hresult
  exact ⟨message, hmessage.step hrun hstep, e⟩

/-- The job id in a result leads back to the job. -/
theorem Server.TileResult.key {id : ℕ} {request : SCAMPProto.SCAMPArgs K} (hresult : s.TileResult id request)
    (hrun : Server.Run labels s) : int32 request.jobId = id := by
  obtain ⟨message, hmessage, ⟨e⟩⟩ := hresult
  rw [e.request_eq]
  exact (hmessage.ids hrun).2.1

/-- The calls of `SCAMPCombiner` send results. -/
def Request.Honest (s : Server K) : Request K → Prop
  | .scampCombiner request => ∃ id, s.TileResult id request
  | _ => True

/-- What is combined was computed from the message of a tile of the job. -/
def SentByWorker (job : Job K) : Call K → Prop
  | .combineProfile request _ => ∃ k < job.tileCounter, Nonempty (Execution (job.message k) request)
  | _ => True

/-- The thread is that of an honest call. -/
def Handler.Sent (hs : List (JobEvent K)) (s : Server K) (h : Handler K) : Prop :=
  ∃ request, h.Serves hs s request ∧ request.Honest s

theorem Request.Honest.step {request : Request K} (hhonest : request.Honest s) (hrun : Server.Run labels s)
    (hstep : Server.Step s events s') : request.Honest s' := by
  unfold Request.Honest at hhonest ⊢
  split
  · obtain ⟨id, hresult⟩ := hhonest
    exact ⟨id, hresult.step hrun hstep⟩
  · trivial

/-- **What the thread of an honest call combines** was computed from the message of a tile. -/
theorem Handler.Sent.moves {hs : List (JobEvent K)} (hsent : h.Sent hs s) (hrun : Server.Run labels s)
    {jobs : JobList (Job K)} (hgoes : Goes s h events jobs h') (id : ℕ) (call : Call K × Reply K)
    (hmoved : .moved id call ∈ events) : SentByWorker (s.job id) call.1 := by
  obtain ⟨request, hserves, hhonest⟩ := hsent
  cases hgoes with
  | combined hcombine =>
      obtain ⟨rfl, rfl⟩ := Happening.moved.inj (List.mem_singleton.mp hmoved)
      cases hserves with
      | combining hkey =>
          obtain ⟨job, hresult⟩ := hhonest
          have hjob := hresult.key hrun
          obtain rfl : id = job := by exact_mod_cast hkey.symm.trans hjob
          obtain ⟨message, hmessage, e⟩ := hresult
          obtain ⟨-, -, k, hk, -, rfl⟩ := hmessage.ids hrun
          exact ⟨k, hk, e⟩
  | _ =>
      first
        | (cases hmoved; done)
        | (obtain ⟨rfl, rfl⟩ := Happening.moved.inj (List.mem_singleton.mp hmoved)
           exact trivial)
        | cases List.mem_singleton.mp hmoved

/-! ## Workers -/

/-- What the thread of `run` of a worker knows. -/
def RunPhase.Honest (hs : List (JobEvent K)) (s : Server K) (throughput : ℤ) : RunPhase K → Prop
  | .awaitingWork rpc => s.Calls hs rpc (.requestSCAMPWork throughput)
  | .executing work => ∃ id, s.TileMessage id work
  | .saving computedResult => ∃ id, s.TileResult id computedResult
  | _ => True

/-- What the thread of `MergeCompletedResults` of a worker knows. -/
def MergePhase.Honest (s : Server K) : MergePhase K → Prop
  | .awaitingMerge _ _ completedWork _ => ∃ id, s.TileResult id completedWork
  | .givingUp completedWork _ => ∃ id, s.TileResult id completedWork
  | _ => True

/-- A worker has messages of tiles, and results that it computed from them. -/
structure SCAMPWorker.Honest (hs : List (JobEvent K)) (s : Server K) (w : SCAMPWorker K) : Prop where
  run : w.run.Honest hs s w.expectedThroughput
  merge : w.merge.Honest s
  queue : ∀ x ∈ w.workToMerge, ∃ id, s.TileResult id x.2

theorem RunPhase.Honest.mono {hs : List (JobEvent K)} {throughput : ℤ} {phase : RunPhase K}
    (h : phase.Honest hs s throughput) (hrun : Server.Run labels s) (hstep : Server.Step s events s') :
    phase.Honest (hs ++ events) s' throughput := by
  cases phase with
  | awaitingWork rpc => exact Server.Calls.step h hrun hstep
  | executing work =>
      obtain ⟨id, hmessage⟩ := h
      exact ⟨id, hmessage.step hrun hstep⟩
  | saving computedResult =>
      obtain ⟨id, hresult⟩ := h
      exact ⟨id, hresult.step hrun hstep⟩
  | _ => trivial

theorem MergePhase.Honest.mono {phase : MergePhase K} (h : phase.Honest s) (hrun : Server.Run labels s)
    (hstep : Server.Step s events s') : phase.Honest s' := by
  cases phase with
  | awaitingMerge rpc retries completedWork left =>
      obtain ⟨id, hresult⟩ := h
      exact ⟨id, hresult.step hrun hstep⟩
  | givingUp completedWork left =>
      obtain ⟨id, hresult⟩ := h
      exact ⟨id, hresult.step hrun hstep⟩
  | _ => trivial

theorem SCAMPWorker.Honest.mono {hs : List (JobEvent K)} {w : SCAMPWorker K} (hw : w.Honest hs s)
    (hrun : Server.Run labels s) (hstep : Server.Step s events s') : w.Honest (hs ++ events) s' where
  run := hw.run.mono hrun hstep
  merge := hw.merge.mono hrun hstep
  queue x hx := by
    obtain ⟨id, hresult⟩ := hw.queue x hx
    exact ⟨id, hresult.step hrun hstep⟩

/-- **A step of a worker.** What it sends is honest, and it stays so once its call is under way. -/
theorem SCAMPWorker.Honest.step {hs : List (JobEvent K)} {w w' : SCAMPWorker K} (hw : w.Honest hs s)
    {answers : ℕ → Option (Response K) → Prop} {next : ℕ} {request : Option (Request K)}
    (hanswers : ∀ rpc response, answers rpc (some response) → s.handler rpc = some (.returned response))
    (hstep : w.Step answers next request w') (hsent : ∀ r, request = some r → s.handler next = some (.received r)) :
    w'.Honest hs s ∧ ∀ r, request = some r → r.Honest s := by
  obtain ⟨hrun, hmerge, hqueue⟩ := hw
  have hnone : ∀ r, (none : Option (Request K)) = some r → r.Honest s := by simp
  have hsome : ∀ request : Request K, request.Honest s → ∀ r, some request = some r → r.Honest s := by
    rintro request hhonest r hr
    rwa [← Option.some.inj hr]
  cases hstep with
  | requests _ => exact ⟨⟨⟨_, hsent _ rfl, .received⟩, hmerge, hqueue⟩, hsome _ trivial⟩
  | receives hphase hanswer =>
      rw [hphase] at hrun
      obtain ⟨h, hh, hserves⟩ := hrun
      rw [hanswers _ _ hanswer] at hh
      obtain rfl := Option.some.inj hh
      cases hserves with
      | work hmessage => exact ⟨⟨hmessage _ rfl, hmerge, hqueue⟩, hnone⟩
  | noWork _ _ _ => exact ⟨⟨trivial, hmerge, hqueue⟩, hnone⟩
  | computes hphase hexecution =>
      rw [hphase] at hrun
      obtain ⟨id, hmessage⟩ := hrun
      exact ⟨⟨⟨id, _, hmessage, hexecution⟩, hmerge, hqueue⟩, hnone⟩
  | fails _ => exact ⟨⟨trivial, hmerge, hqueue⟩, hnone⟩
  | saves hphase _ =>
      rw [hphase] at hrun
      refine ⟨⟨trivial, hmerge, fun x hx => ?_⟩, hnone⟩
      rcases List.mem_append.mp hx with hx | hx
      · exact hqueue x hx
      · obtain rfl := List.mem_singleton.mp hx
        exact hrun
  | reports _ => exact ⟨⟨trivial, hmerge, hqueue⟩, hsome _ trivial⟩
  | reported _ _ => exact ⟨⟨trivial, hmerge, hqueue⟩, hnone⟩
  | begins _ => exact ⟨⟨hrun, trivial, hqueue⟩, hnone⟩
  | merges _ hwork =>
      rw [hwork] at hqueue
      have hresult := hqueue _ List.mem_cons_self
      exact ⟨⟨hrun, hresult, fun x hx => hqueue x (List.mem_cons_of_mem _ hx)⟩, hsome _ hresult⟩
  | merged _ _ _ => exact ⟨⟨hrun, trivial, hqueue⟩, hnone⟩
  | retries hphase _ _ _ =>
      rw [hphase] at hmerge
      refine ⟨⟨hrun, trivial, fun x hx => ?_⟩, hnone⟩
      rcases List.mem_append.mp hx with hx | hx
      · exact hqueue x hx
      · obtain rfl := List.mem_singleton.mp hx
        exact hmerge
  | givesUp hphase _ _ _ =>
      rw [hphase] at hmerge
      exact ⟨⟨hrun, hmerge, hqueue⟩, hnone⟩
  | reportsUnmerged _ => exact ⟨⟨hrun, trivial, hqueue⟩, hsome _ trivial⟩
  | reportedUnmerged _ _ => exact ⟨⟨hrun, trivial, hqueue⟩, hnone⟩
  | ends _ => exact ⟨⟨hrun, trivial, hqueue⟩, hnone⟩

/-! ## Clients -/

/-- Job `id` was created from the request of a client. -/
def JobFor (hs : List (JobEvent K)) (input : HostArgs K × ℤ) (id : ℕ) (request : SCAMPProto.SCAMPArgs K) : Prop :=
  jobRequest input.1 input.2 = some request ∧ .added id request ∈ hs

/-- What `do_SCAMP_distributed` converts back: the arguments of the job, which is finished, or the request as it
    was if the client did not get them. -/
def Converts (hs : List (JobEvent K)) (s : Server K) (input : HostArgs K × ℤ) (result : SCAMPProto.SCAMPArgs K) :
    Bool → Prop
  | true => ∃ id request, JobFor hs input id request ∧ (s.job id).status = .finished ∧ (s.job id).jobArgs = result
  | false => jobRequest input.1 input.2 = some result

/-- What a client knows that was called with `input`. -/
def SCAMPInterface.Knows (hs : List (JobEvent K)) (s : Server K) (input : HostArgs K × ℤ) (c : SCAMPInterface K) :
    ClientPhase → Prop
  | .starting => c.args = input.1 ∧ c.distributedTileSize = input.2
  | .issuing => c.args = input.1 ∧ jobRequest input.1 input.2 = some c.protoArgs
  | .awaitingJob rpc => (c.args = input.1 ∧ jobRequest input.1 input.2 = some c.protoArgs) ∧
      s.Calls hs rpc (.issueNewJob c.protoArgs)
  | .polling jobId => c.args = input.1 ∧ JobFor hs input jobId c.protoArgs
  | .awaitingStatus jobId rpc => (c.args = input.1 ∧ JobFor hs input jobId c.protoArgs) ∧
      s.Calls hs rpc (.checkJobStatus jobId)
  | .fetching jobId => (c.args = input.1 ∧ JobFor hs input jobId c.protoArgs) ∧ (s.job jobId).status = .finished
  | .awaitingResult jobId rpc => (c.args = input.1 ∧ JobFor hs input jobId c.protoArgs) ∧
      (s.job jobId).status = .finished ∧ ∃ h, s.handler rpc = some h ∧ h.Fetches jobId (s.job jobId).jobArgs
  | .converting fetched => c.args = input.1 ∧ Converts hs s input c.protoArgs fetched
  | .returned fetched => ∃ result, Converts hs s input result fetched ∧
      convertProtoArgsToSCAMPArgs result input.1 = some c.args

omit [HasSqrt K] in
/-- A job that is finished stays as it is. -/
theorem finished_step (hrun : Server.Run labels s) (hstep : Server.Step s events s') {id : ℕ}
    {request : SCAMPProto.SCAMPArgs K} (hadded : .added id request ∈ labels.flatten)
    (hfinished : (s.job id).status = .finished) :
    (s'.job id).status = .finished ∧ (s'.job id).jobArgs = (s.job id).jobArgs :=
  (finishedInv_run hrun).stays hstep (job_run hrun hadded).1 hfinished

omit [LinearOrder K] [HasSqrt K] in
theorem JobFor.mono {hs : List (JobEvent K)} {input : HostArgs K × ℤ} {id : ℕ} {request : SCAMPProto.SCAMPArgs K}
    (h : JobFor hs input id request) (events : List (JobEvent K)) : JobFor (hs ++ events) input id request :=
  ⟨h.1, List.mem_append_left _ h.2⟩

omit [HasSqrt K] in
theorem Converts.mono {input : HostArgs K × ℤ} {result : SCAMPProto.SCAMPArgs K} {fetched : Bool}
    (h : Converts labels.flatten s input result fetched) (hrun : Server.Run labels s)
    (hstep : Server.Step s events s') : Converts (labels.flatten ++ events) s' input result fetched := by
  cases fetched with
  | false => exact h
  | true =>
      obtain ⟨id, request, hjob, hfinished, hargs⟩ := h
      obtain ⟨hstatus, hsame⟩ := finished_step hrun hstep hjob.2 hfinished
      exact ⟨id, request, hjob.mono events, hstatus, hsame.trans hargs⟩

omit [HasSqrt K] in
/-- What a client knows stays true. -/
theorem SCAMPInterface.Knows.mono {input : HostArgs K × ℤ} {c : SCAMPInterface K} {phase : ClientPhase}
    (hc : c.Knows labels.flatten s input phase) (hrun : Server.Run labels s) (hstep : Server.Step s events s') :
    c.Knows (labels.flatten ++ events) s' input phase := by
  cases phase with
  | starting => exact hc
  | issuing => exact hc
  | awaitingJob rpc => exact ⟨hc.1, hc.2.step hrun hstep⟩
  | polling jobId => exact ⟨hc.1, hc.2.mono events⟩
  | awaitingStatus jobId rpc => exact ⟨⟨hc.1.1, hc.1.2.mono events⟩, hc.2.step hrun hstep⟩
  | fetching jobId => exact ⟨⟨hc.1.1, hc.1.2.mono events⟩, (finished_step hrun hstep hc.1.2.2 hc.2).1⟩
  | awaitingResult jobId rpc =>
      obtain ⟨⟨hargs, hjob⟩, hfinished, h, hh, hfetches⟩ := hc
      obtain ⟨hstatus, hsame⟩ := finished_step hrun hstep hjob.2 hfinished
      refine ⟨⟨hargs, hjob.mono events⟩, hstatus, ?_⟩
      rw [hsame]
      rcases handler_step hstep hh with hstays | ⟨h', hh', hgoes⟩
      · exact ⟨h, hstays, hfetches⟩
      · exact ⟨h', hh', hfetches.step (job_run hrun hjob.2).1 hfinished rfl hgoes⟩
  | converting fetched => exact ⟨hc.1, hc.2.mono hrun hstep⟩
  | returned fetched =>
      obtain ⟨result, hconverts, hargs⟩ := hc
      exact ⟨result, hconverts.mono hrun hstep, hargs⟩

/-- **A step of a client.** -/
theorem SCAMPInterface.Knows.step {input : HostArgs K × ℤ} {c c' : SCAMPInterface K}
    (hc : c.Knows labels.flatten s input c.phase) (hrun : Server.Run labels s)
    {answers : ℕ → Option (Response K) → Prop} {next : ℕ} {request : Option (Request K)}
    (hanswers : ∀ rpc response, answers rpc (some response) → s.handler rpc = some (.returned response))
    (hstep : c.Step answers next request c') (hsent : ∀ r, request = some r → s.handler next = some (.received r)) :
    c'.Knows labels.flatten s input c'.phase ∧ ∀ r, request = some r → r.Honest s := by
  have hnone : ∀ r, (none : Option (Request K)) = some r → r.Honest s := by simp
  have hsome : ∀ request : Request K, request.Honest s → ∀ r, some request = some r → r.Honest s := by
    rintro request hhonest r hr
    rwa [← Option.some.inj hr]
  -- the key of a job of the client
  have hkey : ∀ {jobId : ℕ} {request : SCAMPProto.SCAMPArgs K}, .added jobId request ∈ labels.flatten →
      jobId < 2 ^ 31 := fun hadded => (job_run hrun hadded).1.trans_le (count_le_run hrun)
  cases hstep with
  | converts hphase hproto =>
      rw [hphase] at hc
      refine ⟨⟨hc.1, ?_⟩, hnone⟩
      rw [← hc.1, ← hc.2]
      exact hproto
  | issues hphase =>
      rw [hphase] at hc
      exact ⟨⟨hc, _, hsent _ rfl, .received⟩, hsome _ trivial⟩
  | @issued rpc jobId status hphase hanswer =>
      rw [hphase] at hc
      obtain ⟨⟨hargs, hproto⟩, h, hh, hserves⟩ := hc
      rw [hanswers _ _ hanswer] at hh
      obtain rfl := Option.some.inj hh
      refine ⟨?_, hnone⟩
      cases hserves with
      | @issued _ id _ _ hid hadded hint =>
          have hlt := hkey hadded
          have hjobId : uint64 jobId = id := by
            rw [hint, int64_of_range (by omega) (by omega), uint64_natCast (by omega)]
          show c.args = input.1 ∧ JobFor labels.flatten input (uint64 jobId) c.protoArgs
          rw [hjobId]
          exact ⟨hargs, hproto, hadded⟩
  | notIssued hphase _ _ =>
      rw [hphase] at hc
      exact ⟨⟨hc.1.1, hc.1.2⟩, hnone⟩
  | polls hphase =>
      rw [hphase] at hc
      exact ⟨⟨hc, _, hsent _ rfl, .received⟩, hsome _ trivial⟩
  | @done jobId rpc id hphase hanswer =>
      rw [hphase] at hc
      obtain ⟨hjob, h, hh, hserves⟩ := hc
      rw [hanswers _ _ hanswer] at hh
      obtain rfl := Option.some.inj hh
      refine ⟨⟨hjob, ?_⟩, hnone⟩
      cases hserves with
      | checked hint =>
          obtain ⟨job, -, hint32, hfinished⟩ := (finishedInv_run hrun).tells rpc _ (hanswers _ _ hanswer)
          rw [hint, int32_int64, int32_job (hkey hjob.2.2)] at hint32
          obtain rfl : jobId = job := by exact_mod_cast hint32
          exact hfinished
  | notDone hphase _ _ =>
      rw [hphase] at hc
      exact ⟨hc.1, hnone⟩
  | @fetches jobId hphase =>
      rw [hphase] at hc
      refine ⟨⟨hc.1, hc.2, _, hsent _ rfl, Or.inl ⟨jobId, rfl, ?_⟩⟩, hsome _ trivial⟩
      exact int32_job (hkey hc.1.2.2)
  | @fetched jobId rpc work hphase hanswer =>
      rw [hphase] at hc
      obtain ⟨⟨hargs, hjob⟩, hfinished, h, hh, hfetches⟩ := hc
      rw [hanswers _ _ hanswer] at hh
      obtain rfl := Option.some.inj hh
      rcases hfetches with ⟨_, heq, -⟩ | heq | heq | heq
      · cases heq
      · cases heq
      · cases heq
      · obtain rfl := Response.work.inj (Handler.returned.inj heq)
        exact ⟨⟨hargs, jobId, c.protoArgs, hjob, hfinished, rfl⟩, hnone⟩
  | notFetched hphase _ _ =>
      rw [hphase] at hc
      exact ⟨⟨hc.1.1, hc.1.2.1⟩, hnone⟩
  | returns hphase hconvert =>
      rw [hphase] at hc
      refine ⟨⟨c.protoArgs, hc.2, ?_⟩, hnone⟩
      rw [← hc.1]
      exact hconvert

/-! ## The system -/

variable {throughput : ℕ → ℤ} {input : ℕ → HostArgs K × ℤ} {t t' : System K}

/-- What holds in every run of the system. -/
structure SystemInv (input : ℕ → HostArgs K × ℤ) (labels : List (List (JobEvent K))) (t : System K) : Prop where
  server : ∃ labels', Server.Run labels' t.server ∧ labels'.flatten = labels.flatten
  fresh : ∀ n, t.rpcs ≤ n → t.server.handler n = none
  threads : ∀ n h, t.server.handler n = some h → h.Sent labels.flatten t.server
  jobs : Trace (Happens JobNew (JobStep SentByWorker)) (fun _ => none) labels.flatten t.server.family
  workers : ∀ i, (t.worker i).Honest labels.flatten t.server
  clients : ∀ i, (t.client i).Knows labels.flatten t.server (input i) (t.client i).phase

/-- What the parties know stays true. -/
theorem SystemInv.known (ht : SystemInv input labels t) (hstep : Server.Step t.server events s') :
    (∀ i, (t.worker i).Honest (labels.flatten ++ events) s') ∧
      ∀ i, (t.client i).Knows (labels.flatten ++ events) s' (input i) (t.client i).phase := by
  obtain ⟨labels', hrun, hflatten⟩ := ht.server
  refine ⟨fun i => (ht.workers i).mono hrun hstep, fun i => ?_⟩
  have hknows := ht.clients i
  rw [← hflatten] at hknows ⊢
  exact hknows.mono hrun hstep

/-- The threads of a call that goes on. -/
theorem SystemInv.serves (ht : SystemInv input labels t) {n : ℕ} {m : Moment} (hn : t.server.handler n = some h)
    (hnext : h.next m n t.server = some (s', events))
    (horders : ∀ id call, .moved id call ∈ events → call.1.Orders (t.server.job id)) :
    SystemInv input (labels ++ [events]) { t with server := s' } := by
  have hstep : Server.Step t.server events s' := .handles hn hnext horders
  have hflat : (labels ++ [events]).flatten = labels.flatten ++ events := by simp
  obtain ⟨labels', hrun, hflatten⟩ := ht.server
  obtain ⟨h', hhandler, hgoes, -⟩ := next_spec hnext
  obtain ⟨hworkers, hclients⟩ := ht.known hstep
  refine ⟨⟨labels' ++ [events], hrun.snoc hstep, by rw [hflat, ← hflatten]; simp⟩, fun k hk => ?_, fun k g hg => ?_,
    ?_, hflat ▸ hworkers, hflat ▸ hclients⟩
  · have hnone := ht.fresh k hk
    have hne : k ≠ n := by
      rintro rfl
      rw [hnone] at hn
      cases hn
    show s'.handler k = none
    rw [hhandler, Function.update_of_ne hne, hnone]
  · change s'.handler k = some g at hg
    rw [hflat]
    rw [hhandler] at hg
    by_cases hkn : k = n
    · subst hkn
      obtain rfl : h' = g := by simpa using hg
      obtain ⟨request, hserves, hhonest⟩ := ht.threads k h hn
      exact ⟨request, hserves.step hrun hstep (fun id => (serverInv_run hrun).known k h id hn) hgoes,
        hhonest.step hrun hstep⟩
    · rw [Function.update_of_ne hkn] at hg
      obtain ⟨request, hserves, hhonest⟩ := ht.threads k g hg
      exact ⟨request, hserves.mono hrun hstep (List.subset_append_left _ _), hhonest.step hrun hstep⟩
  · rw [hflat]
    rcases step_happens (serverInv_run hrun) hstep fun id call hmoved => (ht.threads n h hn).moves hrun hgoes id call hmoved with
      ⟨rfl, hsame⟩ | ⟨e, rfl, hhappens⟩
    · show Trace _ _ _ s'.family
      rw [hsame, List.append_nil]
      exact ht.jobs
    · exact ht.jobs.snoc hhappens

/-- A call is sent. -/
theorem SystemInv.sends (ht : SystemInv input labels t) {request : Request K} (hhonest : request.Honest t.server) :
    SystemInv input (labels ++ [[]]) (t.send request) := by
  have hnone := ht.fresh t.rpcs (le_refl _)
  have hstep : Server.Step t.server [] (t.send request).server := .arrives hnone
  have hflat : (labels ++ [[]]).flatten = labels.flatten := by simp
  obtain ⟨labels', hrun, hflatten⟩ := ht.server
  obtain ⟨hworkers, hclients⟩ := ht.known hstep
  rw [List.append_nil] at hworkers hclients
  refine ⟨⟨labels' ++ [[]], hrun.snoc hstep, by rw [hflat, ← hflatten]; simp⟩, fun k hk => ?_, fun k g hg => ?_,
    hflat ▸ ht.jobs, hflat ▸ hworkers, hflat ▸ hclients⟩
  · have hne : k ≠ t.rpcs := by
      rintro rfl
      exact Nat.not_succ_le_self _ hk
    show Function.update t.server.handler t.rpcs (some (.received request)) k = none
    rw [Function.update_of_ne hne]
    exact ht.fresh k (Nat.le_of_succ_le hk)
  · rw [hflat]
    change Function.update t.server.handler t.rpcs (some (.received request)) k = some g at hg
    by_cases hk : k = t.rpcs
    · subst hk
      obtain rfl : Handler.received request = g := by simpa using hg
      exact ⟨request, .received, hhonest⟩
    · rw [Function.update_of_ne hk] at hg
      obtain ⟨request', hserves, hhonest'⟩ := ht.threads k g hg
      exact ⟨request', hserves.mono hrun hstep (List.Subset.refl _), hhonest'⟩

/-- A call may be sent. -/
theorem SystemInv.sendsIf (ht : SystemInv input labels t) {request : Option (Request K)}
    (hhonest : ∀ r, request = some r → r.Honest t.server) : SystemInv input (labels ++ [[]]) (t.sendIf request) := by
  cases request with
  | none =>
      have hflat : (labels ++ [[]]).flatten = labels.flatten := by simp
      obtain ⟨hserver, hfresh, hthreads, hjobs, hworkers, hclients⟩ := ht
      constructor <;> first | assumption | (rw [hflat]; assumption)
  | some r => exact ht.sends (hhonest r rfl)

/-- The server once a call may have been sent: what the parties know, and what they get from it. -/
theorem SystemInv.sent (ht : SystemInv input labels t) (request : Option (Request K)) {server : Server K}
    (hserver : server = (t.sendIf request).server) :
    (∃ labels', Server.Run labels' server ∧ labels'.flatten = labels.flatten) ∧
      ((∀ i, (t.worker i).Honest labels.flatten server) ∧
        ∀ i, (t.client i).Knows labels.flatten server (input i) (t.client i).phase) ∧
      (∀ rpc response, t.Answers rpc (some response) → server.handler rpc = some (.returned response)) ∧
      ∀ r, request = some r → server.handler t.rpcs = some (.received r) := by
  subst hserver
  cases request with
  | none => exact ⟨ht.server, ⟨ht.workers, ht.clients⟩, fun _ _ h => h, by simp⟩
  | some r =>
      have hnone := ht.fresh t.rpcs (le_refl _)
      have hstep : Server.Step t.server [] (t.send r).server := .arrives hnone
      have hknown := ht.known hstep
      rw [List.append_nil] at hknown
      obtain ⟨labels', hrun, hflatten⟩ := ht.server
      refine ⟨⟨labels' ++ [[]], hrun.snoc hstep, by rw [← hflatten]; simp⟩, hknown, fun rpc response hanswer => ?_,
        fun r' hr' => ?_⟩
      · have hne : rpc ≠ t.rpcs := by
          rintro rfl
          change t.server.handler t.rpcs = some (.returned response) at hanswer
          rw [hnone] at hanswer
          cases hanswer
        show Function.update t.server.handler t.rpcs (some (.received r)) rpc = _
        rw [Function.update_of_ne hne]
        exact hanswer
      · obtain rfl := Option.some.inj hr'
        exact Function.update_self ..

omit [HasSqrt K] in
/-- A call that may be sent changes no job. -/
theorem honest_sendIf [HasSqrt K] (request : Option (Request K)) (r : Request K)
    (h : r.Honest (t.sendIf request).server) : r.Honest t.server := by
  cases request <;> exact h

/-- **Every step keeps the invariant of the system.** -/
theorem systemInv_step (ht : SystemInv input labels t) (hstep : System.Step t events t') :
    SystemInv input (labels ++ [events]) t' := by
  have hflat : (labels ++ [[]]).flatten = labels.flatten := by simp
  cases hstep with
  | serves hn hnext horders => exact ht.serves hn hnext horders
  | cleansUp => exact ht.sends trivial
  | @works i request w hwork =>
      obtain ⟨server, hserver⟩ : ∃ server, server = (t.sendIf request).server := ⟨_, rfl⟩
      obtain ⟨-, ⟨hworkers, -⟩, hanswers, hsent⟩ := ht.sent request hserver
      obtain ⟨hw, hhonest⟩ := (hworkers i).step hanswers hwork hsent
      subst hserver
      have hafter := ht.sendsIf fun r hr => honest_sendIf request r (hhonest r hr)
      refine ⟨hafter.server, hafter.fresh, hafter.threads, hafter.jobs, fun k => ?_, hafter.clients⟩
      show (Function.update t.worker i w k).Honest _ (t.sendIf request).server
      rw [hflat]
      by_cases hk : k = i
      · subst hk
        rw [Function.update_self]
        exact hw
      · rw [Function.update_of_ne hk]
        exact hworkers k
  | @asks i request c hask =>
      obtain ⟨server, hserver⟩ : ∃ server, server = (t.sendIf request).server := ⟨_, rfl⟩
      obtain ⟨⟨labels', hrun, hflatten⟩, ⟨-, hclients⟩, hanswers, hsent⟩ := ht.sent request hserver
      rw [← hflatten] at hclients
      obtain ⟨hc, hhonest⟩ := (hclients i).step hrun hanswers hask hsent
      subst hserver
      have hafter := ht.sendsIf fun r hr => honest_sendIf request r (hhonest r hr)
      refine ⟨hafter.server, hafter.fresh, hafter.threads, hafter.jobs, hafter.workers, fun k => ?_⟩
      show (Function.update t.client i c k).Knows _ (t.sendIf request).server (input k)
        (Function.update t.client i c k).phase
      rw [hflat, ← hflatten]
      by_cases hk : k = i
      · subst hk
        rw [Function.update_self]
        exact hc
      · rw [Function.update_of_ne hk]
        exact hclients k

theorem systemInv_start : SystemInv input [] (System.start throughput input) where
  server := ⟨[], .nil, rfl⟩
  fresh _ _ := rfl
  threads _ _ hn := nomatch hn
  jobs := by
    have hempty : (System.start throughput input).server.family = fun _ => none :=
      funext fun id => if_neg (Nat.not_lt_zero id)
    rw [hempty]
    exact .nil
  workers _ := ⟨trivial, trivial, fun _ hx => absurd hx List.not_mem_nil⟩
  clients _ := ⟨rfl, rfl⟩

theorem systemInv_run (hrun : System.Run throughput input labels t) : SystemInv input labels t :=
  hrun.inv (I := SystemInv input) systemInv_start fun _ _ _ _ _ ht hstep => systemInv_step ht hstep

/-! ## Jobs -/

/-- **The history of a job** in a run of the system: it was created from a request, and what was combined into
    it since then was computed by workers from the messages of its tiles. -/
theorem system_job (hrun : System.Run throughput input labels t) {id : ℕ} {request : SCAMPProto.SCAMPArgs K}
    (hadded : .added id request ∈ labels.flatten) : ∃ start, Job.create request id = some start ∧
      Job.Run SentByWorker start (stepsOf id labels.flatten) (t.server.job id) := by
  obtain ⟨start, job, hnew, hjob, htrace⟩ := component_run (systemInv_run hrun).jobs hadded
  unfold Server.family at hjob
  split at hjob
  · obtain rfl := Option.some.inj hjob
    exact ⟨start, hnew, htrace⟩
  · cases hjob

end

end Scamp
