import Scamp.Distributed.JobList
import Scamp.Lib.Family

/-!
# `Distributed.Server` — the handlers of the server

`scamp_server.cc`. Every remote call runs in a thread of its own, and so does each pass of `cleanup_check`.
A step is what a thread does under one lock: a method of a job under the lock of the job, or a method of the
job list under `task_list_mutex_`. The two methods of the list that call jobs, `get_job_to_work_on` and
`cleanup_jobs`, hold `task_list_mutex_` over several steps, between which other threads call the same jobs.
That a thread waits while another one is inside a method of the job is left to `Distributed.JobLocks`, where
the same steps are taken with the locks of the jobs.

A request may arrive at any time, whoever sends it. `Handler.next` is one step of a thread, with the events it
adds to the histories of the jobs. A method that does not return (`none` in `Distributed.Job`) leaves its
thread where it is; an exception in the constructor of a job is caught. The progress and the times that
`CheckJobStatus` adds to its answer are left out.
-/

namespace Scamp

open Lib
open SCAMPProto (JobStatus)

section
variable {K : Type}

/-! ## Messages -/

/-- The remote calls of `SCAMPService` with their requests, and the pass of `cleanup_check`. -/
inductive Request (K : Type)
  | issueNewJob (args : SCAMPProto.SCAMPArgs K)
  | checkJobStatus (jobId : ℕ)
  | fetchJobResult (jobId : ℕ)
  | requestSCAMPWork (expectedThroughput : ℤ)
  | scampCombiner (request : SCAMPProto.SCAMPArgs K)
  | reportTileFailure (request : SCAMPProto.SCAMPArgs K)
  | cleanup

/-- The codes of `grpc::Status` that the handlers return. -/
inductive StatusCode
  | invalidArgument
  | internal
deriving DecidableEq, Repr

/-- What a handler returns: a `SCAMPStatus`, a `SCAMPWork` with its arguments if it is valid, a `SCAMPResult`,
    or a status that is not `OK`. -/
inductive Response (K : Type)
  | status (jobId : ℤ) (status : JobStatus)
  | work (args : Option (SCAMPProto.SCAMPArgs K))
  | result
  | error (code : StatusCode)

/-! ## Threads -/

/-- Where a thread is. `job` is the job it has a pointer to, `i` and `iter` are places in `run_list_`. -/
inductive Handler (K : Type)
  | received (request : Request K)
  | added (currJobId : ℕ)
  | reporting (jobId : ℤ) (job : ℕ)
  | checkingDone (jobId : ℤ) (job : ℕ)
  | fetchingDone (job : ℕ)
  | copying (job : ℕ)
  | asking (expectedThroughput : ℤ) (i : ℕ)
  | fetching (expectedThroughput : ℤ) (job : ℕ)
  | combining (request : SCAMPProto.SCAMPArgs K) (job : ℕ)
  | failing (tileId : ℤ) (job : ℕ)
  | checkingTime (iter : ℕ)
  | checkingStatus (iter : ℕ)
  | returned (response : Response K)

/-- The job a thread has a pointer to. -/
def Handler.pointsTo : Handler K → Option ℕ
  | .reporting _ job => some job
  | .checkingDone _ job => some job
  | .fetchingDone job => some job
  | .copying job => some job
  | .fetching _ job => some job
  | .combining _ job => some job
  | .failing _ job => some job
  | _ => none

/-- The server: its job list, the thread that holds `task_list_mutex_` from one step to the next, and the
    threads. -/
structure Server (K : Type) where
  jobs : JobList (Job K)
  mutex : Option ℕ
  handler : ℕ → Option (Handler K)

/-- What a thread sees during a step: the clock, also at each tile, and the order of the tiles in their hash
    table. -/
structure Moment where
  now : ℤ
  nowAt : ℕ → ℤ
  order : List ℕ

/-- What a step adds to the history of a job: it is created, or one of its methods is called. -/
abbrev JobEvent (K : Type) := Happening ℕ (Call K × Reply K) (SCAMPProto.SCAMPArgs K)

namespace Server

/-- Thread `n` goes on. -/
def goto (s : Server K) (n : ℕ) (h : Handler K) : Server K :=
  { s with handler := Function.update s.handler n (some h) }

/-- A method of job `id` has been called. -/
def setJob (s : Server K) (id : ℕ) (job : Job K) : Server K := { s with jobs := s.jobs.setTask id job }

/-- The job that `get_job` finds. -/
def job (s : Server K) (id : ℕ) : Job K := s.jobs.task id

end Server

/-- `get_job`, in thread `n`, which then goes on with the job. -/
def getJobThen (n : ℕ) (s : Server K) (jobId : ℤ) (next : ℕ → Handler K) : Option (Server K × List (JobEvent K)) :=
  if s.mutex.isSome then none
  else
    match s.jobs.getJob jobId with
    | none => some (s.goto n (.returned (.error .invalidArgument)), [])
    | some job => some (s.goto n (next job), [])

/-- The first step of a handler. -/
def Request.next [Field K] [LinearOrder K] (n : ℕ) (s : Server K) :
    Request K → Option (Server K × List (JobEvent K))
  | .issueNewJob args =>
      -- the keys of the task list are of type `int`
      if s.mutex.isSome ∨ 2 ^ 31 ≤ s.jobs.count then none
      else if !validateArgs args then some (s.goto n (.returned (.error .invalidArgument)), [])
      else
        match Job.create args s.jobs.count with
        | none => some (s.goto n (.returned (.error .internal)), [])
        | some job =>
            let (jobs, currJobId) := s.jobs.addJob job
            some ({ s with jobs := jobs }.goto n (.added currJobId), [.added currJobId args])
  | .checkJobStatus jobId => getJobThen n s jobId (.checkingDone (int64 jobId))
  | .fetchJobResult jobId => getJobThen n s jobId .fetchingDone
  | .requestSCAMPWork expectedThroughput =>
      if s.mutex.isSome then none
      else some ({ s with mutex := some n }.goto n (.asking expectedThroughput 0), [])
  | .scampCombiner request => getJobThen n s (int32 request.jobId) (.combining request)
  | .reportTileFailure request => getJobThen n s (int32 request.jobId) (.failing (int32 request.tileId))
  | .cleanup =>
      if s.mutex.isSome then none else some ({ s with mutex := some n }.goto n (.checkingTime 0), [])

/-- One step of thread `n`. -/
def Handler.next [Field K] [LinearOrder K] (m : Moment) (n : ℕ) (s : Server K) :
    Handler K → Option (Server K × List (JobEvent K))
  | .received request => request.next n s
  | .added currJobId => getJobThen n s currJobId (.reporting (int64 currJobId))
  | .reporting jobId job => some (s.goto n (.returned (.status jobId (s.job job).status)), [])
  | .checkingDone jobId job =>
      let r := (s.job job).isDone
      some ((s.setJob job r.1).goto n (.reporting jobId job), [.moved job (.isDone, .answer r.2)])
  | .fetchingDone job =>
      let r := (s.job job).isDone
      some ((s.setJob job r.1).goto n (if r.2 then .copying job else .returned (.work none)),
        [.moved job (.isDone, .answer r.2)])
  -- `args` returns a reference, which is copied without a lock
  | .copying job => some (s.goto n (.returned (.work (some (s.job job).jobArgs))), [])
  | .asking expectedThroughput i =>
      match s.jobs.runList with
      | [] => some ({ s with mutex := none }.goto n (.returned (.work none)), [])
      | job :: _ =>
          if i < s.jobs.runList.length then
            let r := (s.job job).hasWork m.order m.now
            let s := { s with jobs := s.jobs.passFront }.setJob job r.1
            let event : JobEvent K := .moved job (.hasWork m.order m.now, .answer r.2)
            if r.2 then some ({ s with mutex := none }.goto n (.fetching expectedThroughput job), [event])
            else some (s.goto n (.asking expectedThroughput (i + 1)), [event])
          else some ({ s with mutex := none }.goto n (.returned (.work none)), [])
  | .fetching expectedThroughput job =>
      ((s.job job).fetchReadyTile m.order m.now expectedThroughput).map fun r =>
        ((s.setJob job r.1).goto n (.returned (.work r.2)),
          [.moved job (.fetchReadyTile m.order m.now expectedThroughput, .work r.2)])
  | .combining request job =>
      ((s.job job).combineProfile request m.now).map fun r =>
        ((s.setJob job r.1).goto n (.returned .result), [.moved job (.combineProfile request m.now, .answer r.2)])
  | .failing tileId job =>
      some ((s.setJob job ((s.job job).setTileFailed tileId m.now)).goto n (.returned .result),
        [.moved job (.setTileFailed tileId m.now, .nothing)])
  | .checkingTime iter =>
      match s.jobs.runList[iter]? with
      | none => some ({ s with mutex := none }.goto n (.returned .result), [])
      | some job =>
          some ((s.setJob job ((s.job job).checkTimeTile m.nowAt)).goto n (.checkingStatus iter),
            [.moved job (.checkTimeTile m.nowAt, .nothing)])
  | .checkingStatus iter =>
      match s.jobs.runList[iter]? with
      | none => none
      | some job =>
          if (s.job job).status ≠ .running then
            some ({ s with jobs := s.jobs.eraseAt iter }.goto n (.checkingTime iter), [])
          else some (s.goto n (.checkingTime (iter + 1)), [])
  | .returned _ => none

/-! ## Runs -/

instance [Zero K] : Inhabited (Job K) := ⟨.new .unset 0⟩

/-- The server starts without jobs and threads. -/
def Server.start [Zero K] : Server K where
  jobs := .empty
  mutex := none
  handler := fun _ => none

/-- A step of the server: a request arrives, or a thread takes a step. -/
inductive Server.Step [Field K] [LinearOrder K] (s : Server K) : List (JobEvent K) → Server K → Prop
  | arrives {n : ℕ} {request : Request K} : s.handler n = none → Step s [] (s.goto n (.received request))
  | handles {n : ℕ} {h : Handler K} {m : Moment} {s' : Server K} {events : List (JobEvent K)} :
      s.handler n = some h → h.next m n s = some (s', events) →
      (∀ id call, .moved id call ∈ events → call.1.Orders (s.job id)) → Step s events s'

/-- **The runs of the server**, with what happened to its jobs. -/
abbrev Server.Run [Field K] [LinearOrder K] (labels : List (List (JobEvent K))) (s : Server K) : Prop :=
  Trace Server.Step Server.start labels s

end

end Scamp
