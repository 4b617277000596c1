import Scamp.Distributed.Server

/-!
# `Distributed.JobLocks` — the server with the locks of its jobs

`distributed_job.cpp`: every method of a job holds `mutex_` of the job from its first line to its last. In
`Distributed.Server` a method is one step and waits for nobody. Here a thread takes the lock of the job in a
step of its own, if no other thread is inside a method of the job, and gives it back with the step that
`Handler.next` says; in between the other threads go on.

The two methods of the job list that call jobs hold `task_list_mutex_` while they wait for `mutex_`.

`get_progress`, `get_elapsed_time`, `get_eta` and `args` take the lock too and change nothing. A thread that
has a pointer to a job may be inside one of them whenever it is in no other method.
-/

namespace Scamp

open Lib

section
variable {K : Type}

/-- The job whose method the thread calls in its next step. -/
def Handler.calls (s : Server K) : Handler K → Option ℕ
  | .reporting _ job => some job
  | .checkingDone _ job => some job
  | .fetchingDone job => some job
  | .asking _ i => if i < s.jobs.runList.length then s.jobs.runList.head? else none
  | .fetching _ job => some job
  | .combining _ job => some job
  | .failing _ job => some job
  | .checkingTime iter => s.jobs.runList[iter]?
  | .checkingStatus iter => s.jobs.runList[iter]?
  | _ => none

/-- What a thread is inside of: the method that its next step calls, or one that changes nothing. -/
inductive Method
  | step
  | getter
deriving DecidableEq, Repr

/-- The server, and for each job the thread that holds its `mutex_`. -/
structure LockedServer (K : Type) where
  server : Server K
  jobMutex : ℕ → Option (ℕ × Method)

namespace LockedServer

/-- No thread is inside a method. -/
def ofServer (s : Server K) : LockedServer K := ⟨s, fun _ => none⟩

/-- Thread `n` is inside no method of a job. -/
def Outside (s : LockedServer K) (n : ℕ) : Prop := ∀ job method, s.jobMutex job ≠ some (n, method)

/-- `mutex_` of a job is taken by thread `n`. -/
def lock (s : LockedServer K) (job n : ℕ) (method : Method) : LockedServer K :=
  { s with jobMutex := Function.update s.jobMutex job (some (n, method)) }

/-- `mutex_` of a job is given back. -/
def unlock (s : LockedServer K) (job : ℕ) : LockedServer K :=
  { s with jobMutex := Function.update s.jobMutex job none }

/-- A step of the server: a request arrives, a thread takes a step outside the methods of the jobs, or it
    enters or leaves such a method. -/
inductive Step [Field K] [LinearOrder K] (s : LockedServer K) : List (JobEvent K) → LockedServer K → Prop
  | arrives {n : ℕ} {request : Request K} : s.server.handler n = none →
      Step s [] { s with server := s.server.goto n (.received request) }
  | runs {n : ℕ} {h : Handler K} {m : Moment} {server : Server K} {events : List (JobEvent K)} :
      s.server.handler n = some h → h.calls s.server = none → s.Outside n →
      h.next m n s.server = some (server, events) →
      (∀ id call, .moved id call ∈ events → call.1.Orders (s.server.job id)) →
      Step s events { s with server := server }
  | enters {n job : ℕ} {h : Handler K} : s.server.handler n = some h → h.calls s.server = some job →
      s.Outside n → s.jobMutex job = none → Step s [] (s.lock job n .step)
  | leaves {n job : ℕ} {h : Handler K} {m : Moment} {server : Server K} {events : List (JobEvent K)} :
      s.server.handler n = some h → s.jobMutex job = some (n, .step) →
      h.next m n s.server = some (server, events) →
      (∀ id call, .moved id call ∈ events → call.1.Orders (s.server.job id)) →
      Step s events ({ s with server := server }.unlock job)
  | looks {n job : ℕ} {h : Handler K} : s.server.handler n = some h → h.pointsTo = some job → s.Outside n →
      s.jobMutex job = none → Step s [] (s.lock job n .getter)
  | looked {n job : ℕ} : s.jobMutex job = some (n, .getter) → Step s [] (s.unlock job)

/-- The runs of the server with the locks of its jobs. -/
abbrev Run [Field K] [LinearOrder K] (labels : List (List (JobEvent K))) (s : LockedServer K) : Prop :=
  Trace Step (ofServer Server.start) labels s

end LockedServer

end

end Scamp
