import Scamp.Distributed.Server
import Scamp.Distributed.Worker

/-!
# `Distributed.System` — the server, its workers and its clients

The distributed program as a whole: `SCAMPWorker::run` and `MergeCompletedResults` (`scamp_worker.cpp`),
`do_SCAMP_distributed` (`scamp_interface.cpp`), and the server they call. A remote call has a number, which
is that of the thread of the server that handles it. It is under way from the time it is sent, and nothing
says that its thread ever begins, or ends. The caller waits for an answer: what the thread has returned, or
a failure of the transport at any time, whatever becomes of the thread.

A worker may stop at any step. Its throughput is what it measured before `run` sends its first request.
-/

namespace Scamp

open Lib
open SCAMPProto (JobStatus)

section
variable {K : Type}

/-- The response has a status that is `OK`. -/
def Response.ok : Response K → Bool
  | .error _ => false
  | _ => true

/-- An answer that is not an error: `none` is a failure of the transport. -/
def answerOk : Option (Response K) → Bool
  | some response => response.ok
  | none => false

/-! ## Workers -/

/-- `MAX_MERGE_RETRIES`. -/
def maxMergeRetries : ℕ := 5

/-- Where the thread of `SCAMPWorker::run` is. -/
inductive RunPhase (K : Type)
  | requesting
  | awaitingWork (rpc : ℕ)
  | executing (work : SCAMPProto.SCAMPArgs K)
  | saving (computedResult : SCAMPProto.SCAMPArgs K)
  | failing (work : SCAMPProto.SCAMPArgs K)
  | awaitingReport (rpc : ℕ)

/-- Where the thread of `MergeCompletedResults` is, with the number of results to go in this pass. It holds
    `merge_m_` unless it sleeps. -/
inductive MergePhase (K : Type)
  | sleeping
  | merging (left : ℕ)
  | awaitingMerge (rpc retries : ℕ) (completedWork : SCAMPProto.SCAMPArgs K) (left : ℕ)
  | givingUp (completedWork : SCAMPProto.SCAMPArgs K) (left : ℕ)
  | awaitingReport (rpc left : ℕ)

/-- A worker. -/
structure SCAMPWorker (K : Type) where
  expectedThroughput : ℤ
  run : RunPhase K
  merge : MergePhase K
  workToMerge : List (ℕ × SCAMPProto.SCAMPArgs K)

/-- A step of a worker, with the remote call it sends, whose number will be `next`. -/
inductive SCAMPWorker.Step [Field K] [LinearOrder K] [HasSqrt K] (answers : ℕ → Option (Response K) → Prop)
    (next : ℕ) (w : SCAMPWorker K) : Option (Request K) → SCAMPWorker K → Prop
  -- `RequestWork`
  | requests : w.run = .requesting →
      Step answers next w (some (.requestSCAMPWork w.expectedThroughput)) { w with run := .awaitingWork next }
  | receives {rpc message} : w.run = .awaitingWork rpc → answers rpc (some (.work (some message))) →
      Step answers next w none { w with run := .executing message }
  | noWork {rpc answer} : w.run = .awaitingWork rpc → answers rpc answer →
      (∀ message, answer ≠ some (.work (some message))) → Step answers next w none { w with run := .requesting }
  -- `ExecuteWork`
  | computes {message result} : w.run = .executing message → Nonempty (Execution message result) →
      Step answers next w none { w with run := .saving result }
  | fails {message} : w.run = .executing message → Step answers next w none { w with run := .failing message }
  -- a result goes to the merge queue, under `merge_m_`
  | saves {result} : w.run = .saving result → w.merge = .sleeping →
      Step answers next w none { w with run := .requesting, workToMerge := w.workToMerge ++ [(0, result)] }
  -- `ReportFailedTile`
  | reports {message} : w.run = .failing message →
      Step answers next w (some (.reportTileFailure message)) { w with run := .awaitingReport next }
  | reported {rpc answer} : w.run = .awaitingReport rpc → answers rpc answer →
      Step answers next w none { w with run := .requesting }
  -- `MergeCompletedResults`
  | begins : w.merge = .sleeping → Step answers next w none { w with merge := .merging w.workToMerge.length }
  | merges {left retries result rest} : w.merge = .merging (left + 1) → w.workToMerge = (retries, result) :: rest →
      Step answers next w (some (.scampCombiner result))
        { w with merge := .awaitingMerge next retries result left, workToMerge := rest }
  | merged {rpc retries result left answer} : w.merge = .awaitingMerge rpc retries result left →
      answers rpc answer → answerOk answer = true → Step answers next w none { w with merge := .merging left }
  | retries {rpc retries result left answer} : w.merge = .awaitingMerge rpc retries result left →
      answers rpc answer → answerOk answer = false → retries < maxMergeRetries →
      Step answers next w none
        { w with merge := .merging left, workToMerge := w.workToMerge ++ [(retries + 1, result)] }
  | givesUp {rpc retries result left answer} : w.merge = .awaitingMerge rpc retries result left →
      answers rpc answer → answerOk answer = false → maxMergeRetries ≤ retries →
      Step answers next w none { w with merge := .givingUp result left }
  | reportsUnmerged {result left} : w.merge = .givingUp result left →
      Step answers next w (some (.reportTileFailure result)) { w with merge := .awaitingReport next left }
  | reportedUnmerged {rpc left answer} : w.merge = .awaitingReport rpc left → answers rpc answer →
      Step answers next w none { w with merge := .merging left }
  | ends : w.merge = .merging 0 → Step answers next w none { w with merge := .sleeping }

/-! ## Clients -/

/-- Where in `do_SCAMP_distributed` a client is. `fetched` says whether it got the result of its job. -/
inductive ClientPhase
  | starting
  | issuing
  | awaitingJob (rpc : ℕ)
  | polling (jobId : ℕ)
  | awaitingStatus (jobId rpc : ℕ)
  | fetching (jobId : ℕ)
  | awaitingResult (jobId rpc : ℕ)
  | converting (fetched : Bool)
  | returned (fetched : Bool)

/-- A client: the arguments it was called with, and their message. -/
structure SCAMPInterface (K : Type) where
  args : HostArgs K
  distributedTileSize : ℤ
  protoArgs : SCAMPProto.SCAMPArgs K
  phase : ClientPhase

/-- The message with which a client asks for a job. -/
def jobRequest [Zero K] (args : HostArgs K) (distributedTileSize : ℤ) : Option (SCAMPProto.SCAMPArgs K) :=
  (convertSCAMPArgsToProtoArgs args).map fun proto => { proto with distributedTileSize := distributedTileSize }

/-- A step of a client, with the remote call it sends, whose number will be `next`. -/
inductive SCAMPInterface.Step [Zero K] (answers : ℕ → Option (Response K) → Prop) (next : ℕ) (c : SCAMPInterface K) :
    Option (Request K) → SCAMPInterface K → Prop
  | converts {proto} : c.phase = .starting → jobRequest c.args c.distributedTileSize = some proto →
      Step answers next c none { c with protoArgs := proto, phase := .issuing }
  | issues : c.phase = .issuing →
      Step answers next c (some (.issueNewJob c.protoArgs)) { c with phase := .awaitingJob next }
  | issued {rpc jobId status} : c.phase = .awaitingJob rpc → answers rpc (some (.status jobId status)) →
      Step answers next c none { c with phase := .polling (uint64 jobId) }
  | notIssued {rpc answer} : c.phase = .awaitingJob rpc → answers rpc answer → answerOk answer = false →
      Step answers next c none { c with phase := .converting false }
  | polls {jobId} : c.phase = .polling jobId →
      Step answers next c (some (.checkJobStatus jobId)) { c with phase := .awaitingStatus jobId next }
  | done {jobId rpc id} : c.phase = .awaitingStatus jobId rpc → answers rpc (some (.status id .finished)) →
      Step answers next c none { c with phase := .fetching jobId }
  | notDone {jobId rpc answer} : c.phase = .awaitingStatus jobId rpc → answers rpc answer →
      (∀ id, answer ≠ some (.status id .finished)) → Step answers next c none { c with phase := .polling jobId }
  | fetches {jobId} : c.phase = .fetching jobId →
      Step answers next c (some (.fetchJobResult jobId)) { c with phase := .awaitingResult jobId next }
  -- `result.args()` is a message without fields where the result is not valid
  | fetched {jobId rpc work} : c.phase = .awaitingResult jobId rpc → answers rpc (some (.work work)) →
      Step answers next c none { c with protoArgs := work.getD .unset, phase := .converting true }
  | notFetched {jobId rpc answer} : c.phase = .awaitingResult jobId rpc → answers rpc answer →
      answerOk answer = false → Step answers next c none { c with phase := .converting false }
  | returns {fetched args} : c.phase = .converting fetched →
      convertProtoArgsToSCAMPArgs c.protoArgs c.args = some args →
      Step answers next c none { c with args := args, phase := .returned fetched }

/-! ## The system -/

/-- The server, the number of remote calls so far, the workers and the clients. -/
structure System (K : Type) where
  server : Server K
  rpcs : ℕ
  worker : ℕ → SCAMPWorker K
  client : ℕ → SCAMPInterface K

namespace System

/-- A remote call is sent, or a pass of `cleanup_check` begins. -/
def send (s : System K) (request : Request K) : System K :=
  { s with server := s.server.goto s.rpcs (.received request), rpcs := s.rpcs + 1 }

/-- A party may have sent a call. -/
def sendIf (s : System K) (request : Option (Request K)) : System K := request.elim s s.send

/-- What the caller of call `rpc` may get. -/
def Answers (s : System K) (rpc : ℕ) : Option (Response K) → Prop
  | none => True
  | some response => s.server.handler rpc = some (.returned response)

/-- A step of the system: of a thread of the server, of `cleanup_check`, of a worker or of a client. -/
inductive Step [Field K] [LinearOrder K] [HasSqrt K] (s : System K) : List (JobEvent K) → System K → Prop
  | serves {n h m server events} : s.server.handler n = some h → h.next m n s.server = some (server, events) →
      (∀ id call, .moved id call ∈ events → call.1.Orders (s.server.job id)) →
      Step s events { s with server := server }
  | cleansUp : Step s [] (s.send .cleanup)
  | works {i request w} : (s.worker i).Step s.Answers s.rpcs request w →
      Step s [] { s.sendIf request with worker := Function.update s.worker i w }
  | asks {i request c} : (s.client i).Step s.Answers s.rpcs request c →
      Step s [] { s.sendIf request with client := Function.update s.client i c }

/-- The system before its first step, with the throughputs of the workers and the arguments of the clients. -/
def start [Zero K] (throughput : ℕ → ℤ) (input : ℕ → HostArgs K × ℤ) : System K where
  server := .start
  rpcs := 0
  worker i := ⟨throughput i, .requesting, .sleeping, []⟩
  client i := ⟨(input i).1, (input i).2, .unset, .starting⟩

/-- **The runs of the system**: any number of workers and clients, in any order. -/
abbrev Run [Field K] [LinearOrder K] [HasSqrt K] (throughput : ℕ → ℤ) (input : ℕ → HostArgs K × ℤ)
    (labels : List (List (JobEvent K))) (s : System K) : Prop :=
  Trace Step (start throughput input) labels s

end System

end

end Scamp
