import Scamp.Distributed.Messages
import Scamp.Core.Operation

/-!
# `Distributed.Worker` — a worker computes a tile

`SCAMPWorker::ExecuteWork` (`scamp_worker.cpp`) with CPU threads: the message of a tile is converted to
arguments, `do_SCAMP` runs them, and the profiles go back in the message, without its series. A join that
`do_SCAMP` refuses, or that does not return, gives no result.

Both `ExecuteWork` and `do_SCAMP` allocate the profiles; the second time finds the memory it needs and adds
an empty block, which no conversion looks at.
-/

namespace Scamp

/-- One execution of the work in `message`, which sends `request` back. What the constructor of the arguments
    leaves without a value, or without data, is in `fresh`. -/
structure Execution {K : Type} [Field K] [LinearOrder K] [HasSqrt K]
    (message request : SCAMPProto.SCAMPArgs K) where
  fresh : HostArgs K
  args : HostArgs K
  join : Join K
  build : Build K
  memory : ℕ → Tile K
  state : OpState K
  profileA : SCAMPProto.Profile K
  profileB : SCAMPProto.Profile K
  fresh_b : fresh.profileB = ⟨.invalid, []⟩
  args_eq : convertProtoArgsToSCAMPArgs message fresh = some args
  join_eq : join.args = args.toArgs
  run : Relation.ReflTransGen (OpStep (join.operation build) join.numThreads) (join.initState memory) state
  returned : join.Returned state
  profileA_eq : (HostProfile.ofProfile state.shared.profileA).convert = some profileA
  profileB_eq : (HostProfile.ofProfile state.shared.profileB).convert = some profileB
  request_eq : request = { message with timeseriesA := [], timeseriesB := [], profileA := profileA, profileB := profileB }

end Scamp
