import Scamp.Gpu.Neighbors

/-!
# `Gpu.Workers` — several workers on a join that keeps several neighbours

`Gpu.Neighbors` follows one worker. Here any number of them share the work queue and the two global
profiles. Each is a place in `do_work` and the thresholds that `InitProfile` copied for the tile it works
on, so that other workers can raise a threshold while the kernels of a tile still report by the old one.
`MergeProfile` locks a profile for each of its two merges, which are two steps here.
-/

namespace Scamp

section
variable {K : Type}

/-- Where a worker is in `do_work`. -/
inductive GpuPhase (K : Type)
  | popping
  | seeding (t : TilePos)
  | executing (t : TilePos)
  | mergingRows (t : TilePos) (overflowed : Bool) (ms : List (SCAMPmatch K))

/-- A worker and the thresholds of its tile. -/
structure GpuWorker (K : Type) where
  phase : GpuPhase K
  thresholdsA : Buffer K
  thresholdsB : Buffer K

/-- What a worker does next: go on, or get the matches of the kernels it has started. -/
inductive GpuAction (K : Type)
  | advance
  | merge (ms : TileMatches K)

end

section
variable {K : Type} [LinearOrder K]

/-- The work queue, the global profiles and the workers. -/
structure GpuState (K : Type) [LinearOrder K] where
  workQueue : List TilePos
  profileA : NeighborProfile K
  profileB : NeighborProfile K
  workers : ℕ → GpuWorker K

namespace GpuState

def profile (s : GpuState K) : Side → NeighborProfile K
  | .a => s.profileA
  | .b => s.profileB

def setProfile (s : GpuState K) (side : Side) (p : NeighborProfile K) : GpuState K :=
  match side with
  | .a => { s with profileA := p }
  | .b => { s with profileB := p }

@[simp] theorem workers_setProfile (s : GpuState K) (side : Side) (p : NeighborProfile K) :
    (s.setProfile side p).workers = s.workers := by
  cases side <;> rfl

@[simp] theorem workQueue_setProfile (s : GpuState K) (side : Side) (p : NeighborProfile K) :
    (s.setProfile side p).workQueue = s.workQueue := by
  cases side <;> rfl

def setWorker (s : GpuState K) (i : ℕ) (w : GpuWorker K) : GpuState K :=
  { s with workers := Function.update s.workers i w }

def setPhase (s : GpuState K) (i : ℕ) (phase : GpuPhase K) : GpuState K :=
  s.setWorker i { s.workers i with phase := phase }

@[simp] theorem worker_setWorker (s : GpuState K) (i : ℕ) (w : GpuWorker K) : (s.setWorker i w).workers i = w :=
  Function.update_self ..

@[simp] theorem worker_setPhase (s : GpuState K) (i : ℕ) (phase : GpuPhase K) :
    (s.setPhase i phase).workers i = { s.workers i with phase := phase } :=
  worker_setWorker ..

/-- The profiles and the thresholds as worker `i` has them. -/
def seenBy (s : GpuState K) (i : ℕ) : NeighborState K where
  profileA := s.profileA
  profileB := s.profileB
  thresholdsA := (s.workers i).thresholdsA
  thresholdsB := (s.workers i).thresholdsB
  current := none
  merged := []

end GpuState

/-- What follows the merges of a tile: it is run again when it has overflowed. -/
def afterAttempt (t : TilePos) (overflowed : Bool) : GpuPhase K :=
  if overflowed then .seeding t else .popping

/-- One step of worker `i` in `do_work`. `matchesOf` are the matches that the passes over a tile may
    report. -/
def gpuStep (info : OpInfo K) (matchesOf : TilePos → TileMatches K) (i : ℕ) (act : GpuAction K)
    (s : GpuState K) : Option (GpuState K) :=
  match (s.workers i).phase, act with
  | .popping, .advance =>
      match s.workQueue with
      | [] => none
      | t :: rest => some ({ s with workQueue := rest }.setPhase i (.seeding t))
  | .seeding t, .advance =>
      let seeded := (s.seenBy i).initProfile info (tileDims info t)
      some (s.setWorker i ⟨.executing t, seeded.thresholdsA, seeded.thresholdsB⟩)
  | .executing t, .merge ms =>
      let reported := (s.seenBy i).reported info (matchesOf t)
      if Copied info reported.cols ms.cols ∧ Copied info reported.rows ms.rows then
        let overflowed := overflows info reported
        let dims := tileDims info t
        let next :=
          if (Tile.mergeTargetB info).isSome then .mergingRows t overflowed ms.rows
          else afterAttempt t overflowed
        some ((s.setProfile .a (mergeTileMatches info s.profileA ms.cols dims.col dims.row overflowed)).setPhase
          i next)
      else none
  | .mergingRows t overflowed ms, .advance =>
      match Tile.mergeTargetB info with
      | some side =>
          let dims := tileDims info t
          some ((s.setProfile side
            (mergeTileMatches info (s.profile side) ms dims.row dims.col overflowed)).setPhase i
              (afterAttempt t overflowed))
      | none => none
  | _, _ => none

/-- One of the first `n` workers takes a step. -/
def GpuStep (info : OpInfo K) (matchesOf : TilePos → TileMatches K) (n : ℕ) (s s' : GpuState K) : Prop :=
  ∃ i < n, ∃ act, gpuStep info matchesOf i act s = some s'

/-- The state in which `do_join` starts the workers: all tiles queued, the profiles as `InitProfileMemory`
    leaves them, and thresholds that are not initialised. -/
def GpuState.init (info : OpInfo K) (args : SCAMPArgs K) (memory : ℕ → Buffer K × Buffer K) : GpuState K where
  workQueue := getTiles info
  profileA := .alloc args.profileASize args.distanceThreshold
  profileB := .alloc (if args.keepRowsSeparate then args.profileBSize else 0) args.distanceThreshold
  workers i := ⟨.popping, (memory i).1, (memory i).2⟩

end

end Scamp
