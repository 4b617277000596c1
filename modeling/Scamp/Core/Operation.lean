import Scamp.Core.Tile

/-!
# `Core.Operation` — the workers of an operation

`SCAMP_Operation::do_join` and `do_work`: a work queue of tiles, two global profiles, and a number of
worker threads that pop tiles, execute them and merge the results. The workers are a transition system.
A step is what one worker does between two points where another can come in between: a call on the
thread-safe queue, the copy of one entry of a global profile by `InitProfile` (made without the lock, in
any order), the merge of a tile's profile into a global one (made under its lock), the update of the
counter. Everything that only touches the worker's own tile belongs to the step before it.
-/

namespace Scamp

section
variable {K : Type} [Field K] [LinearOrder K]

/-! ## What the workers share -/

/-- What `do_join` computes before it starts the workers, and the build they run. -/
structure Operation (K : Type) [Field K] [LinearOrder K] where
  build : Build K
  info : OpInfo K
  timeseriesA : Vec K
  timeseriesB : Vec K
  precompA : PrecomputedInfo K
  precompB : PrecomputedInfo K
  precomp : CombinedStats K

/-- The first part of `SCAMP_Operation::do_join`. The combined statistics are computed for
    `PRECISION_ULTRA` only, and only read then. -/
def Join.operation [HasSqrt K] (J : Join K) (build : Build K) : Operation K :=
  let m := J.info.mpWindow
  let a := convertNonFiniteToZero J.seriesA m
  let b := convertNonFiniteToZero J.seriesB m
  let ultraPrecision := decide (J.info.fpType = .ultra)
  let precompA := computeStatisticsCpu a.1 a.2 m ultraPrecision
  { build := build
    info := J.info
    timeseriesA := a.1
    timeseriesB := b.1
    precompA := precompA
    precompB := computeStatisticsCpu b.1 b.2 m ultraPrecision
    precomp := computeCombinedStatsCpu a.1 precompA.means b.1 m ultraPrecision }

/-- The data all workers access. -/
structure Shared (K : Type) where
  workQueue : List TilePos
  profileA : Profile K
  profileB : Profile K
  completedTiles : ℕ

namespace Shared

def profile (g : Shared K) : Side → Profile K
  | .a => g.profileA
  | .b => g.profileB

def setProfile (g : Shared K) (side : Side) (p : Profile K) : Shared K :=
  match side with
  | .a => { g with profileA := p }
  | .b => { g with profileB := p }

end Shared

/-! ## One worker -/

/-- Where in `do_work` a worker is. The lists are the entries `InitProfile` has still to copy into the
    column and the row profile of the tile; `last` marks the merge after the loop. -/
inductive Phase
  | start
  | presetting (todoA todoB : List ℕ)
  | checking
  | popping
  | seeding (todoA todoB : List ℕ)
  | mergingA (last : Bool)
  | mergingB (last : Bool)
  | counting
  | finished
  | failed (message : String)
deriving DecidableEq, Repr

/-- A worker thread: its place in the code, the tile position `t` it popped last, and its tile. -/
structure Worker (K : Type) where
  phase : Phase
  pos : TilePos
  tile : Tile K

/-- What a worker may do next: copy an entry of a profile, or go on. -/
inductive Action
  | copyA (k : ℕ)
  | copyB (k : ℕ)
  | advance
deriving DecidableEq, Repr

/-- The zeros of `memset`. -/
def zeroEntry : MpEntry K := .ofValue 0

/-- The start of `InitProfile`: what it fills with zeros, and the entries it is going to copy. -/
def beginInitProfile (info : OpInfo K) (summarySize : ℕ) (t : Tile K) : Tile K × List ℕ × List ℕ :=
  let initA := initProfileA info t.dims summarySize
  let initB := initProfileB info t.dims
  let width := t.dims.width - info.mpWindow + 1
  let height := t.dims.height - info.mpWindow + 1
  let todo : ProfileInit → List ℕ
    | .copy _ _ length => List.range length
    | _ => []
  ({ t with
      profileATileDev :=
        if initA = .zero then memcopy t.profileATileDev (fun _ => zeroEntry) 0 width
        else t.profileATileDev
      profileBTileDev :=
        if initB = .zero then memcopy t.profileBTileDev (fun _ => zeroEntry) 0 height
        else t.profileBTileDev },
   todo initA, todo initB)

/-- Copies entry `k` of what `InitProfile` copies into a local profile. -/
def copyEntry (init : ProfileInit) (g : Shared K) (dst : Buffer (MpEntry K)) (k : ℕ) :
    Buffer (MpEntry K) :=
  match init with
  | .copy source start _ => Function.update dst k ((g.profile source).data.get (start + k))
  | _ => dst

def copyEntryA (info : OpInfo K) (g : Shared K) (t : Tile K) (k : ℕ) : Tile K :=
  { t with
    profileATileDev :=
      copyEntry (initProfileA info t.dims g.profileA.data.size) g t.profileATileDev k }

def copyEntryB (info : OpInfo K) (g : Shared K) (t : Tile K) (k : ℕ) : Tile K :=
  { t with profileBTileDev := copyEntry (initProfileB info t.dims) g t.profileBTileDev k }

/-- The tile type `do_work` executes a position with. -/
def tileType (info : OpInfo K) (t : TilePos) : SCAMPTileType :=
  if info.selfJoin then
    if t.1 = t.2 then .selfJoinUpperTriangular else .selfJoinFullTile
  else .abFullJoinFullTile

/-- The tile at the position just popped: its place, its series and its statistics. -/
def prepareTile (op : Operation K) (t : TilePos) (tile : Tile K) : Tile K :=
  ({ tile with dims := tileDims op.info t }.initTimeseries op.timeseriesA op.timeseriesB).initStats
    op.info op.precompA op.precompB op.precomp

/-- What follows the `while` loop. -/
def leaveLoop (info : OpInfo K) : Phase :=
  if needsIntermittentMerge info.profileType then .finished else .mergingA true

/-- What follows a merge. -/
def afterMerge (last : Bool) : Phase := if last then .finished else .counting

/-- One step of `do_work`; `none` where the worker cannot take that action. -/
def workStep (op : Operation K) (act : Action) (g : Shared K) (w : Worker K) :
    Option (Shared K × Worker K) :=
  match w.phase, act with
  | .start, .advance =>
      if needsIntermittentReset op.info.profileType then some (g, { w with phase := .checking })
      else
        let init := beginInitProfile op.info g.profileA.data.size w.tile
        some (g, { w with phase := .presetting init.2.1 init.2.2, tile := init.1 })
  | .presetting todoA todoB, .copyA k =>
      if k ∈ todoA then
        some (g, { w with
          phase := .presetting (todoA.erase k) todoB, tile := copyEntryA op.info g w.tile k })
      else none
  | .presetting todoA todoB, .copyB k =>
      if k ∈ todoB then
        some (g, { w with
          phase := .presetting todoA (todoB.erase k), tile := copyEntryB op.info g w.tile k })
      else none
  | .presetting [] [], .advance => some (g, { w with phase := .checking })
  | .checking, .advance =>
      if g.workQueue.isEmpty then some (g, { w with phase := leaveLoop op.info })
      else some (g, { w with phase := .popping })
  | .popping, .advance =>
      match g.workQueue with
      -- another thread grabbed our tile and now the queue is empty
      | [] => some (g, { w with phase := leaveLoop op.info })
      | t :: rest =>
          let tile := prepareTile op t w.tile
          let init :=
            if needsIntermittentReset op.info.profileType then
              beginInitProfile op.info g.profileA.data.size tile
            else (tile, [], [])
          some ({ g with workQueue := rest },
            { phase := .seeding init.2.1 init.2.2, pos := t, tile := init.1 })
  | .seeding todoA todoB, .copyA k =>
      if k ∈ todoA then
        some (g, { w with
          phase := .seeding (todoA.erase k) todoB, tile := copyEntryA op.info g w.tile k })
      else none
  | .seeding todoA todoB, .copyB k =>
      if k ∈ todoB then
        some (g, { w with
          phase := .seeding todoA (todoB.erase k), tile := copyEntryB op.info g w.tile k })
      else none
  | .seeding [] [], .advance =>
      match w.tile.execute op.build op.info (tileType op.info w.pos) with
      | .error e =>
          some (g, { w with
            phase := .failed ("ERROR " ++ getSCAMPErrorString e ++ " executing tile") })
      | .ok tile =>
          let next :=
            if needsIntermittentMerge op.info.profileType then .mergingA false else .counting
          some (g, { w with phase := next, tile := tile })
  | .mergingA last, .advance =>
      match w.tile.mergeProfileA op.info g.profileA with
      | .error e => some (g, { w with phase := .failed e })
      | .ok p =>
          let next :=
            if (Tile.mergeTargetB op.info).isSome then .mergingB last else afterMerge last
          some ({ g with profileA := p }, { w with phase := next })
  | .mergingB last, .advance =>
      match Tile.mergeTargetB op.info with
      | none => some (g, { w with phase := afterMerge last })
      | some side =>
          match w.tile.mergeProfileB op.info (g.profile side) with
          | .error e => some (g, { w with phase := .failed e })
          | .ok p => some (g.setProfile side p, { w with phase := afterMerge last })
  | .counting, .advance =>
      some ({ g with completedTiles := g.completedTiles + 1 }, { w with phase := .checking })
  | _, _ => none

/-! ## All workers -/

/-- A state of the operation: the shared data and the workers, of which the first `numThreads` run. -/
structure OpState (K : Type) where
  shared : Shared K
  workers : ℕ → Worker K

/-- Worker `i` takes a step. -/
def opStep (op : Operation K) (s : OpState K) (i : ℕ) (act : Action) : Option (OpState K) :=
  match workStep op act s.shared (s.workers i) with
  | some (g, w) => some ⟨g, Function.update s.workers i w⟩
  | none => none

/-- One of the first `n` workers takes a step. -/
def OpStep (op : Operation K) (n : ℕ) (s s' : OpState K) : Prop :=
  ∃ i < n, ∃ act, opStep op s i act = some s'

/-- The state in which `do_join` starts the workers: the profiles as `InitProfileMemory` leaves them, all
    tiles queued, and tiles whose memory is not initialised. -/
def Join.initState (J : Join K) (memory : ℕ → Tile K) : OpState K where
  shared :=
    { workQueue := getTiles J.info
      profileA := J.args.initProfileMemory.profileA
      profileB := J.args.initProfileMemory.profileB
      completedTiles := 0 }
  workers i := ⟨.start, (0, 0), memory i⟩

/-- `do_join` returns: every future is done, and none holds an exception. -/
def Join.Returned (J : Join K) (s : OpState K) : Prop :=
  ∀ i < J.numThreads, (s.workers i).phase = .finished

end

end Scamp
