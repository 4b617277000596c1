import Scamp.Distributed.Messages
import Scamp.Lib.Trace

/-!
# `Distributed.Job` — a job of the server

`Job` and `DistributedTile` (`distributed_job.cpp`, `distributed_tile.cpp`). The distance matrix of a job is
cut into distributed tiles. Workers fetch a tile and send its profiles back, which the job combines; a tile
that fails or takes too long is handed out again, a number of times.

Every method takes the lock of the job, so that a run of the server is a sequence of calls in some order
(`Job.Run`). Clock readings are arguments of a call, and so is the order in which `cleanup_failed_tiles`
goes through the hash table of tiles. `none` is a call that does not return: an exception, a division by
zero, an access outside an array. The methods that only report on a job (`get_elapsed_time`, `get_eta`,
`get_progress`, `status`, `args`) are left out, as are the messages on standard output.
-/

namespace Scamp

/-- `MAX_TILE_RETRIES`. -/
def maxTileRetries : ℕ := 3

/-- `MIN_TIMEOUT_SECONDS`. -/
def minTimeoutSeconds : ℤ := 10

/-- Tile status. -/
inductive TileStatus
  | invalid
  | ready
  | running
  | finished
  | failed
deriving DecidableEq, Repr

open SCAMPProto (JobStatus)

section
variable {K : Type}

/-! ## Tiles -/

/-- A particular tile in a job. -/
structure DistributedTile (K : Type) where
  tileId : ℕ
  tileRow : ℕ
  tileCol : ℕ
  height : ℤ
  width : ℤ
  startRow : ℤ
  startCol : ℤ
  status : TileStatus
  hasArgs : Bool
  args : SCAMPProto.SCAMPArgs K
  retries : ℕ
  startTime : ℤ
  endTime : ℤ
  timeout : ℤ

/-- `INT_MAX`. -/
def intMax : ℤ := 2147483647

/-- The constructor of `DistributedTile`. Its first row and column are set by `generate_args`. -/
def DistributedTile.new [Zero K] (r c : ℕ) (height width : ℤ) (id : ℕ) : DistributedTile K where
  tileId := id
  tileRow := r
  tileCol := c
  height := height
  width := width
  startRow := 0
  startCol := 0
  status := .ready
  hasArgs := false
  args := .unset
  retries := 0
  startTime := -1
  endTime := -1
  timeout := intMax

/-- The samples under a range of subsequences. -/
def sliceSeries (series : List (Sample K)) (start count : ℤ) : List (Sample K) :=
  (List.range' start.toNat count.toNat).map fun i => series.getD i .nan

/-- `DistributedTile::generate_args`: the tile with its place and its arguments, and the message for a
    worker. -/
def DistributedTile.generateArgs [Zero K] (tile : DistributedTile K) (jobArgs : SCAMPProto.SCAMPArgs K) :
    DistributedTile K × SCAMPProto.SCAMPArgs K :=
  let startCol := tile.tileCol * jobArgs.distributedTileSize
  let startRow := tile.tileRow * jobArgs.distributedTileSize
  let onDiagonal := tile.tileRow == tile.tileCol
  let args : SCAMPProto.SCAMPArgs K :=
    { SCAMPProto.SCAMPArgs.unset with
      timeseriesSizeA := tile.width + jobArgs.window - 1
      timeseriesSizeB := tile.height + jobArgs.window - 1
      distributedStartRow := startRow
      distributedStartCol := startCol
      maxTileSize := jobArgs.maxTileSize
      distanceThreshold := jobArgs.distanceThreshold
      profileType := jobArgs.profileType
      precisionType := jobArgs.precisionType
      window := jobArgs.window
      computingColumns := true
      -- on the diagonal of a self-join a smaller self-join will do
      hasB := jobArgs.hasB || !onDiagonal
      computingRows := if jobArgs.hasB then jobArgs.keepRowsSeparate else true
      keepRowsSeparate := if jobArgs.hasB || onDiagonal then jobArgs.keepRowsSeparate else true
      isAligned := if jobArgs.hasB || onDiagonal then jobArgs.isAligned else true
      profileA := ⟨[], jobArgs.profileType⟩
      profileB := ⟨[], jobArgs.profileType⟩
      tileId := tile.tileId }
  let seriesB := if jobArgs.hasB then jobArgs.timeseriesB else jobArgs.timeseriesA
  ({ tile with startRow := startRow, startCol := startCol, args := args, hasArgs := true },
   { args with
      timeseriesA := sliceSeries jobArgs.timeseriesA startCol (tile.width + jobArgs.window - 1)
      timeseriesB := sliceSeries seriesB startRow (tile.height + jobArgs.window - 1) })

/-! ## Jobs -/

/-- A distributed job. The tiles are those with an id below `tileCounter`. -/
structure Job (K : Type) where
  jobId : ℤ
  jobArgs : SCAMPProto.SCAMPArgs K
  status : JobStatus
  distributedTileSize : ℕ
  distanceMatrixWidth : ℤ
  distanceMatrixHeight : ℤ
  tileRows : ℤ
  tileCols : ℤ
  tileCounter : ℕ
  tiles : ℕ → DistributedTile K
  readyQueue : List ℕ
  tilesCompleted : ℕ

/-- `validateArgs`, a stub in the source. -/
def validateArgs (_args : SCAMPProto.SCAMPArgs K) : Bool := true

/-- `ceil(x / (double)d)`, which doubles compute exactly where `x` is the size of a matrix. -/
def ceilDiv (x : ℤ) (d : ℕ) : ℤ := -(-x / d)

/-- The number of blocks of `d` rows or columns, an `int`. A quotient by zero is infinite or not a number, and
    x86 processors convert it to the smallest `int`. -/
def blockCount (x : ℤ) (d : ℕ) : ℤ := if d = 0 then -2 ^ 31 else ceilDiv x d

theorem blockCount_of_pos {d : ℕ} (hd : 0 < d) (x : ℤ) : blockCount x d = ceilDiv x d := if_neg hd.ne'

/-- The rows and columns of the tiles, in the order in which `Init` makes them. -/
def tileGrid (tileRows tileCols : ℤ) (hasB : Bool) : List (ℕ × ℕ) :=
  (List.range tileRows.toNat).flatMap fun r =>
    let first := if hasB then 0 else r
    (List.range' first (tileCols.toNat - first)).map fun c => (r, c)

namespace Job

/-- What the constructor of `Job` sets before it calls `Init`; the rest has no value yet. -/
def new (args : SCAMPProto.SCAMPArgs K) (id : ℤ) [Zero K] : Job K where
  jobId := id
  jobArgs := args
  status := .running
  distributedTileSize := 0
  distanceMatrixWidth := 0
  distanceMatrixHeight := 0
  tileRows := 0
  tileCols := 0
  tileCounter := 0
  tiles := fun id => .new 0 0 0 0 id
  readyQueue := []
  tilesCompleted := 0

/-- The loops of `Init` that make the tiles and queue them. -/
def makeTiles [Zero K] (job : Job K) : Job K :=
  let grid := tileGrid job.tileRows job.tileCols job.jobArgs.hasB
  let size := job.distributedTileSize
  let tile (id : ℕ) : DistributedTile K :=
    let pos := grid.getD id (0, 0)
    .new pos.1 pos.2 (min size (uint64 (job.distanceMatrixHeight - pos.1 * size)))
      (min size (uint64 (job.distanceMatrixWidth - pos.2 * size))) id
  { job with
    tileCounter := grid.length
    tiles := tile
    readyQueue := List.range grid.length
    status := .running }

/-- A profile of the job, allocated if it is not yet, and whether it has the size of the matrix. -/
def allocateProfile [Field K] [LinearOrder K] (p : SCAMPProto.Profile K)
    (type : SCAMPProto.SCAMPProfileType) (size : ℤ) : Option (SCAMPProto.Profile K × Bool) :=
  let p := if profileAllocated p then p else initProfile p type size
  (getProfileSize p).map fun n => (p, (n : ℤ) = size)

/-- The last part of `Init`: the tiles of the distance matrix. There are none of size `0`. -/
def cutMatrix [Zero K] (job : Job K) : Job K :=
  let size := uint64 job.jobArgs.distributedTileSize
  let tileCols := blockCount job.distanceMatrixWidth size
  let tileRows := if job.jobArgs.hasB then blockCount job.distanceMatrixHeight size else tileCols
  { job with distributedTileSize := size, tileCols := tileCols, tileRows := tileRows }.makeTiles

/-- `Job::Init`. -/
def init [Field K] [LinearOrder K] (job : Job K) : Option (Job K) :=
  let args := job.jobArgs
  if !validateArgs args then some { job with status := .invalid }
  else
    let width := int64 (args.timeseriesA.length - args.window + 1)
    let height := if args.hasB then int64 (args.timeseriesB.length - args.window + 1) else width
    match allocateProfile args.profileA args.profileType width with
    | none => none
    | some (profileA, fits) =>
        let job :=
          { job with
            distanceMatrixWidth := width
            distanceMatrixHeight := height
            jobArgs := { args with profileA := profileA } }
        -- the profile size must align with the distance matrix size
        if !fits then some { job with status := .invalid }
        else if args.keepRowsSeparate then
          match allocateProfile args.profileB args.profileType height with
          | none => none
          | some (profileB, fits) =>
              let job := { job with jobArgs := { job.jobArgs with profileB := profileB } }
              if !fits then some { job with status := .invalid } else some job.cutMatrix
        else some job.cutMatrix

/-- Tile `id` after a change. -/
def setTile (job : Job K) (id : ℕ) (tile : DistributedTile K) : Job K :=
  { job with tiles := Function.update job.tiles id tile }

/-! ## Methods -/

/-- `Job::check_time_tile`: running tiles that take too long have failed. -/
def checkTimeTile (job : Job K) (now : ℕ → ℤ) : Job K :=
  { job with
    tiles := fun id =>
      let tile := job.tiles id
      if id < job.tileCounter ∧ tile.status = .running ∧ now id - tile.startTime > tile.timeout then
        { tile with endTime := now id, status := .failed }
      else tile }

/-- `Job::is_done`. -/
def isDone (job : Job K) : Job K × Bool :=
  if job.status = .finished then (job, true)
  else if ∃ id < job.tileCounter, (job.tiles id).status ≠ .finished then (job, false)
  else ({ job with status := .finished }, true)

/-- `Job::set_tile_failed`. -/
def setTileFailed (job : Job K) (tileId now : ℤ) : Job K :=
  if tileId < job.tileCounter ∧ 0 ≤ tileId then
    job.setTile tileId.toNat { job.tiles tileId.toNat with status := .failed, endTime := now }
  else job

/-- The part of `cleanup_failed_tiles` that retries a tile. -/
def retryTile (job : Job K) (now : ℤ) (id : ℕ) : Job K :=
  let tile := job.tiles id
  let retried :=
    job.setTile id { tile with retries := tile.retries + 1, startTime := now, endTime := intMax }
  { retried with readyQueue := retried.readyQueue ++ [id] }

/-- `Job::cleanup_failed_tiles`, over the tiles in `order`: queues failed tiles again, until one has been
    retried too often. -/
def cleanupFailedTiles (now : ℤ) (job : Job K) : List ℕ → Job K × Bool
  | [] => (job, true)
  | id :: order =>
      if (job.tiles id).status = .failed then
        if (job.tiles id).retries > maxTileRetries then ({ job with status := .failed }, false)
        else cleanupFailedTiles now (job.retryTile now id) order
      else cleanupFailedTiles now job order

/-- The time a worker gets for a tile: `distributed_tile_size_` squared over its throughput, half of it for
    a self-join, and not too little. -/
def tileTimeout (job : Job K) (hasB : Bool) (throughput : ℤ) : ℤ :=
  let timeout := int64 (uint64 (job.distributedTileSize * job.distributedTileSize) / uint64 throughput : ℕ)
  let timeout := if hasB then timeout else timeout.tdiv 2
  int32 (max minTimeoutSeconds timeout)

/-- The part of `fetch_ready_tile` that hands out the first tile of the queue. -/
def handOut [Zero K] (job : Job K) (now throughput : ℤ) : Option (Job K × Option (SCAMPProto.SCAMPArgs K)) :=
  match job.readyQueue with
  | [] => none
  | id :: rest =>
      if uint64 throughput = 0 then none
      else
        let (tile, args) := (job.tiles id).generateArgs job.jobArgs
        let tile :=
          { tile with
            timeout := job.tileTimeout args.hasB throughput
            startTime := now
            status := .running }
        some ({ job with readyQueue := rest }.setTile id tile, some { args with jobId := job.jobId })

/-- `Job::fetch_ready_tile`: the message for the worker, if there is a tile. -/
def fetchReadyTile [Zero K] (job : Job K) (order : List ℕ) (now throughput : ℤ) :
    Option (Job K × Option (SCAMPProto.SCAMPArgs K)) :=
  if job.status ≠ .running then some (job, none)
  else if job.readyQueue.isEmpty then
    -- see if there are any failed tiles to retry
    let (job, failed) := job.cleanupFailedTiles now order
    if failed ∨ job.readyQueue.isEmpty then some (job, none) else job.handOut now throughput
  else job.handOut now throughput

/-- `Job::has_work`. -/
def hasWork (job : Job K) (order : List ℕ) (now : ℤ) : Job K × Bool :=
  if job.status = .running then
    if job.readyQueue.isEmpty then
      let (job, failed) := job.cleanupFailedTiles now order
      (job, !job.readyQueue.isEmpty && !failed)
    else (job, true)
  else (job, false)

/-- The checks of `CombineProfile`, on a tile of the job: the request must be for a running tile with the
    tile's sizes. -/
def acceptsResult (tile : DistributedTile K) (request : SCAMPProto.SCAMPArgs K) : Option Bool := do
  let requestWidth := uint64 (request.timeseriesSizeA - request.window + 1)
  let requestHeight :=
    if request.hasB then uint64 (request.timeseriesSizeB - request.window + 1) else requestWidth
  if !tile.hasArgs then return false
  if tile.status ≠ .running then return false
  if uint64 tile.height ≠ requestHeight then return false
  if uint64 tile.width ≠ requestWidth then return false
  if uint64 tile.startRow ≠ uint64 request.distributedStartRow then return false
  if uint64 tile.startCol ≠ uint64 request.distributedStartCol then return false
  let sizeA ← getProfileSize request.profileA
  if (sizeA : ℤ) ≠ tile.width then return false
  if tile.args.keepRowsSeparate then
    let sizeB ← getProfileSize request.profileB
    return (sizeB : ℤ) = tile.height
  else return true

/-- `Job::CombineProfile`. -/
def combineProfile [Field K] [LinearOrder K] (job : Job K) (request : SCAMPProto.SCAMPArgs K) (now : ℤ) :
    Option (Job K × Bool) := do
  let tileId := int32 request.tileId
  if tileId < 0 ∨ job.tileCounter ≤ tileId then return (job, false)
  let id := tileId.toNat
  let tile := job.tiles id
  let accepted ← acceptsResult tile request
  if !accepted then return (job, false)
  let jobArgs ← mergeProfile tile.args job.jobArgs request.profileA (uint64 tile.startCol)
    (uint64 tile.width) request.profileB (uint64 tile.startRow) (uint64 tile.height)
  return ({ job with jobArgs := jobArgs, tilesCompleted := job.tilesCompleted + 1 }.setTile id
    { tile with status := .finished, endTime := now }, true)

end Job

/-! ## Runs -/

/-- A call of a method of the job. -/
inductive Call (K : Type)
  | checkTimeTile (now : ℕ → ℤ)
  | isDone
  | setTileFailed (tileId now : ℤ)
  | fetchReadyTile (order : List ℕ) (now throughput : ℤ)
  | combineProfile (request : SCAMPProto.SCAMPArgs K) (now : ℤ)
  | hasWork (order : List ℕ) (now : ℤ)

/-- What a call returns. -/
inductive Reply (K : Type)
  | nothing
  | answer (b : Bool)
  | work (args : Option (SCAMPProto.SCAMPArgs K))

/-- The order in which a call goes through the tiles is one of all tiles. -/
def Call.Orders (job : Job K) : Call K → Prop
  | .fetchReadyTile order _ _ => order.Perm (List.range job.tileCounter)
  | .hasWork order _ => order.Perm (List.range job.tileCounter)
  | _ => True

/-- A call: the job after it, and what it returns. -/
def Job.call [Field K] [LinearOrder K] (job : Job K) : Call K → Option (Job K × Reply K)
  | .checkTimeTile now => some (job.checkTimeTile now, .nothing)
  | .isDone => some (job.isDone.1, .answer job.isDone.2)
  | .setTileFailed tileId now => some (job.setTileFailed tileId now, .nothing)
  | .fetchReadyTile order now throughput =>
      (job.fetchReadyTile order now throughput).map fun r => (r.1, .work r.2)
  | .combineProfile request now => (job.combineProfile request now).map fun r => (r.1, .answer r.2)
  | .hasWork order now => some ((job.hasWork order now).1, .answer (job.hasWork order now).2)

/-- What workers see of a job: tiles that are handed out, and results that are merged. -/
inductive Event
  | handedOut (id : ℕ)
  | merged (id : ℕ)
deriving DecidableEq, Repr

/-- What a call shows. -/
def events : Call K × Reply K → List Event
  | (.fetchReadyTile _ _ _, .work (some args)) => [.handedOut args.tileId.toNat]
  | (.combineProfile request _, .answer true) => [.merged (int32 request.tileId).toNat]
  | _ => []

/-- A call that meets a condition on the job it finds. -/
def CallStep [Field K] [LinearOrder K] (P : Job K → Call K → Prop) (job : Job K) (c : Call K × Reply K)
    (job' : Job K) : Prop :=
  c.1.Orders job ∧ P job c.1 ∧ job.call c.1 = some (job', c.2)

/-- **The runs of a job**: any sequence of calls that meet the condition, with what they returned. -/
abbrev Job.Run [Field K] [LinearOrder K] (P : Job K → Call K → Prop) (start : Job K)
    (trace : List (Call K × Reply K)) (job : Job K) : Prop :=
  Lib.Trace (CallStep P) start trace job

/-- The job a request for a new one creates. -/
def Job.create [Field K] [LinearOrder K] (args : SCAMPProto.SCAMPArgs K) (id : ℤ) : Option (Job K) :=
  (Job.new args id).init

end

end Scamp
