import Scamp.Distributed.Correctness.JobRun

/-!
# `Distributed.Correctness.Create` — the jobs that `Init` makes

A request for a job is rejected, which leaves a job without tiles, or its matrix is cut into tiles
(`create_cases`). The tiles cover the matrix (`tile_covers`): every cell lies in a tile, or its mirror image
does when the job is a self-join.
-/

namespace Scamp

open SCAMPProto (JobStatus)

/-! ## Machine integers -/

theorem uint64_of_range {x : ℤ} (hpos : 0 ≤ x) (hlt : x < 2 ^ 64) : (uint64 x : ℤ) = x := by
  unfold uint64
  rw [Int.emod_eq_of_lt hpos hlt]
  exact Int.toNat_of_nonneg hpos

theorem uint64_natCast {n : ℕ} (h : n < 2 ^ 64) : uint64 (n : ℤ) = n := by
  have heq := uint64_of_range (x := n) (Int.natCast_nonneg n) (by exact_mod_cast h)
  exact_mod_cast heq

theorem int64_lt (x : ℤ) : int64 x < 2 ^ 63 := by
  unfold int64
  exact lt_of_lt_of_le (Int.bmod_lt (by decide)) (by norm_num)

theorem int64_of_range {x : ℤ} (hge : -2 ^ 63 ≤ x) (hlt : x < 2 ^ 63) : int64 x = x := by
  unfold int64
  exact Int.bmod_eq_of_le (by norm_num; omega) (by norm_num; omega)

/-! ## Ceilings -/

/-- A position inside is in one of the blocks. -/
theorem div_lt_ceilDiv {i d : ℕ} {x : ℤ} (hd : 0 < d) (hi : (i : ℤ) < x) : ((i / d : ℕ) : ℤ) < ceilDiv x d := by
  have hd' : (0 : ℤ) < d := by exact_mod_cast hd
  have hle : x ≤ ceilDiv x d * d := by
    have hdiv := Int.ediv_mul_le (-x) hd'.ne'
    unfold ceilDiv
    linarith
  rw [Int.natCast_ediv]
  exact Int.ediv_lt_of_lt_mul hd' (by omega)

/-- The first position of a block is inside. -/
theorem mul_lt_of_lt_ceilDiv {r d : ℕ} {x : ℤ} (hd : 0 < d) (hr : (r : ℤ) < ceilDiv x d) : (r : ℤ) * d < x := by
  have hd' : (0 : ℤ) < d := by exact_mod_cast hd
  have hdiv := Int.lt_ediv_add_one_mul_self (-x) hd'
  unfold ceilDiv at hr
  have hle : (r : ℤ) * d ≤ (-(-x / d) - 1) * d := Int.mul_le_mul_of_nonneg_right (by omega) hd'.le
  linarith

/-! ## The grid -/

theorem mem_tileGrid {rows cols : ℤ} {hasB : Bool} {r c : ℕ} :
    (r, c) ∈ tileGrid rows cols hasB ↔ (r : ℤ) < rows ∧ (c : ℤ) < cols ∧ (hasB = false → r ≤ c) := by
  unfold tileGrid
  simp only [List.mem_flatMap, List.mem_range, List.mem_map, List.mem_range'_1, Prod.mk.injEq]
  constructor
  · rintro ⟨r, hr, c, hc, rfl, rfl⟩
    cases hasB <;> simp at hc ⊢ <;> omega
  · rintro ⟨hr, hc, hle⟩
    refine ⟨r, by omega, c, ?_, rfl, rfl⟩
    cases hasB <;> simp at hle ⊢ <;> omega

theorem nodup_tileGrid (rows cols : ℤ) (hasB : Bool) : (tileGrid rows cols hasB).Nodup := by
  unfold tileGrid
  refine Lib.nodup_flatMap_of_inj List.nodup_range (fun r _ => ?_) ?_
  · exact List.Nodup.map (fun _ _ h => (Prod.mk.inj h).2) List.nodup_range'
  · intro r _ r' _ z hz hz'
    obtain ⟨c, -, rfl⟩ := List.mem_map.mp hz
    obtain ⟨c', -, heq⟩ := List.mem_map.mp hz'
    exact (Prod.mk.inj heq).1.symm

section
variable {K : Type}

/-! ## Ranges of a series -/

theorem getD_sliceSeries (series : List (Sample K)) {start count : ℤ} {i : ℕ} (hi : i < count.toNat) :
    (sliceSeries series start count).getD i .nan = series.getD (start.toNat + i) .nan := by
  unfold sliceSeries
  rw [List.getD_eq_getElem?_getD, List.getElem?_map, List.getElem?_range' hi]
  simp

@[simp] theorem length_sliceSeries (series : List (Sample K)) (start count : ℤ) :
    (sliceSeries series start count).length = count.toNat := by
  simp [sliceSeries]

/-! ## The job -/

/-- The width of the distance matrix. -/
def SCAMPProto.SCAMPArgs.width (args : SCAMPProto.SCAMPArgs K) : ℤ :=
  int64 (args.timeseriesA.length - args.window + 1)

/-- The height of the distance matrix. -/
def SCAMPProto.SCAMPArgs.height (args : SCAMPProto.SCAMPArgs K) : ℤ :=
  if args.hasB then int64 (args.timeseriesB.length - args.window + 1) else args.width

theorem height_lt (args : SCAMPProto.SCAMPArgs K) : args.height < 2 ^ 63 := by
  unfold SCAMPProto.SCAMPArgs.height SCAMPProto.SCAMPArgs.width
  split <;> exact int64_lt _

/-- A job with its profiles and the sizes of its matrix, before its tiles are made. -/
def Job.sized [Zero K] (args : SCAMPProto.SCAMPArgs K) (id : ℤ) (profileA profileB : SCAMPProto.Profile K) :
    Job K :=
  let size := uint64 args.distributedTileSize
  { Job.new args id with
    jobArgs := { args with profileA := profileA, profileB := profileB }
    distributedTileSize := size
    distanceMatrixWidth := args.width
    distanceMatrixHeight := args.height
    tileCols := blockCount args.width size
    tileRows := blockCount args.height size }

/-- What is left of a job that was rejected. -/
structure Job.Rejected (job : Job K) : Prop where
  status : job.status = .invalid
  count : job.tileCounter = 0
  queue : job.readyQueue = []
  completed : job.tilesCompleted = 0
  ids : ∀ id, (job.tiles id).tileId = id
  retries : ∀ id, (job.tiles id).retries = 0

variable [Field K] [LinearOrder K]

/-- The profiles with which a job starts. -/
structure Profiles (args : SCAMPProto.SCAMPArgs K) (profileA profileB : SCAMPProto.Profile K) : Prop where
  a : Job.allocateProfile args.profileA args.profileType args.width = some (profileA, true)
  b : args.keepRowsSeparate = true →
    Job.allocateProfile args.profileB args.profileType args.height = some (profileB, true)
  same : args.keepRowsSeparate = false → profileB = args.profileB

omit [LinearOrder K] in
theorem cutMatrix_eq (args : SCAMPProto.SCAMPArgs K) (id : ℤ) (profileA profileB : SCAMPProto.Profile K) :
    Job.cutMatrix { Job.new args id with
      distanceMatrixWidth := args.width
      distanceMatrixHeight := args.height
      jobArgs := { args with profileA := profileA, profileB := profileB } } =
        (Job.sized args id profileA profileB).makeTiles := by
  unfold Job.cutMatrix Job.sized SCAMPProto.SCAMPArgs.height
  cases args.hasB <;> rfl

omit [LinearOrder K] in
/-- A matrix is not cut into tiles of size `0`. -/
theorem sized_count_zero {args : SCAMPProto.SCAMPArgs K} (id : ℤ) (profileA profileB : SCAMPProto.Profile K)
    (hsize : uint64 args.distributedTileSize = 0) :
    (Job.sized args id profileA profileB).makeTiles.tileCounter = 0 := by
  unfold Job.makeTiles Job.sized blockCount tileGrid
  simp [hsize]

/-- **What `Init` makes of a request**: a rejected job, if a profile does not fit, or the tiles of the matrix. -/
theorem create_cases {args : SCAMPProto.SCAMPArgs K} {id : ℤ} {job : Job K} (h : Job.create args id = some job) :
    (job.Rejected ∧ ∀ profileA profileB, ¬Profiles args profileA profileB) ∨
      ∃ profileA profileB, Profiles args profileA profileB ∧
        job = (Job.sized args id profileA profileB).makeTiles := by
  have hrejected : ∀ w h a, Job.Rejected { Job.new args id with
      distanceMatrixWidth := w, distanceMatrixHeight := h, jobArgs := a, status := .invalid } :=
    fun w h a => ⟨rfl, rfl, rfl, rfl, fun _ => rfl, fun _ => rfl⟩
  unfold Job.create Job.init at h
  simp only [validateArgs, Bool.not_true, Bool.false_eq_true, if_false] at h
  split at h
  · cases h
  · next profileA fits hA =>
      split at h
      · next hfits =>
          obtain rfl := Option.some.inj h
          refine Or.inl ⟨hrejected _ _ _, fun profileA' profileB' hprofiles => ?_⟩
          obtain ⟨-, rfl⟩ := Prod.mk.inj (Option.some.inj (hA.symm.trans hprofiles.a))
          cases hfits
      · next hfits =>
          obtain rfl : fits = true := by simpa using hfits
          split at h
          · next hkeep =>
              split at h
              · cases h
              · next profileB fits hB =>
                  split at h
                  · next hfits =>
                      obtain rfl := Option.some.inj h
                      refine Or.inl ⟨hrejected _ _ _, fun profileA' profileB' hprofiles => ?_⟩
                      obtain ⟨-, rfl⟩ := Prod.mk.inj (Option.some.inj (hB.symm.trans (hprofiles.b hkeep)))
                      cases hfits
                  · next hfits =>
                      obtain rfl : fits = true := by simpa using hfits
                      have hnot : args.keepRowsSeparate ≠ false := fun hs => by simp [Job.new, hs] at hkeep
                      exact Or.inr ⟨profileA, profileB, ⟨hA, fun _ => hB, fun hs => absurd hs hnot⟩,
                        (Option.some.inj h).symm.trans (cutMatrix_eq args id profileA profileB)⟩
          · next hkeep =>
              exact Or.inr ⟨profileA, args.profileB, ⟨hA, fun hs => absurd hs hkeep, fun _ => rfl⟩,
                (Option.some.inj h).symm.trans (cutMatrix_eq args id profileA args.profileB)⟩

omit [LinearOrder K] in
/-- The job that a request makes, when it is not rejected. -/
theorem makeTiles_fresh (job : Job K) (hcompleted : job.tilesCompleted = 0) : job.makeTiles.scheduler.Fresh where
  queue := rfl
  tile _ _ := rfl
  retries _ := rfl
  completed := hcompleted

omit [Field K] [LinearOrder K] in
theorem Job.Rejected.fresh {job : Job K} (h : job.Rejected) : job.scheduler.Fresh where
  queue := by
    show job.readyQueue = List.range job.tileCounter
    rw [h.queue, h.count]
    rfl
  tile id hid := absurd hid (by
    show ¬id < job.tileCounter
    rw [h.count]
    exact Nat.not_lt_zero id)
  retries := h.retries
  completed := h.completed

/-- **How a job starts**: with every tile ready and queued, and its status running or invalid. -/
theorem create_start {args : SCAMPProto.SCAMPArgs K} {id : ℤ} {job : Job K} (h : Job.create args id = some job) :
    job.scheduler.Fresh ∧ (∀ id, (job.tiles id).tileId = id) ∧
      (job.status = .running ∨ job.status = .invalid) := by
  rcases create_cases h with ⟨hrejected, -⟩ | ⟨profileA, profileB, -, rfl⟩
  · exact ⟨hrejected.fresh, hrejected.ids, Or.inr hrejected.status⟩
  · exact ⟨makeTiles_fresh _ rfl, fun _ => rfl, Or.inl rfl⟩

/-! ## Coverage -/

omit [Field K] [LinearOrder K] in
/-- A cell of the distance matrix is in a tile. -/
def DistributedTile.Covers (tile : DistributedTile K) (size i j : ℕ) : Prop :=
  (tile.tileRow * size ≤ i ∧ (i : ℤ) < tile.tileRow * size + tile.height) ∧
    tile.tileCol * size ≤ j ∧ (j : ℤ) < tile.tileCol * size + tile.width

/-- The rows or columns of a tile reach up to the next tile, or to the end of the matrix. -/
theorem lt_tile_end {i d : ℕ} {x : ℤ} (hd : 0 < d) (hi : (i : ℤ) < x) (hx : x < 2 ^ 63) :
    (i : ℤ) < (i / d : ℕ) * d + min (d : ℤ) (uint64 (x - (i / d : ℕ) * d)) := by
  have hle : ((i / d : ℕ) : ℤ) * d ≤ i := by exact_mod_cast Nat.div_mul_le_self i d
  have hlt : (i : ℤ) < (i / d : ℕ) * d + d := by
    have hmod := Nat.lt_div_mul_add (a := i) hd
    exact_mod_cast hmod
  have hpos : (0 : ℤ) ≤ (i / d : ℕ) * d := by positivity
  rw [uint64_of_range (by omega) (by omega)]
  omega

omit [LinearOrder K] in
/-- A tile, and its place in the grid. -/
theorem makeTiles_place {job : Job K} {k : ℕ} (hk : k < job.makeTiles.tileCounter) :
    ∃ r c, (r, c) ∈ tileGrid job.tileRows job.tileCols job.jobArgs.hasB ∧ (job.makeTiles.tiles k).place =
      (k, r, c, (min job.distributedTileSize (uint64 (job.distanceMatrixHeight - r * job.distributedTileSize)) : ℤ),
        (min job.distributedTileSize (uint64 (job.distanceMatrixWidth - c * job.distributedTileSize)) : ℤ)) := by
  have hmem : (tileGrid job.tileRows job.tileCols job.jobArgs.hasB).getD k (0, 0) ∈
      tileGrid job.tileRows job.tileCols job.jobArgs.hasB := by
    rw [List.getD_eq_getElem?_getD, List.getElem?_eq_getElem hk]
    exact List.getElem_mem hk
  exact ⟨_, _, hmem, rfl⟩

omit [LinearOrder K] in
/-- A tile of the grid. -/
theorem makeTiles_tile {job : Job K} {r c : ℕ} (h : (r, c) ∈ tileGrid job.tileRows job.tileCols job.jobArgs.hasB) :
    ∃ id < job.makeTiles.tileCounter, (job.makeTiles.tiles id).place =
      (id, r, c, (min job.distributedTileSize (uint64 (job.distanceMatrixHeight - r * job.distributedTileSize)) : ℤ),
        (min job.distributedTileSize (uint64 (job.distanceMatrixWidth - c * job.distributedTileSize)) : ℤ)) := by
  obtain ⟨id, hid, hget⟩ := List.mem_iff_getElem.mp h
  refine ⟨id, hid, ?_⟩
  have hpos : (tileGrid job.tileRows job.tileCols job.jobArgs.hasB).getD id (0, 0) = (r, c) := by
    rw [List.getD_eq_getElem?_getD, List.getElem?_eq_getElem hid, hget]
    rfl
  unfold Job.makeTiles DistributedTile.place DistributedTile.new
  dsimp only
  rw [hpos]

omit [LinearOrder K] in
/-- **The place of each tile**: a block of the matrix, cut at its end. -/
theorem sized_place {args : SCAMPProto.SCAMPArgs K} (id : ℤ) (profileA profileB : SCAMPProto.Profile K)
    (hsize : uint64 args.distributedTileSize ≠ 0) {k : ℕ}
    (hk : k < (Job.sized args id profileA profileB).makeTiles.tileCounter) :
    ∃ r c : ℕ, (args.hasB = false → r ≤ c) ∧ (r : ℤ) * uint64 args.distributedTileSize < args.height ∧
      (c : ℤ) * uint64 args.distributedTileSize < args.width ∧
      ((Job.sized args id profileA profileB).makeTiles.tiles k).place =
        (k, r, c, min (uint64 args.distributedTileSize : ℤ) (args.height - r * uint64 args.distributedTileSize),
          min (uint64 args.distributedTileSize : ℤ) (args.width - c * uint64 args.distributedTileSize)) := by
  have hd := Nat.pos_of_ne_zero hsize
  have hheight := height_lt args
  have hwidth : args.width < 2 ^ 63 := int64_lt _
  obtain ⟨r, c, hmem, hplace⟩ := makeTiles_place hk
  obtain ⟨hr, hc, horder⟩ := mem_tileGrid.mp hmem
  have hrow : (r : ℤ) * uint64 args.distributedTileSize < args.height :=
    mul_lt_of_lt_ceilDiv hd (hr.trans_eq (blockCount_of_pos hd args.height))
  have hcol : (c : ℤ) * uint64 args.distributedTileSize < args.width :=
    mul_lt_of_lt_ceilDiv hd (hc.trans_eq (blockCount_of_pos hd args.width))
  have hrow0 : (0 : ℤ) ≤ r * uint64 args.distributedTileSize := by positivity
  have hcol0 : (0 : ℤ) ≤ c * uint64 args.distributedTileSize := by positivity
  refine ⟨r, c, horder, hrow, hcol, ?_⟩
  rw [← uint64_of_range (x := args.height - r * uint64 args.distributedTileSize) (by omega) (by omega),
    ← uint64_of_range (x := args.width - c * uint64 args.distributedTileSize) (by omega) (by omega)]
  exact hplace

omit [LinearOrder K] in
/-- A block of cells, and the tile that covers it. -/
theorem sized_covers {args : SCAMPProto.SCAMPArgs K} (id : ℤ) (profileA profileB : SCAMPProto.Profile K)
    (hsize : uint64 args.distributedTileSize ≠ 0) {i j : ℕ} (hi : (i : ℤ) < args.height)
    (hj : (j : ℤ) < args.width) (horder : args.hasB = false → i ≤ j) :
    ∃ k < (Job.sized args id profileA profileB).makeTiles.tileCounter,
      ((Job.sized args id profileA profileB).makeTiles.tiles k).Covers (uint64 args.distributedTileSize) i j := by
  have hd := Nat.pos_of_ne_zero hsize
  have hheight := height_lt args
  have hgrid : (i / uint64 args.distributedTileSize, j / uint64 args.distributedTileSize) ∈
      tileGrid (Job.sized args id profileA profileB).tileRows (Job.sized args id profileA profileB).tileCols
        (Job.sized args id profileA profileB).jobArgs.hasB := by
    rw [mem_tileGrid]
    refine ⟨?_, ?_, fun hself => Nat.div_le_div_right (horder hself)⟩
    · exact (div_lt_ceilDiv hd hi).trans_eq (blockCount_of_pos hd args.height).symm
    · exact (div_lt_ceilDiv hd hj).trans_eq (blockCount_of_pos hd args.width).symm
  obtain ⟨k, hk, hplace⟩ := makeTiles_tile hgrid
  obtain ⟨-, hrow, hcol, hh, hw⟩ : _ ∧ _ ∧ _ ∧ _ ∧ _ := by
    simpa only [DistributedTile.place, Prod.mk.injEq] using hplace
  refine ⟨k, hk, ⟨?_, ?_⟩, ?_, ?_⟩
  · rw [hrow]
    exact Nat.div_mul_le_self i _
  · rw [hrow, hh]
    exact lt_tile_end hd hi hheight
  · rw [hcol]
    exact Nat.div_mul_le_self j _
  · rw [hcol, hw]
    exact lt_tile_end hd hj (int64_lt _)

omit [LinearOrder K] in
/-- **No cell is in two tiles.** -/
theorem sized_covers_unique {args : SCAMPProto.SCAMPArgs K} {id : ℤ} {profileA profileB : SCAMPProto.Profile K}
    (hsize : uint64 args.distributedTileSize ≠ 0) {k k' i j : ℕ}
    (hk : k < (Job.sized args id profileA profileB).makeTiles.tileCounter)
    (hk' : k' < (Job.sized args id profileA profileB).makeTiles.tileCounter)
    (h : ((Job.sized args id profileA profileB).makeTiles.tiles k).Covers (uint64 args.distributedTileSize) i j)
    (h' : ((Job.sized args id profileA profileB).makeTiles.tiles k').Covers (uint64 args.distributedTileSize) i j) :
    k = k' := by
  have hd := Nat.pos_of_ne_zero hsize
  obtain ⟨grid, hgrid⟩ : ∃ grid, grid = tileGrid (Job.sized args id profileA profileB).tileRows
      (Job.sized args id profileA profileB).tileCols args.hasB := ⟨_, rfl⟩
  have hnodup : grid.Nodup := hgrid ▸ nodup_tileGrid _ _ _
  have hlength : (Job.sized args id profileA profileB).makeTiles.tileCounter = grid.length := hgrid ▸ rfl
  -- a cell determines the block of the grid it is in
  have hblock : ∀ k'', k'' < (Job.sized args id profileA profileB).makeTiles.tileCounter →
      ((Job.sized args id profileA profileB).makeTiles.tiles k'').Covers (uint64 args.distributedTileSize) i j →
      grid.getD k'' (0, 0) = (i / uint64 args.distributedTileSize, j / uint64 args.distributedTileSize) := by
    intro k'' hk'' hcovers
    subst hgrid
    obtain ⟨r, c, -, -, -, hplace⟩ := sized_place id profileA profileB hsize hk''
    obtain ⟨-, hrow, hcol, hh, hw⟩ : _ ∧ _ ∧ _ ∧ _ ∧ _ := by
      simpa only [DistributedTile.place, Prod.mk.injEq] using hplace
    obtain ⟨⟨hr, hr'⟩, hc, hc'⟩ := hcovers
    rw [hrow] at hr hr'
    rw [hcol] at hc hc'
    have hri : r = i / uint64 args.distributedTileSize := by
      rw [eq_comm, Nat.div_eq_iff hd]
      zify
      zify at hr
      omega
    have hcj : c = j / uint64 args.distributedTileSize := by
      rw [eq_comm, Nat.div_eq_iff hd]
      zify
      zify at hc
      omega
    rw [← hri, ← hcj]
    exact Prod.ext hrow hcol
  have heq := (hblock k hk h).trans (hblock k' hk' h').symm
  rw [hlength] at hk hk'
  rw [List.getD_eq_getElem?_getD, List.getD_eq_getElem?_getD, List.getElem?_eq_getElem hk,
    List.getElem?_eq_getElem hk'] at heq
  exact hnodup.getElem_inj_iff.mp heq

omit [LinearOrder K] in
theorem SameTiles.covers {job job' : Job K} (h : SameTiles job job') {id i j : ℕ}
    (hcovers : (job.tiles id).Covers job.distributedTileSize i j) :
    (job'.tiles id).Covers job'.distributedTileSize i j := by
  have hplace := h.place id
  simp only [DistributedTile.place, Prod.mk.injEq] at hplace
  obtain ⟨-, hrow, hcol, hheight, hwidth⟩ := hplace
  unfold DistributedTile.Covers
  rw [h.size, hrow, hcol, hheight, hwidth]
  exact hcovers

omit [LinearOrder K] in
/-- **The tiles cover the matrix**, in every state of the job. -/
theorem tile_covers {args : SCAMPProto.SCAMPArgs K} {id : ℤ} {profileA profileB : SCAMPProto.Profile K}
    {job : Job K} (hsize : uint64 args.distributedTileSize ≠ 0)
    (hsame : SameTiles (Job.sized args id profileA profileB).makeTiles job) {i j : ℕ}
    (hi : (i : ℤ) < args.height) (hj : (j : ℤ) < args.width) :
    ∃ k < job.tileCounter, (job.tiles k).Covers job.distributedTileSize i j ∨
      args.hasB = false ∧ (job.tiles k).Covers job.distributedTileSize j i := by
  by_cases horder : args.hasB = false → i ≤ j
  · obtain ⟨k, hk, hcell⟩ := sized_covers id profileA profileB hsize hi hj horder
    exact ⟨k, hsame.count ▸ hk, Or.inl (hsame.covers hcell)⟩
  · -- below the diagonal of a self-join
    push Not at horder
    obtain ⟨hself, hlt⟩ := horder
    have hheight : args.height = args.width := by
      unfold SCAMPProto.SCAMPArgs.height
      rw [if_neg (by simp [hself])]
    obtain ⟨k, hk, hcell⟩ := sized_covers (i := j) (j := i) id profileA profileB hsize (by omega) (by omega)
      fun _ => hlt.le
    exact ⟨k, hsame.count ▸ hk, Or.inr ⟨hself, hsame.covers hcell⟩⟩

end

end Scamp
