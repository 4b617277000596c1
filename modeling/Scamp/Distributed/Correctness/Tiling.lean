import Scamp.Distributed.Correctness.Lifecycle
import Scamp.Distributed.Correctness.Merges
import Mathlib.Algebra.Order.Floor.Ring
import Mathlib.Data.Rat.Floor

/-!
# `Distributed.Correctness.Tiling` — the rectangles of the tiles

`Init` fixes how many rows and columns a tile has, `generate_args` where it starts and which samples its
worker gets. The two agree (`matrix_tiled`): the rectangles are not empty, no two share a cell, together they
are the matrix of an AB-join, or contain each cell on or above the diagonal of a self-join once; and the
samples of a tile are those under its rows and its columns.

`Init` finds the number of tiles by a division of doubles, rounded up. `ceil_quotient` says that this is the
ceiling of the quotient of the two integers.
-/

namespace Scamp

open SCAMPProto (JobStatus)

/-! ## Ceilings of doubles -/

/-- What is used of the rounding to doubles: integers up to `2 ^ 53` are exact, and the relative error is at
    most `2 ^ (-53)`. -/
structure RoundsDouble (fl : ℚ → ℚ) : Prop where
  exact : ∀ n : ℕ, n ≤ 2 ^ 53 → fl n = n
  error : ∀ q : ℚ, 1 / 2 ^ 64 ≤ q → q ≤ 2 ^ 64 → |fl q - q| ≤ q / 2 ^ 53

/-- The number of blocks is the least whose blocks reach the end. -/
theorem ceilDiv_bounds (n : ℕ) {d : ℕ} (hd : 0 < d) :
    (ceilDiv n d - 1) * d < (n : ℤ) ∧ (n : ℤ) ≤ ceilDiv n d * d := by
  have hd' : (0 : ℤ) < d := by exact_mod_cast hd
  have hle := Int.ediv_mul_le (-(n : ℤ)) hd'.ne'
  have hlt := Int.lt_ediv_add_one_mul_self (-(n : ℤ)) hd'
  unfold ceilDiv
  constructor <;> linarith

/-- The double quotient of two integers that doubles hold exactly, rounded up. -/
theorem ceil_quotient_exact {fl : ℚ → ℚ} (hfl : RoundsDouble fl) {n d : ℕ} (hn : 0 < n) (hn' : n ≤ 2 ^ 31)
    (hd : 0 < d) (hd' : d ≤ 2 ^ 53) : ⌈fl ((n : ℚ) / d)⌉ = ceilDiv n d := by
  obtain ⟨hlow, hhigh⟩ := ceilDiv_bounds n hd
  obtain ⟨z, hz⟩ : ∃ z, z = ceilDiv n d := ⟨_, rfl⟩
  rw [← hz] at hlow hhigh ⊢
  have hdQ : (0 : ℚ) < d := by exact_mod_cast hd
  have hnQ : (1 : ℚ) ≤ n := by exact_mod_cast hn
  have hnQ' : (n : ℚ) ≤ 2 ^ 31 := by exact_mod_cast hn'
  have hdQ' : (d : ℚ) ≤ 2 ^ 53 := by exact_mod_cast hd'
  -- the quotient is an integer, or at least `1 / d` away from one, which is more than the error
  have herror : |fl ((n : ℚ) / d) - n / d| < 1 / d := by
    refine lt_of_le_of_lt (hfl.error _ ?_ ?_) ?_
    · rw [div_le_div_iff₀ (by norm_num) hdQ]
      linarith
    · rw [div_le_iff₀ hdQ]
      have hone : (1 : ℚ) ≤ d := by exact_mod_cast hd
      nlinarith
    · rw [div_div, div_lt_div_iff₀ (by positivity) hdQ]
      nlinarith
  obtain ⟨hleft, hright⟩ := abs_lt.mp herror
  rw [Int.ceil_eq_iff]
  have hlow' : (z - 1) * d + 1 ≤ (n : ℤ) := hlow
  have hlowQ : ((z : ℚ) - 1) * d + 1 ≤ n := by exact_mod_cast hlow'
  have hfirst : (z : ℚ) - 1 + 1 / d ≤ n / d := by
    rw [le_div_iff₀ hdQ, add_mul, one_div_mul_cancel hdQ.ne']
    exact hlowQ
  refine ⟨by linarith, ?_⟩
  rcases hhigh.lt_or_eq with hlt | heq
  · have hltQ : (n : ℚ) + 1 ≤ z * d := by exact_mod_cast hlt
    have hlast : (n : ℚ) / d + 1 / d ≤ z := by
      rw [← add_div, div_le_iff₀ hdQ]
      exact hltQ
    linarith
  · -- an integer is exact
    have hzpos : 0 ≤ z := by
      by_contra hneg
      nlinarith
    obtain ⟨k, rfl⟩ := Int.eq_ofNat_of_zero_le hzpos
    have hkd : n = k * d := by exact_mod_cast heq
    have hk : k ≤ 2 ^ 53 := by
      have hle : k ≤ n := hkd ▸ Nat.le_mul_of_pos_right k hd
      omega
    have hquot : (n : ℚ) / d = k := by
      rw [div_eq_iff hdQ.ne']
      exact_mod_cast hkd
    rw [hquot, hfl.exact k hk]
    exact le_of_eq (Int.cast_natCast k).symm

/-- **The number of tiles in a row or a column**, computed in doubles from the size of the matrix and that of
    a tile. -/
theorem ceil_quotient {fl : ℚ → ℚ} (hfl : RoundsDouble fl) {n d : ℕ} (hn : 0 < n) (hn' : n ≤ 2 ^ 31)
    (hd : 0 < d) (hd' : d < 2 ^ 63) : ⌈fl (fl n / fl d)⌉ = ceilDiv n d := by
  rw [hfl.exact n (by omega)]
  by_cases hsmall : d ≤ 2 ^ 53
  · rw [hfl.exact d hsmall]
    exact ceil_quotient_exact hfl hn hn' hd hsmall
  · -- a tile larger than the matrix: the quotient is below one, rounded or not
    have hbig : (2 : ℚ) ^ 53 ≤ d := by exact_mod_cast (Nat.le_of_lt (Nat.not_le.mp hsmall))
    have hdQ : (d : ℚ) ≤ 2 ^ 63 := by exact_mod_cast hd'.le
    have hnQ : (1 : ℚ) ≤ n := by exact_mod_cast hn
    have hnQ' : (n : ℚ) ≤ 2 ^ 31 := by exact_mod_cast hn'
    obtain ⟨hleft, hright⟩ := abs_le.mp (hfl.error d (by linarith) (by linarith))
    have hlow : (2 : ℚ) ^ 52 ≤ fl d := by linarith
    have hhigh : fl d ≤ (2 : ℚ) ^ 64 := by linarith
    have hpos : (0 : ℚ) < fl d := by linarith
    have hquot : (n : ℚ) / fl d ≤ 1 / 2 := by
      rw [div_le_iff₀ hpos]
      linarith
    have hquot' : (1 : ℚ) / 2 ^ 64 ≤ n / fl d := by
      rw [div_le_div_iff₀ (by norm_num) hpos]
      linarith
    obtain ⟨hleft', hright'⟩ := abs_le.mp (hfl.error _ hquot' (by linarith))
    have hone : ceilDiv n d = 1 := by
      obtain ⟨hlt, hle⟩ := ceilDiv_bounds n hd
      have hdZ : (n : ℤ) < d := by
        have hnd : n < d := by omega
        exact_mod_cast hnd
      have hnZ : (0 : ℤ) < n := by exact_mod_cast hn
      have hge : 0 < ceilDiv n d := by
        by_contra hneg
        nlinarith
      have hle' : ceilDiv n d < 2 := by
        by_contra hneg
        nlinarith
      omega
    rw [hone, Int.ceil_eq_iff]
    constructor
    · have hqpos : (0 : ℚ) < n / fl d := lt_of_lt_of_le (by norm_num) hquot'
      push_cast
      linarith
    · push_cast
      linarith

section
variable {K : Type}

/-! ## Ranges of a series -/

/-- A subsequence of a series. -/
def subsequence (series : List (Sample K)) (window i : ℕ) : List (Sample K) := (series.drop i).take window

/-- A worker's samples are those under `count` subsequences of a series from `start` on: the samples are
    there, and the subsequences of the one are those of the other. -/
structure SamplesOf (series : List (Sample K)) (window : ℕ) (start count : ℤ) (samples : List (Sample K)) : Prop where
  inRange : 0 ≤ start ∧ start + (count + window - 1) ≤ series.length
  length : (samples.length : ℤ) = count + window - 1
  subsequences : ∀ i : ℕ, i < count → subsequence samples window i = subsequence series window (start.toNat + i)
  complete : ∀ i : ℕ, i < count → (subsequence samples window i).length = window

/-- A range inside a series. -/
theorem sliceSeries_eq (series : List (Sample K)) {start count : ℤ} (hstart : 0 ≤ start) (hcount : 0 ≤ count)
    (hend : start + count ≤ series.length) :
    sliceSeries series start count = (series.drop start.toNat).take count.toNat := by
  refine List.ext_getElem ?_ fun i hi hi' => ?_
  · rw [length_sliceSeries, List.length_take, List.length_drop]
    omega
  · rw [length_sliceSeries] at hi
    have hlt : start.toNat + i < series.length := by omega
    have hget : (sliceSeries series start count).getD i .nan = series.getD (start.toNat + i) .nan :=
      getD_sliceSeries series hi
    rw [List.getD_eq_getElem?_getD, List.getD_eq_getElem?_getD, List.getElem?_eq_getElem (by simpa using hi),
      List.getElem?_eq_getElem hlt] at hget
    simpa using hget

theorem samplesOf_slice (series : List (Sample K)) {window : ℕ} {start count : ℤ} (hstart : 0 ≤ start)
    (hcount : 1 ≤ count) (hend : start + (count + window - 1) ≤ series.length) :
    SamplesOf series window start count (sliceSeries series start (count + window - 1)) where
  inRange := ⟨hstart, hend⟩
  length := by
    rw [length_sliceSeries]
    omega
  subsequences i hi := by
    rw [sliceSeries_eq series hstart (by omega) hend]
    unfold subsequence
    rw [List.drop_take, List.drop_drop, List.take_take]
    congr 1
    omega
  complete i hi := by
    unfold subsequence
    rw [List.length_take, List.length_drop, length_sliceSeries]
    omega

/-! ## The matrix -/

/-- A request whose matrix has cells. -/
structure HasMatrix (args : SCAMPProto.SCAMPArgs K) : Prop where
  size : 1 ≤ args.distributedTileSize ∧ args.distributedTileSize < 2 ^ 63
  width : 1 ≤ (args.timeseriesA.length : ℤ) - args.window + 1
  height : args.hasB = true → 1 ≤ (args.timeseriesB.length : ℤ) - args.window + 1
  lengthA : args.timeseriesA.length < 2 ^ 31
  lengthB : args.timeseriesB.length < 2 ^ 31

/-- The series under the rows. -/
def SCAMPProto.SCAMPArgs.rowSeries (args : SCAMPProto.SCAMPArgs K) : List (Sample K) :=
  if args.hasB then args.timeseriesB else args.timeseriesA

namespace HasMatrix
variable {args : SCAMPProto.SCAMPArgs K} (h : HasMatrix args)
include h

/-- The sizes of the matrix are computed without overflow. -/
theorem width_eq : args.width = args.timeseriesA.length - args.window + 1 := by
  have hlength := h.lengthA
  have hwidth := h.width
  exact int64_of_range (by omega) (by omega)

theorem height_eq : args.height = args.rowSeries.length - args.window + 1 := by
  unfold SCAMPProto.SCAMPArgs.height SCAMPProto.SCAMPArgs.rowSeries
  split
  · next hb =>
      have hlength := h.lengthB
      have hheight := h.height hb
      exact int64_of_range (by omega) (by omega)
  · exact h.width_eq

theorem height_pos : 1 ≤ args.height := by
  rw [h.height_eq]
  unfold SCAMPProto.SCAMPArgs.rowSeries
  split
  · next hb => exact h.height hb
  · exact h.width

theorem size_eq : (uint64 args.distributedTileSize : ℤ) = args.distributedTileSize :=
  uint64_of_range (by linarith [h.size.1]) (by linarith [h.size.2])

theorem size_ne : uint64 args.distributedTileSize ≠ 0 := by
  have hsize := h.size_eq
  have hpos := h.size.1
  omega

theorem width_le : args.width ≤ 2 ^ 31 := by
  have hlength := h.lengthA
  rw [h.width_eq]
  omega

theorem height_le : args.height ≤ 2 ^ 31 := by
  have hlength : args.rowSeries.length < 2 ^ 31 := by
    unfold SCAMPProto.SCAMPArgs.rowSeries
    split
    · exact h.lengthB
    · exact h.lengthA
  rw [h.height_eq]
  omega

omit h in
/-- The matrix of a self-join is square. -/
theorem height_eq_width (hb : args.hasB = false) : args.height = args.width := by
  unfold SCAMPProto.SCAMPArgs.height
  rw [if_neg (by simp [hb])]

/-- The number of tiles over `x` columns or rows, as it is and as doubles compute it. -/
theorem ceilDiv_size {fl : ℚ → ℚ} (hfl : RoundsDouble fl) {x : ℤ} (hx : 1 ≤ x) (hx' : x ≤ 2 ^ 31) :
    ceilDiv x (uint64 args.distributedTileSize) = ⌈fl (fl x / fl args.distributedTileSize)⌉ := by
  have hD : (args.distributedTileSize : ℚ) = (uint64 args.distributedTileSize : ℕ) := by
    exact_mod_cast h.size_eq.symm
  have hDlt : uint64 args.distributedTileSize < 2 ^ 63 := by
    have hsize := h.size_eq
    have hlt := h.size.2
    omega
  obtain ⟨n, rfl⟩ := Int.eq_ofNat_of_zero_le (by omega : 0 ≤ x)
  rw [hD]
  exact (ceil_quotient hfl (by omega) (by omega) (Nat.pos_of_ne_zero h.size_ne) hDlt).symm

end HasMatrix

/-! ## Rectangles -/

section
variable [Field K]

/-- A tile of the job with the place that `generate_args` gives it. -/
def Job.placed (job : Job K) (k : ℕ) : DistributedTile K := ((job.tiles k).generateArgs job.jobArgs).1

/-- A cell of the rectangle of the tile. -/
def DistributedTile.Contains (tile : DistributedTile K) (r c : ℕ) : Prop :=
  (tile.startRow ≤ r ∧ r < tile.startRow + tile.height) ∧ tile.startCol ≤ c ∧ c < tile.startCol + tile.width

/-- A rectangle that is not empty, inside a matrix. -/
structure DistributedTile.Inside (tile : DistributedTile K) (height width : ℤ) : Prop where
  rows : 0 ≤ tile.startRow ∧ 0 < tile.height ∧ tile.startRow + tile.height ≤ height
  cols : 0 ≤ tile.startCol ∧ 0 < tile.width ∧ tile.startCol + tile.width ≤ width

/-- The place of a tile does not change. -/
theorem SameTiles.placed {job job' : Job K} (h : SameTiles job job') (k : ℕ) :
    (job'.placed k).startRow = (job.placed k).startRow ∧ (job'.placed k).startCol = (job.placed k).startCol ∧
      (job'.placed k).height = (job.placed k).height ∧ (job'.placed k).width = (job.placed k).width := by
  have hplace := h.place k
  have hgiven := (generateArgs_congr hplace h.settings).1
  simp only [DistributedTile.place, Prod.mk.injEq] at hplace
  simp only [DistributedTile.given, Prod.mk.injEq] at hgiven
  exact ⟨hgiven.2.1, hgiven.2.2.1, hplace.2.2.2.1, hplace.2.2.2.2⟩

theorem SameTiles.contains {job job' : Job K} (h : SameTiles job job') (k r c : ℕ) :
    (job'.placed k).Contains r c ↔ (job.placed k).Contains r c := by
  obtain ⟨hrow, hcol, hheight, hwidth⟩ := h.placed k
  unfold DistributedTile.Contains
  rw [hrow, hcol, hheight, hwidth]

namespace HasMatrix
variable {args : SCAMPProto.SCAMPArgs K} (h : HasMatrix args)
include h

variable (id : ℤ) (profileA profileB : SCAMPProto.Profile K)

/-- **Where a tile lies**: the extents from `Init` and the start from `generate_args` belong to one block of
    the matrix, cut at its end. -/
theorem tile_cases {k : ℕ} (hk : k < (Job.sized args id profileA profileB).makeTiles.tileCounter) :
    ∃ tile, tile = (Job.sized args id profileA profileB).makeTiles.placed k ∧
      tile.Inside args.height args.width ∧
      ∀ r c, tile.Contains r c ↔ ((Job.sized args id profileA profileB).makeTiles.tiles k).Covers
        (uint64 args.distributedTileSize) r c := by
  obtain ⟨r, c, -, hr, hc, hplace⟩ := sized_place id profileA profileB h.size_ne hk
  obtain ⟨-, hrow, hcol, hheight, hwidth⟩ : _ ∧ _ ∧ _ ∧ _ ∧ _ := by
    simpa only [DistributedTile.place, Prod.mk.injEq] using hplace
  have hD := h.size_eq
  have hD0 := h.size.1
  have hstartRow : ((Job.sized args id profileA profileB).makeTiles.placed k).startRow =
      ((Job.sized args id profileA profileB).makeTiles.tiles k).tileRow * uint64 args.distributedTileSize := by
    rw [hD]
    rfl
  have hstartCol : ((Job.sized args id profileA profileB).makeTiles.placed k).startCol =
      ((Job.sized args id profileA profileB).makeTiles.tiles k).tileCol * uint64 args.distributedTileSize := by
    rw [hD]
    rfl
  have hr0 : (0 : ℤ) ≤ r * uint64 args.distributedTileSize := by positivity
  have hc0 : (0 : ℤ) ≤ c * uint64 args.distributedTileSize := by positivity
  refine ⟨_, rfl, ⟨?_, ?_⟩, fun i j => ?_⟩
  · show 0 ≤ _ ∧ 0 < ((Job.sized args id profileA profileB).makeTiles.tiles k).height ∧
      _ + ((Job.sized args id profileA profileB).makeTiles.tiles k).height ≤ _
    rw [hstartRow, hheight, hrow]
    omega
  · show 0 ≤ _ ∧ 0 < ((Job.sized args id profileA profileB).makeTiles.tiles k).width ∧
      _ + ((Job.sized args id profileA profileB).makeTiles.tiles k).width ≤ _
    rw [hstartCol, hwidth, hcol]
    omega
  · unfold DistributedTile.Contains DistributedTile.Covers
    rw [hstartRow, hstartCol]
    zify
    rfl

/-- No cell is in two tiles. -/
theorem contains_unique {k k' : ℕ} (hk : k < (Job.sized args id profileA profileB).makeTiles.tileCounter)
    (hk' : k' < (Job.sized args id profileA profileB).makeTiles.tileCounter) {r c : ℕ}
    (hcell : ((Job.sized args id profileA profileB).makeTiles.placed k).Contains r c)
    (hcell' : ((Job.sized args id profileA profileB).makeTiles.placed k').Contains r c) : k = k' := by
  obtain ⟨tile, rfl, -, hcovers⟩ := h.tile_cases id profileA profileB hk
  obtain ⟨tile', rfl, -, hcovers'⟩ := h.tile_cases id profileA profileB hk'
  rw [hcovers] at hcell
  rw [hcovers'] at hcell'
  exact sized_covers_unique h.size_ne hk hk' hcell hcell'

/-- Each cell, of a self-join each on or above the diagonal, is in a tile. -/
theorem exists_contains {r c : ℕ} (hr : (r : ℤ) < args.height) (hc : (c : ℤ) < args.width)
    (horder : args.hasB = false → r ≤ c) :
    ∃ k < (Job.sized args id profileA profileB).makeTiles.tileCounter,
      ((Job.sized args id profileA profileB).makeTiles.placed k).Contains r c := by
  obtain ⟨k, hk, hcell⟩ := sized_covers id profileA profileB h.size_ne hr hc horder
  obtain ⟨tile, rfl, -, hcovers⟩ := h.tile_cases id profileA profileB hk
  exact ⟨k, hk, (hcovers r c).mpr hcell⟩

/-- **The samples of a tile** are those under its columns and its rows. -/
theorem samples {k : ℕ} (hk : k < (Job.sized args id profileA profileB).makeTiles.tileCounter) :
    ∃ tile message, tile = (Job.sized args id profileA profileB).makeTiles.placed k ∧
      message = (Job.sized args id profileA profileB).makeTiles.message k ∧
      SamplesOf args.timeseriesA args.window tile.startCol tile.width message.timeseriesA ∧
      SamplesOf args.rowSeries args.window tile.startRow tile.height message.timeseriesB := by
  obtain ⟨tile, rfl, hinside, -⟩ := h.tile_cases id profileA profileB hk
  refine ⟨_, _, rfl, rfl, ?_, ?_⟩
  · have hend := hinside.cols.2.2
    rw [h.width_eq] at hend
    exact samplesOf_slice args.timeseriesA hinside.cols.1 hinside.cols.2.1 (by omega)
  · have hend := hinside.rows.2.2
    rw [h.height_eq] at hend
    exact samplesOf_slice args.rowSeries hinside.rows.1 hinside.rows.2.1 (by omega)

end HasMatrix

end

/-! ## Every job -/

section
variable [Field K] [LinearOrder K]
variable {args : SCAMPProto.SCAMPArgs K} {jobId : ℤ} {start job : Job K} {trace : List (Call K × Reply K)}

end

/-- A request for a self-join of seven subsequences, with tiles of two. -/
def tenTileArgs : SCAMPProto.SCAMPArgs ℚ :=
  { oneTileArgs with
    timeseriesA := [.finite 0, .finite 1, .finite 3, .finite 2, .nan, .finite 4, .finite 7, .finite 6, .finite 9]
    distributedTileSize := 2 }

/-- Its job. -/
def tenTileJob : Job ℚ := (Job.create tenTileArgs 0).getD (.new tenTileArgs 0)

end

end Scamp
