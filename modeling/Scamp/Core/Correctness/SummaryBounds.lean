import Scamp.Core.Correctness.TileMemory
import Scamp.Core.Correctness.Workers

/-!
# `Core.Correctness.SummaryBounds` — the entries of a summary that `update_mp` writes

A cell `(r, c)` of the distance matrix belongs to the entry
`(r * height / rows) * width + c * width / columns` of the summary, for dimensions of either sign
(`updateMpIndex_pass`). `validate` lets through any dimension that is not positive: with a zero the array is
empty and the first update is outside it, and with two negative ones the entries are counted backwards from
the first. With positive dimensions every entry is inside the array, and only the `int`s it is computed in
can be too small for it. `summaryInBounds_iff` puts these together.
-/

namespace Scamp

open Lib

/-! ## The entry of a cell -/

/-- The entry of a summary of `height * width` entries that cell `(r, c)` of a matrix of `nB` rows and `nA`
    columns belongs to. -/
def summaryEntry (height width : ℤ) (nA nB : ℕ) (z : ℕ × ℕ) : ℤ :=
  z.1 * height / nB * width + z.2 * width / nA

/-- The entry as `update_mp` computes it. -/
def summaryEntryInt (height width : ℤ) (nA nB : ℕ) (z : ℕ × ℕ) : Option ℤ := do
  let matrixWidth ← toInt32 width
  let colIdx ← toInt32 (z.2 * width / nA)
  let rowIdx ← toInt32 (z.1 * height / nB)
  toInt32 ((← toInt32 (rowIdx * matrixWidth)) + colIdx)

/-- The floor of a position over the size of a part, for a number of parts of either sign. -/
theorem floor_div_size {n : ℕ} (k : ℤ) (i : ℕ) : ⌊(i : ℚ) / ((n : ℚ) / k)⌋ = i * k / n := by
  rw [div_div_eq_mul_div]
  have := Rat.floor_intCast_div_natCast (i * k) n
  push_cast at this ⊢
  exact this

section
variable {height width : ℤ} {nA nB : ℕ} {z : ℕ × ℕ}

theorem summaryEntryInt_eq_some {i : ℤ} :
    summaryEntryInt height width nA nB z = some i ↔ (-2 ^ 31 ≤ width ∧ width < 2 ^ 31) ∧
      (-2 ^ 31 ≤ z.2 * width / (nA : ℤ) ∧ z.2 * width / (nA : ℤ) < 2 ^ 31) ∧
      (-2 ^ 31 ≤ z.1 * height / (nB : ℤ) ∧ z.1 * height / (nB : ℤ) < 2 ^ 31) ∧
      (-2 ^ 31 ≤ z.1 * height / (nB : ℤ) * width ∧ z.1 * height / (nB : ℤ) * width < 2 ^ 31) ∧
      (-2 ^ 31 ≤ summaryEntry height width nA nB z ∧ summaryEntry height width nA nB z < 2 ^ 31) ∧
      summaryEntry height width nA nB z = i := by
  constructor
  · intro h
    obtain ⟨_, hw, h⟩ := Option.bind_eq_some_iff.mp h
    obtain ⟨_, hc, h⟩ := Option.bind_eq_some_iff.mp h
    obtain ⟨_, hr, h⟩ := Option.bind_eq_some_iff.mp h
    obtain ⟨_, hp, h⟩ := Option.bind_eq_some_iff.mp h
    obtain ⟨hwidth, rfl⟩ := toInt32_eq_some.mp hw
    obtain ⟨hcol, rfl⟩ := toInt32_eq_some.mp hc
    obtain ⟨hrow, rfl⟩ := toInt32_eq_some.mp hr
    obtain ⟨hprod, rfl⟩ := toInt32_eq_some.mp hp
    exact ⟨hwidth, hcol, hrow, hprod, toInt32_eq_some.mp h⟩
  · rintro ⟨hw, hc, hr, hp, hi⟩
    exact bind_some (toInt32_eq_some.mpr ⟨hw, rfl⟩) (bind_some (toInt32_eq_some.mpr ⟨hc, rfl⟩)
      (bind_some (toInt32_eq_some.mpr ⟨hr, rfl⟩) (bind_some (toInt32_eq_some.mpr ⟨hp, rfl⟩)
        (toInt32_eq_some.mpr hi))))

/-- The part of a position, of `n` positions in `k` parts. -/
theorem part_lt {k : ℤ} {n i : ℕ} (hk : 1 ≤ k) (hi : i < n) : 0 ≤ i * k / n ∧ i * k / (n : ℤ) < k := by
  have hn : (0 : ℤ) < n := by omega
  constructor
  · exact Int.ediv_nonneg (mul_nonneg (Int.natCast_nonneg i) (by omega)) hn.le
  · rw [Int.ediv_lt_iff_lt_mul hn, mul_comm k]
    exact mul_lt_mul_of_pos_right (by exact_mod_cast hi) (by omega)

/-- With a negative number of parts they are counted down, from `0` for the first position only. -/
theorem part_neg {k : ℤ} {n i : ℕ} (hk : k ≤ -1) (hi : i < n) :
    k ≤ i * k / n ∧ i * k / (n : ℤ) ≤ 0 ∧ (0 ≤ i * k / (n : ℤ) → i = 0) ∧ (i = 0 → i * k / (n : ℤ) = 0) := by
  have hn : (0 : ℤ) < n := by omega
  refine ⟨?_, ?_, ?_, ?_⟩
  · rw [Int.le_ediv_iff_mul_le hn, mul_comm k]
    exact mul_le_mul_of_nonpos_right (by exact_mod_cast hi.le) (by omega)
  · have : (i : ℤ) * k / n < 0 + 1 := by
      rw [Int.ediv_lt_iff_lt_mul hn]
      have := mul_nonpos_of_nonneg_of_nonpos (Int.natCast_nonneg i) (by omega : k ≤ 0)
      omega
    omega
  · intro h
    rw [Int.le_ediv_iff_mul_le hn, zero_mul] at h
    by_contra hne
    have := mul_neg_of_pos_of_neg (by omega : (0 : ℤ) < i) (by omega : k < 0)
    omega
  · rintro rfl
    simp

/-- The entry of a cell fits an `int`, for positive dimensions. -/
def PositiveFits (height width : ℤ) (nA nB : ℕ) (z : ℕ × ℕ) : Prop :=
  summaryEntry height width nA nB z < 2 ^ 31

/-- The entry of a cell is inside the array for negative dimensions: in the first row of the matrix only the
    first column is, in the first column the rows of the last part are not. -/
def NegativeFits (height width : ℤ) (nB : ℕ) (z : ℕ × ℕ) : Prop :=
  (z.1 = 0 → z.2 = 0) ∧ (z.2 = 0 → (height + 1) * nB ≤ z.1 * height) ∧
    z.1 * height / nB * width < 2 ^ 31

/-- Positive dimensions: every entry is inside the array. -/
theorem entry_inside_pos (hh : 1 ≤ height) (hw : 1 ≤ width) (hr : z.1 < nB) (hc : z.2 < nA) :
    (∃ i, summaryEntryInt height width nA nB z = some i ∧ 0 ≤ i ∧ i < height * width) ↔
      width < 2 ^ 31 ∧ PositiveFits height width nA nB z := by
  obtain ⟨hq0, hqh⟩ := part_lt hh hr
  obtain ⟨hp0, hpw⟩ := part_lt hw hc
  have hprod : 0 ≤ z.1 * height / nB * width := mul_nonneg hq0 (by omega)
  have hle : z.1 * height / nB ≤ z.1 * height / nB * width := le_mul_of_one_le_right hq0 hw
  have hlast : z.1 * height / nB * width ≤ (height - 1) * width :=
    mul_le_mul_of_nonneg_right (by omega) (by omega)
  have hsub : (height - 1) * width = height * width - width := by ring
  unfold PositiveFits
  constructor
  · rintro ⟨i, hi, -⟩
    obtain ⟨hwidth, -, -, -, hfit, -⟩ := summaryEntryInt_eq_some.mp hi
    exact ⟨hwidth.2, hfit.2⟩
  · rintro ⟨hwidth, hfit⟩
    unfold summaryEntry at hfit
    refine ⟨_, summaryEntryInt_eq_some.mpr ⟨by omega, by omega, by omega, by omega, ?_, rfl⟩, ?_, ?_⟩ <;>
      unfold summaryEntry <;> omega

/-- Negative dimensions. -/
theorem entry_inside_neg (hh : height ≤ -1) (hw : width ≤ -1) (hr : z.1 < nB) (hc : z.2 < nA) :
    (∃ i, summaryEntryInt height width nA nB z = some i ∧ 0 ≤ i ∧ i < height * width) ↔
      -2 ^ 31 ≤ width ∧ NegativeFits height width nB z := by
  obtain ⟨hqh, hq0, hqz, hzq⟩ := part_neg hh hr
  obtain ⟨hpw, hp0, hpz, hzp⟩ := part_neg hw hc
  have hn : (0 : ℤ) < nB := by omega
  -- the row part is not the last one
  have hpart : (height + 1) * nB ≤ z.1 * height ↔ height + 1 ≤ z.1 * height / nB :=
    (Int.le_ediv_iff_mul_le hn).symm
  have hprod : 0 ≤ z.1 * height / nB * width := mul_nonneg_of_nonpos_of_nonpos hq0 (by omega)
  have hle : -(z.1 * height / nB) ≤ z.1 * height / nB * width := by
    have := mul_le_mul_of_nonpos_left hw hq0
    omega
  have hlast : z.1 * height / nB * width ≤ height * width := mul_le_mul_of_nonpos_right hqh (by omega)
  unfold NegativeFits
  constructor
  · rintro ⟨i, hi, hi0, hilt⟩
    obtain ⟨hwidth, -, -, hp, -, rfl⟩ := summaryEntryInt_eq_some.mp hi
    unfold summaryEntry at hi0 hilt
    refine ⟨hwidth.1, fun hz => hpz ?_, fun hz => ?_, hp.2⟩
    · rw [hzq hz, zero_mul, zero_add] at hi0
      exact hi0
    · rw [hzp hz, add_zero] at hilt
      rw [hpart]
      by_contra hlt
      have : z.1 * height / nB = height := by omega
      rw [this] at hilt
      omega
  · rintro ⟨hwidth, hrow, hcol, hfit⟩
    rw [hpart] at hcol
    have hge : z.1 ≠ 0 → -width ≤ z.1 * height / nB * width := by
      intro hz
      have hq : z.1 * height / nB ≤ -1 := by
        by_contra hlt
        exact hz (hqz (by omega))
      have := mul_le_mul_of_nonpos_right hq (by omega : width ≤ 0)
      omega
    have hless : z.2 = 0 → z.1 * height / nB * width ≤ (height + 1) * width :=
      fun hz => mul_le_mul_of_nonpos_right (hcol hz) (by omega)
    have hadd : (height + 1) * width = height * width + width := by ring
    have hentry : 0 ≤ summaryEntry height width nA nB z ∧
        summaryEntry height width nA nB z < height * width := by
      unfold summaryEntry
      constructor
      · by_cases hz : z.1 = 0
        · rw [hzq hz, hzp (hrow hz)]
          omega
        · have := hge hz
          omega
      · by_cases hz : z.2 = 0
        · have := hless hz
          omega
        · have : z.2 * width / (nA : ℤ) ≤ -1 := by
            by_contra hlt
            exact hz (hpz (by omega))
          omega
    refine ⟨_, summaryEntryInt_eq_some.mpr ⟨by omega, by omega, by omega, by omega, ?_, rfl⟩, hentry⟩
    refine ⟨by omega, ?_⟩
    unfold summaryEntry
    omega

/-- **The entry of a cell** is inside the array, and in the `int`s, for dimensions of the same sign only. -/
theorem entry_inside_iff (hr : z.1 < nB) (hc : z.2 < nA) :
    (∃ length, toInt64 (height * width) = some length ∧
      ∃ i, summaryEntryInt height width nA nB z = some i ∧ 0 ≤ i ∧ i < length) ↔
      height * width < 2 ^ 63 ∧
        (1 ≤ height ∧ 1 ≤ width ∧ width < 2 ^ 31 ∧ PositiveFits height width nA nB z ∨
          height ≤ -1 ∧ width ≤ -1 ∧ -2 ^ 31 ≤ width ∧ NegativeFits height width nB z) := by
  constructor
  · rintro ⟨length, hlength, i, hi, hi0, hilt⟩
    obtain ⟨hfits, rfl⟩ := toInt64_eq_some.mp hlength
    refine ⟨hfits.2, ?_⟩
    rcases pos_and_pos_or_neg_and_neg_of_mul_pos (by omega : 0 < height * width) with ⟨hh, hw⟩ | ⟨hh, hw⟩
    · exact Or.inl ⟨by omega, by omega, (entry_inside_pos hh hw hr hc).mp ⟨i, hi, hi0, hilt⟩⟩
    · have hh' : height ≤ -1 := by omega
      have hw' : width ≤ -1 := by omega
      exact Or.inr ⟨hh', hw', (entry_inside_neg hh' hw' hr hc).mp ⟨i, hi, hi0, hilt⟩⟩
  · rintro ⟨hlt, ⟨hh, hw, hfits⟩ | ⟨hh, hw, hfits⟩⟩
    · have := mul_pos (by omega : 0 < height) (by omega : 0 < width)
      exact ⟨_, toInt64_eq_some.mpr ⟨by omega, rfl⟩, (entry_inside_pos hh hw hr hc).mpr hfits⟩
    · have := mul_pos_of_neg_of_neg (by omega : height < 0) (by omega : width < 0)
      exact ⟨_, toInt64_eq_some.mpr ⟨by omega, rfl⟩, (entry_inside_neg hh hw hr hc).mpr hfits⟩

end

section
variable {K : Type} {args : SCAMPArgs K} {n : ℕ}

/-- **The entry of an update**, in the column-wise pass and in the row-wise one over the transposed tile. -/
theorem updateMpIndex_pass (htype : args.profileType = .matrixSummary) (transpose abJoin : Bool)
    {t : TilePos} {tile : Tile K} (hdims : tile.dims = tileDims (OpInfo.ofArgs args n) t) (z : ℕ × ℕ) :
    updateMpIndex (tile.kernelArgs (OpInfo.ofArgs args n) transpose abJoin) transpose z =
      summaryEntryInt args.matrixHeight args.matrixWidth (OpInfo.ofArgs args n).numCols
        (OpInfo.ofArgs args n).numRows (globalCell (tileDims (OpInfo.ofArgs args n) t) transpose z) := by
  have hcols : (OpInfo.ofArgs args n).colsPerCell =
      ((OpInfo.ofArgs args n).numCols : ℚ) / args.matrixWidth := if_pos htype
  have hrows : (OpInfo.ofArgs args n).rowsPerCell =
      ((OpInfo.ofArgs args n).numRows : ℚ) / args.matrixHeight := if_pos htype
  have hcol : ∀ x, ⌊((x + tile.dims.col : ℕ) : ℚ) / (OpInfo.ofArgs args n).colsPerCell⌋ =
      ((tile.dims.col + x : ℕ) : ℤ) * args.matrixWidth / (OpInfo.ofArgs args n).numCols := by
    intro x
    rw [hcols, floor_div_size, Nat.add_comm]
  have hrow : ∀ x, ⌊((x + tile.dims.row : ℕ) : ℚ) / (OpInfo.ofArgs args n).rowsPerCell⌋ =
      ((tile.dims.row + x : ℕ) : ℤ) * args.matrixHeight / (OpInfo.ofArgs args n).numRows := by
    intro x
    rw [hrows, floor_div_size, Nat.add_comm]
  rw [← hdims]
  cases transpose with
  | false =>
      show (toInt32 args.matrixWidth).bind _ = (toInt32 args.matrixWidth).bind _
      congr 1
      funext w
      exact congrArg₂ (fun c r => (toInt32 c).bind fun colIdx => (toInt32 r).bind fun rowIdx =>
        (toInt32 (rowIdx * w)).bind fun p => toInt32 (p + colIdx)) (hcol z.2) (hrow z.1)
  | true =>
      show (toInt32 args.matrixWidth).bind _ = (toInt32 args.matrixWidth).bind _
      congr 1
      funext w
      exact congrArg₂ (fun c r => (toInt32 c).bind fun colIdx => (toInt32 r).bind fun rowIdx =>
        (toInt32 (rowIdx * w)).bind fun p => toInt32 (p + colIdx)) (hcol z.1) (hrow z.2)

/-! ## All updates of an operation -/

/-- `resize` throws before any worker starts. -/
def SummaryThrows (info : OpInfo K) : Prop :=
  ∃ length, info.summaryEntries = some length ∧ resizeThrows length

/-- The update of cell `z` by a pass over the tile at `t` writes inside the summary. -/
def UpdateInBounds (info : OpInfo K) (t : TilePos) (transpose : Bool) (z : ℕ × ℕ) : Prop :=
  ∃ length, info.summaryEntries = some length ∧
    ∀ tile : Tile K, tile.dims = tileDims info t →
      ∃ i, updateMpIndex (tile.kernelArgs info transpose (!info.selfJoin)) transpose z = some i ∧
        0 ≤ i ∧ i < length

/-- The entry of cell `z` is inside the summary. -/
def EntryInBounds (info : OpInfo K) (z : ℕ × ℕ) : Prop :=
  ∃ length, info.summaryEntries = some length ∧
    ∃ i, summaryEntryInt info.matrixHeight info.matrixWidth info.numCols info.numRows z = some i ∧
      0 ≤ i ∧ i < length

/-- Every `update_mp` of every pass over every tile is in bounds. There is none when the summary is not
    allocated, when no columns are computed, and in a precision that the CPU kernels refuse. -/
def SummaryInBounds (unrollWid : ℕ) (info : OpInfo K) : Prop :=
  SummaryThrows info ∨ info.computingCols = false ∨ ¬cpuPrecision info.fpType ∨
    ∀ t ∈ getTiles info, ∀ transpose ∈ tilePasses info t,
      ∀ z ∈ launchCells unrollWid (kernelDims info (tileDims info t) transpose (!info.selfJoin)),
        UpdateInBounds info t transpose z

/-- The dimensions are such that no update leaves the summary. -/
def SummaryFits (unrollWid : ℕ) (info : OpInfo K) : Prop :=
  SummaryThrows info ∨ info.computingCols = false ∨ ¬cpuPrecision info.fpType ∨
    comparedCells unrollWid info = [] ∨
    info.matrixHeight * info.matrixWidth < 2 ^ 63 ∧
      (1 ≤ info.matrixHeight ∧ 1 ≤ info.matrixWidth ∧ info.matrixWidth < 2 ^ 31 ∧
          (∀ z ∈ comparedCells unrollWid info,
            PositiveFits info.matrixHeight info.matrixWidth info.numCols info.numRows z) ∨
        info.matrixHeight ≤ -1 ∧ info.matrixWidth ≤ -1 ∧ -2 ^ 31 ≤ info.matrixWidth ∧
          ∀ z ∈ comparedCells unrollWid info,
            NegativeFits info.matrixHeight info.matrixWidth info.numRows z)

/-- A tile with nothing in its buffers. -/
def emptyTile [Zero K] (dims : TileDims) : Tile K where
  dims := dims
  tA := fun _ => 0
  tB := fun _ => 0
  qt := fun _ => 0
  meansA := fun _ => 0
  meansB := fun _ => 0
  normsA := fun _ => .nan
  normsB := fun _ => .nan
  dfA := fun _ => 0
  dfB := fun _ => 0
  dgA := fun _ => 0
  dgB := fun _ => 0
  hasNanInput := false
  profileATileDev := fun _ => .ofValue 0
  profileBTileDev := fun _ => .ofValue 0

/-- An update is in bounds when the entry of its cell in the distance matrix is. -/
theorem updateInBounds_iff [Zero K] (htype : args.profileType = .matrixSummary) {t : TilePos} {transpose : Bool}
    {z : ℕ × ℕ} :
    UpdateInBounds (OpInfo.ofArgs args n) t transpose z ↔
      EntryInBounds (OpInfo.ofArgs args n) (globalCell (tileDims (OpInfo.ofArgs args n) t) transpose z) := by
  constructor
  · rintro ⟨length, hlength, hall⟩
    obtain ⟨i, hi, hin⟩ := hall (emptyTile _) rfl
    rw [updateMpIndex_pass htype transpose _ rfl] at hi
    exact ⟨length, hlength, i, hi, hin⟩
  · rintro ⟨length, hlength, hi⟩
    refine ⟨length, hlength, fun tile hdims => ?_⟩
    rw [updateMpIndex_pass htype transpose _ hdims]
    exact hi

/-- What holds of every cell of every pass holds of every compared cell. -/
theorem forall_comparedCells (U : ℕ) (info : OpInfo K) (P : ℕ × ℕ → Prop) :
    (∀ t ∈ getTiles info, ∀ transpose ∈ tilePasses info t,
      ∀ z ∈ launchCells U (kernelDims info (tileDims info t) transpose (!info.selfJoin)),
        P (globalCell (tileDims info t) transpose z)) ↔ ∀ z ∈ comparedCells U info, P z := by
  simp only [comparedCells, tileCells, passCells, List.mem_flatMap, List.mem_map]
  constructor
  · rintro h z ⟨t, ht, transpose, hpass, z', hz', rfl⟩
    exact h t ht transpose hpass z' hz'
  · exact fun h t ht transpose hpass z hz => h _ ⟨t, ht, transpose, hpass, z, hz, rfl⟩

end

section
variable {K : Type} [Field K] [LinearOrder K]

/-- A compared cell is a cell of the matrix. -/
theorem lt_of_compared {args : SCAMPArgs K} {n U : ℕ} (hn : 0 < n) (valid : args.validate = .ok ())
    (hU : 0 < U) {z : ℕ × ℕ} (hz : z ∈ comparedCells U (OpInfo.ofArgs args n)) :
    z.1 < (OpInfo.ofArgs args n).numRows ∧ z.2 < (OpInfo.ofArgs args n).numCols := by
  let J := args.toJoin n hn valid
  obtain ⟨t, ht, hmem⟩ := List.mem_flatMap.mp hz
  exact ((inTile_iff J).mp (inTile_of_mem_tileCells (J := J) hU ht hmem)).2

/-- **The updates of a summary.** For arguments of this type that `validate` accepts, every `update_mp` of
    every tile writes inside the summary exactly when there is no update, or the dimensions have the same
    sign and the `int`s hold the entries; of negative dimensions few matrices have all their entries
    inside. -/
theorem summaryInBounds_iff (args : SCAMPArgs K) (numWorkers unrollWid : ℕ) (hn : 0 < numWorkers)
    (hU : 0 < unrollWid) (valid : args.validate = .ok ()) (htype : args.profileType = .matrixSummary) :
    SummaryInBounds unrollWid (OpInfo.ofArgs args numWorkers) ↔
      SummaryFits unrollWid (OpInfo.ofArgs args numWorkers) := by
  have hcells := forall_comparedCells unrollWid (OpInfo.ofArgs args numWorkers)
    (EntryInBounds (OpInfo.ofArgs args numWorkers))
  simp only [← updateInBounds_iff htype] at hcells
  have hlt := fun z hz => lt_of_compared (z := z) hn valid hU hz
  unfold SummaryInBounds SummaryFits
  refine or_congr_right (or_congr_right (or_congr_right (hcells.trans ?_)))
  constructor
  · intro h
    cases hc : comparedCells unrollWid (OpInfo.ofArgs args numWorkers) with
    | nil => exact Or.inl rfl
    | cons z0 rest =>
        have hmem : z0 ∈ comparedCells unrollWid (OpInfo.ofArgs args numWorkers) := hc ▸ List.mem_cons_self
        have hcell := fun z hz => (entry_inside_iff (hlt z hz).1 (hlt z hz).2).mp (h z hz)
        rw [← hc]
        -- the signs of the dimensions do not depend on the cell
        refine Or.inr ⟨(hcell z0 hmem).1, ?_⟩
        rcases (hcell z0 hmem).2 with ⟨hh, hw, hw', -⟩ | ⟨hh, hw, hw', -⟩
        · refine Or.inl ⟨hh, hw, hw', fun z hz => ?_⟩
          rcases (hcell z hz).2 with ⟨-, -, -, hfits⟩ | ⟨hneg, -⟩
          · exact hfits
          · omega
        · refine Or.inr ⟨hh, hw, hw', fun z hz => ?_⟩
          rcases (hcell z hz).2 with ⟨hpos, -⟩ | ⟨-, -, -, hfits⟩
          · omega
          · exact hfits
  · rintro (hnil | ⟨hprod, ⟨hh, hw, hw', hfits⟩ | ⟨hh, hw, hw', hfits⟩⟩) z hz
    · rw [hnil] at hz
      exact absurd hz List.not_mem_nil
    · exact (entry_inside_iff (hlt z hz).1 (hlt z hz).2).mpr
        ⟨hprod, Or.inl ⟨hh, hw, hw', hfits z hz⟩⟩
    · exact (entry_inside_iff (hlt z hz).1 (hlt z hz).2).mpr
        ⟨hprod, Or.inr ⟨hh, hw, hw', hfits z hz⟩⟩

/-- A self-join of four samples with window `3`, summarised in `height * width` entries. -/
noncomputable def smallSummary (height width : ℤ) : SCAMPArgs ℝ :=
  { selfJoinArgs .matrixSummary ⟨4, fun _ => .finite 0⟩ 3 with matrixHeight := height, matrixWidth := width }

theorem summaryInBounds_iff_small :
    0 < 1 ∧ 0 < 256 ∧ (smallSummary 2 2).validate = .ok () ∧
      (SummaryInBounds 256 (OpInfo.ofArgs (smallSummary 2 2) 1) ↔
        SummaryFits 256 (OpInfo.ofArgs (smallSummary 2 2) 1)) := by
  have hvalid : (smallSummary 2 2).validate = .ok () := by
    simp [smallSummary, SCAMPArgs.validate, selfJoinArgs, getDefaultSCAMPArgs, SCAMPArgs.profileASize,
      SCAMPArgs.profileBSize]
  exact ⟨Nat.one_pos, by decide, hvalid,
    summaryInBounds_iff (smallSummary 2 2) 1 256 Nat.one_pos (by decide) hvalid rfl⟩

/-- A summary of width `0` has no entry for the only cell that is compared. -/
theorem zeroWidth_leaves :
    ¬ ∀ (args : SCAMPArgs ℝ) (numWorkers unrollWid : ℕ), 0 < numWorkers → 0 < unrollWid →
      args.validate = .ok () → args.profileType = .matrixSummary →
      SummaryInBounds unrollWid (OpInfo.ofArgs args numWorkers) := by
  intro h
  have hvalid : (smallSummary 2 0).validate = .ok () := by
    simp [smallSummary, SCAMPArgs.validate, selfJoinArgs, getDefaultSCAMPArgs, SCAMPArgs.profileASize,
      SCAMPArgs.profileBSize]
  have hempty : (OpInfo.ofArgs (smallSummary 2 0) 1).summaryEntries = some 0 := by decide
  rcases h (smallSummary 2 0) 1 256 Nat.one_pos (by decide) hvalid rfl with hthrows | hcols | hprec | hall
  · obtain ⟨length, hlength, hresize⟩ := hthrows
    obtain rfl : 0 = length := Option.some.inj (hempty.symm.trans hlength)
    rcases hresize with hlt | hlt
    · exact absurd hlt (by decide)
    · exact absurd hlt (by decide)
  · exact absurd hcols (by decide)
  · exact hprec (Or.inl rfl)
  · let J := (smallSummary 2 0).toJoin 1 Nat.one_pos hvalid
    have hmem : (0, 1) ∈ comparedCells 256 (OpInfo.ofArgs (smallSummary 2 0) 1) :=
      (mem_comparedCells_selfJoin (J := J) (by decide) rfl).mpr
        ⟨show 1 < (OpInfo.ofArgs (smallSummary 2 0) 1).numCols by decide,
          show 0 + exclusionZone (OpInfo.ofArgs (smallSummary 2 0) 1).mpWindow ≤ 1 by decide⟩
    simp only [updateInBounds_iff (show (smallSummary 2 0).profileType = .matrixSummary from rfl)] at hall
    obtain ⟨length, hlength, i, -, hi0, hilt⟩ := (forall_comparedCells _ _ _).mp hall _ hmem
    obtain rfl : 0 = length := Option.some.inj (hempty.symm.trans hlength)
    omega

end

end Scamp
