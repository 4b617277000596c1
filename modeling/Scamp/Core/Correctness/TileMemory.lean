import Scamp.Core.TileMemory
import Scamp.Lib.Checked
import Scamp.Core.Correctness.Cells

/-!
# `Core.Correctness.TileMemory` — the ranges of a tile lie inside their arrays

The tiles of an operation have between one subsequence and `max_tile_width` of them on each side
(`tile_fits`). From there each range that `do_work` touches for a tile is inside its array, as long as the
`int` variables hold the lengths that go through them; `SUM_THRESH` multiplies two of them to the number of
bytes it clears. `tilesInBounds_iff` says exactly when they do.
-/

namespace Scamp

open Lib

section
variable {K : Type} [Field K]

/-! ## What is asked of an operation -/

/-- A range inside its array. -/
def Access.Inside (args : SCAMPArgs K) (info : OpInfo K) (profileSize : ℕ) (a : Access) : Prop :=
  a.start + a.length ≤ a.mem.bytes args info profileSize

/-- A list of ranges all of whose lengths have a value, and all of which are inside their arrays. -/
def AllInside (args : SCAMPArgs K) (info : OpInfo K) (profileSize : ℕ) (ranges : Option (List Access)) :
    Prop :=
  ∃ l, ranges = some l ∧ ∀ a ∈ l, a.Inside args info profileSize

/-- The tile at `t` has at least one subsequence on each side and at most `max_tile_width`, and everything
    `do_work` touches for it is inside its array. -/
structure TileInBounds (args : SCAMPArgs K) (info : OpInfo K) (t : TilePos) : Prop where
  width : ∃ w, subsequences (tileDims info t).width info.mpWindow = some w ∧ 1 ≤ w ∧ w ≤ info.maxTileWidth
  height : ∃ h, subsequences (tileDims info t).height info.mpWindow = some h ∧ 1 ≤ h ∧
    h ≤ info.maxTileHeight
  ranges : ∃ profileSize, getProfileTypeSize info.profileType = some profileSize ∧
    AllInside args info profileSize (tileRanges info profileSize t)

/-- Every tile of the operation is in bounds, and the sizes the operation keeps in `int`s fit them. -/
def TilesInBounds (args : SCAMPArgs K) (info : OpInfo K) : Prop :=
  (operationInts info).isSome = true ∧ ∀ t ∈ getTiles info, TileInBounds args info t

/-- The `int`s of an operation hold their values: the positions of a tile's series, the number of
    subsequences of each series (and one more for the vectors of the alternative formula), and, for
    `SUM_THRESH`, the bytes of a tile's largest local profiles. -/
structure FitsInt (info : OpInfo K) : Prop where
  tile : info.maxTileTsSize ≤ maxInt + 1
  columns : info.numCols + (if info.fpType = .ultra then 1 else 0) ≤ maxInt
  rows : info.numRows + (if info.fpType = .ultra then 1 else 0) ≤ maxInt
  sums : info.profileType = .sumThresh →
    8 * min info.maxTileWidth info.numCols ≤ maxInt ∧ 8 * min info.maxTileHeight info.numRows ≤ maxInt

/-! ## The ranges of one tile -/

theorem subsequences_eq_some {len window n : ℕ} :
    subsequences len window = some n ↔ window ≤ len ∧ len - window + 1 = n := by
  unfold subsequences subSize
  split_ifs with h <;> simp [h]

/-- What the place of a tile says of its size. -/
structure TileFits (info : OpInfo K) (t : TilePos) : Prop where
  col : t.2 * info.maxTileWidth < info.numCols
  row : t.1 * info.maxTileHeight < info.numRows
  window : 3 ≤ info.mpWindow
  lenA : info.mpWindow ≤ info.fullTsLenA
  lenB : info.mpWindow ≤ info.fullTsLenB
  tile : 2 * info.mpWindow ≤ info.maxTileTsSize
  maxWidth : info.maxTileWidth = info.maxTileTsSize - info.mpWindow + 1
  maxHeight : info.maxTileHeight = info.maxTileWidth

section
variable {K : Type} {info : OpInfo K} {t : TilePos}

/-- The piece of a series under a tile, and the part of the statistics and of the profile that belongs to
    it: `len` samples from `start` on, of the series of length `full`. -/
structure PieceFits (info : OpInfo K) (full start len extent : ℕ) : Prop where
  window : info.mpWindow ≤ len
  most : len ≤ info.maxTileTsSize
  inside : start + len ≤ full
  extent : len - info.mpWindow + 1 ≤ extent

theorem TileFits.width (h : TileFits info t) :
    PieceFits info info.fullTsLenA (tileDims info t).col (tileDims info t).width info.maxTileWidth := by
  obtain ⟨hcol, -, h3, hA, -, htile, hW, -⟩ := h
  simp only [OpInfo.numCols] at hcol
  constructor <;> simp only [tileDims] <;> omega

theorem TileFits.height (h : TileFits info t) :
    PieceFits info info.fullTsLenB (tileDims info t).row (tileDims info t).height info.maxTileHeight := by
  obtain ⟨-, hrow, h3, -, hB, htile, hW, hH⟩ := h
  simp only [OpInfo.numRows] at hrow
  constructor <;> simp only [tileDims] <;> omega

/-- The subsequences under a tile are subsequences of the whole series. -/
theorem PieceFits.position {full start len extent : ℕ} (h : PieceFits info full start len extent) :
    start + (len - info.mpWindow + 1) ≤ full - info.mpWindow + 1 := by
  obtain ⟨hw, -, hin, -⟩ := h
  omega

end

variable {args : SCAMPArgs K} {info : OpInfo K} {t : TilePos} {profileSize : ℕ}

theorem inside_memcopy {dst src : Mem} {start bytes : ℕ} (hsrc : start + bytes ≤ src.bytes args info profileSize)
    (hdst : bytes ≤ dst.bytes args info profileSize) :
    ∀ a ∈ memcopyRanges dst src start bytes, a.Inside args info profileSize := by
  intro a ha
  rcases List.mem_pair.mp ha with rfl | rfl
  · exact hsrc
  · exact (Nat.zero_add bytes).le.trans hdst

theorem initTimeseries_inside (h : TileFits info t) :
    ∀ a ∈ initTimeseriesRanges (tileDims info t), a.Inside args info profileSize := by
  obtain ⟨-, hmostA, hinA, -⟩ := h.width
  obtain ⟨-, hmostB, hinB, -⟩ := h.height
  refine List.forall_mem_append.mpr ⟨inside_memcopy ?_ ?_, inside_memcopy ?_ ?_⟩
  · show sizeofDouble * _ + sizeofDouble * _ ≤ sizeofDouble * info.fullTsLenA
    rw [← Nat.mul_add]
    exact Nat.mul_le_mul_left _ hinA
  · exact Nat.mul_le_mul_left sizeofDouble hmostA
  · show sizeofDouble * _ + sizeofDouble * _ ≤ sizeofDouble * info.fullTsLenB
    rw [← Nat.mul_add]
    exact Nat.mul_le_mul_left _ hinB
  · exact Nat.mul_le_mul_left sizeofDouble hmostB

theorem initStats_inside (h : TileFits info t) :
    AllInside args info profileSize (initStatsRanges info (tileDims info t)) := by
  obtain ⟨hwA, -, hinA, hextA⟩ := h.width
  obtain ⟨hwB, -, hinB, hextB⟩ := h.height
  have h3 := h.window
  have hsrcA : ∀ k, info.fullTsLenA - info.mpWindow + 1 ≤ k → sizeofDouble * (tileDims info t).col +
      ((tileDims info t).width - info.mpWindow + 1) * sizeofDouble ≤ sizeofDouble * k := by
    unfold sizeofDouble
    omega
  have hsrcB : ∀ k, info.fullTsLenB - info.mpWindow + 1 ≤ k → sizeofDouble * (tileDims info t).row +
      ((tileDims info t).height - info.mpWindow + 1) * sizeofDouble ≤ sizeofDouble * k := by
    unfold sizeofDouble
    omega
  have hdstA : ((tileDims info t).width - info.mpWindow + 1) * sizeofDouble ≤
      sizeofDouble * info.maxTileWidth := by
    rw [Nat.mul_comm]
    exact Nat.mul_le_mul_left _ hextA
  have hdstB : ((tileDims info t).height - info.mpWindow + 1) * sizeofDouble ≤
      sizeofDouble * info.maxTileHeight := by
    rw [Nat.mul_comm]
    exact Nat.mul_le_mul_left _ hextB
  refine ⟨_, bind_some (subsequences_eq_some.mpr ⟨hwA, rfl⟩)
    (bind_some (subsequences_eq_some.mpr ⟨hwB, rfl⟩) rfl), ?_⟩
  simp only [List.forall_mem_append]
  refine ⟨⟨⟨⟨⟨⟨⟨inside_memcopy (hsrcA _ (Nat.le_refl _)) hdstA, inside_memcopy (hsrcB _ (Nat.le_refl _)) hdstB⟩,
    inside_memcopy (hsrcA _ (Nat.le_refl _)) hdstA⟩, inside_memcopy (hsrcB _ (Nat.le_refl _)) hdstB⟩, ?_⟩, ?_⟩,
    ?_⟩, ?_⟩
  -- the vectors of the alternative formula are one longer
  · refine inside_memcopy ?_ hdstA
    split_ifs
    · exact hsrcA _ (by omega)
    · exact hsrcA _ (Nat.le_refl _)
  · refine inside_memcopy ?_ hdstA
    split_ifs
    · exact hsrcA _ (by omega)
    · exact hsrcA _ (Nat.le_refl _)
  · refine inside_memcopy ?_ hdstB
    split_ifs
    · exact hsrcB _ (by omega)
    · exact hsrcB _ (Nat.le_refl _)
  · refine inside_memcopy ?_ hdstB
    split_ifs
    · exact hsrcB _ (by omega)
    · exact hsrcB _ (Nat.le_refl _)

/-- The global profiles hold an entry for each column and row of the matrix. -/
structure ProfilesFit (args : SCAMPArgs K) (info : OpInfo K) : Prop where
  columns : info.numCols ≤ (args.profile .a).data.size
  rows : info.keepRowsSeparate = true → info.numRows ≤ (args.profile .b).data.size
  self : info.selfJoin = true → info.numRows = info.numCols

/-- The profile types that keep an entry for each subsequence, and which CPU workers compute. -/
def PerSubsequence (type : SCAMPProfileType) : Prop :=
  type = .oneNNIndex ∨ type = .oneNN ∨ type = .sumThresh

/-- A copy between a local profile and a piece of a global one. -/
theorem inside_profile {target : Side} {start length : ℕ}
    (h : start + length ≤ (args.profile target).data.size) :
    profileSize * start + profileSize * length ≤ (Mem.profile target).bytes args info profileSize := by
  rw [← Nat.mul_add]
  exact Nat.mul_le_mul_left _ h

theorem initProfileA_inside (h : TileFits info t) (hp : ProfilesFit args info)
    (htype : PerSubsequence info.profileType)
    (hsum : info.profileType = .sumThresh →
      profileSize * ((tileDims info t).width - info.mpWindow + 1) ≤ maxInt) :
    AllInside args info profileSize ((initProfileA info (tileDims info t) 0).ranges .a profileSize
      ((tileDims info t).width - info.mpWindow + 1)) := by
  have hdst := Nat.mul_le_mul_left profileSize h.width.extent
  have hsrc : profileSize * (tileDims info t).col + profileSize * ((tileDims info t).width - info.mpWindow + 1) ≤
      (Mem.profile .a).bytes args info profileSize := inside_profile (h.width.position.trans hp.columns)
  unfold initProfileA
  rcases htype with hty | hty | hty
  · rw [hty]
    exact ⟨_, rfl, inside_memcopy hsrc hdst⟩
  · rw [hty]
    exact ⟨_, rfl, inside_memcopy hsrc hdst⟩
  · rw [hty]
    refine ⟨_, bind_some (toInt_eq_some.mpr ⟨hsum hty, rfl⟩) rfl, fun a ha => ?_⟩
    rw [List.mem_singleton.mp ha]
    exact (Nat.zero_add _).le.trans hdst

theorem initProfileB_inside (h : TileFits info t) (hp : ProfilesFit args info)
    (htype : PerSubsequence info.profileType)
    (hsum : info.profileType = .sumThresh →
      profileSize * ((tileDims info t).height - info.mpWindow + 1) ≤ maxInt) :
    AllInside args info profileSize ((initProfileB info (tileDims info t)).ranges .b profileSize
      ((tileDims info t).height - info.mpWindow + 1)) := by
  have hdst := Nat.mul_le_mul_left profileSize h.height.extent
  have hcopy : ∀ source, (tileDims info t).row + ((tileDims info t).height - info.mpWindow + 1) ≤
      (args.profile source).data.size → AllInside args info profileSize
        ((ProfileInit.copy source (tileDims info t).row ((tileDims info t).height - info.mpWindow + 1)).ranges
          .b profileSize ((tileDims info t).height - info.mpWindow + 1)) :=
    fun source hin => ⟨_, rfl, inside_memcopy (inside_profile hin) hdst⟩
  have hrows : info.keepRowsSeparate = true → _ := fun hk => hcopy .b (h.height.position.trans (hp.rows hk))
  have hself : info.selfJoin = true → _ := fun hs =>
    hcopy .a (h.height.position.trans ((hp.self hs).le.trans hp.columns))
  have hleave : AllInside args info profileSize (ProfileInit.leave.ranges .b profileSize
      ((tileDims info t).height - info.mpWindow + 1)) :=
    ⟨_, rfl, fun a ha => absurd ha List.not_mem_nil⟩
  unfold initProfileB
  rcases htype with hty | hty | hty
  · simp only [hty]
    split_ifs with h1 h2
    · exact hrows (Bool.and_eq_true_iff.mp h1).2
    · exact hself h2
    · exact hleave
  · simp only [hty]
    split_ifs with h1 h2
    · exact hself h1
    · exact hrows (Bool.and_eq_true_iff.mp h2).2
    · exact hleave
  · simp only [hty]
    refine ⟨_, bind_some (toInt_eq_some.mpr ⟨hsum hty, rfl⟩) rfl, fun a ha => ?_⟩
    rw [List.mem_singleton.mp ha]
    exact (Nat.zero_add _).le.trans hdst

/-- **The QT computation** works on whole tiles, whatever the size of the one at hand. -/
theorem computeQT_inside (h : TileFits info t) (hfit : info.maxTileTsSize ≤ maxInt + 1) (T Q : Side) :
    AllInside args info profileSize (computeQTRanges info.maxTileTsSize info.mpWindow T Q) := by
  obtain ⟨-, -, h3, -, -, htile, hW, -⟩ := h
  have hn : toInt (info.maxTileTsSize - info.mpWindow + 1) = some info.maxTileWidth :=
    toInt_eq_some.mpr ⟨by omega, hW.symm⟩
  have hj : toInt info.mpWindow = some info.mpWindow := toInt_eq_some.mpr ⟨by omega, rfl⟩
  have hij : toInt (info.maxTileWidth - 1 + (info.mpWindow - 1)) = some _ := toInt_eq_some.mpr ⟨by omega, rfl⟩
  refine ⟨_, bind_some (subsequences_eq_some.mpr ⟨by omega, rfl⟩)
    (bind_some hn (bind_some hj (bind_some hij rfl))), ?_⟩
  intro a ha
  simp only [List.mem_cons, List.not_mem_nil, or_false] at ha
  rcases ha with rfl | rfl | rfl
  · show 0 + sizeofDouble * _ ≤ sizeofDouble * _
    rw [Nat.zero_add]
    exact Nat.mul_le_mul_left _ (by omega)
  · show 0 + sizeofDouble * _ ≤ sizeofDouble * _
    rw [Nat.zero_add]
    exact Nat.mul_le_mul_left _ (by omega)
  · exact (Nat.zero_add _).le

theorem execute_inside (h : TileFits info t) (hfit : info.maxTileTsSize ≤ maxInt + 1) (type : SCAMPTileType) :
    AllInside args info profileSize (executeRanges info type (tileDims info t)) := by
  have hQT : ∀ T Q, AllInside args info profileSize (computeQTRanges info.maxTileTsSize info.mpWindow T Q) :=
    computeQT_inside h hfit
  obtain ⟨l, hl, hin⟩ := hQT .a .b
  obtain ⟨l', hl', hin'⟩ := hQT .b .a
  unfold executeRanges
  split_ifs
  · exact ⟨[], rfl, fun a ha => absurd ha List.not_mem_nil⟩
  · exact ⟨l, hl, hin⟩
  · exact ⟨l ++ l', bind_some hl (bind_some hl' rfl), List.forall_mem_append.mpr ⟨hin, hin'⟩⟩

/-- A merge into a piece of a global profile. -/
theorem inside_merge {target source : Side} {position length : ℕ}
    (hin : position + length ≤ (args.profile target).data.size) (hlen : length ≤ info.maxTileWidth) :
    ∀ a ∈ mergeTileRanges target source profileSize position length, a.Inside args info profileSize := by
  intro a ha
  rcases List.mem_pair.mp ha with rfl | rfl
  · exact inside_profile hin
  · exact (Nat.zero_add _).le.trans (Nat.mul_le_mul_left _ hlen)

/-- A local profile copied to the host. -/
theorem inside_fromDevice {side : Side} {length : ℕ} (hlen : length ≤ info.maxTileExtent side)
    (hmax : info.maxTileExtent side = info.maxTileWidth) :
    ∀ a ∈ copyFromDeviceRanges side profileSize length, a.Inside args info profileSize := by
  refine inside_memcopy ?_ ?_
  · rw [Nat.zero_add, Nat.mul_comm]
    exact Nat.mul_le_mul_left _ hlen
  · rw [Nat.mul_comm]
    exact Nat.mul_le_mul_left _ (hmax ▸ hlen)

theorem mergeProfile_inside (h : TileFits info t) (hp : ProfilesFit args info)
    (hwidth : (tileDims info t).width - info.mpWindow + 1 ≤ maxInt)
    (hheight : (tileDims info t).height - info.mpWindow + 1 ≤ maxInt) :
    AllInside args info profileSize (mergeProfileRanges info profileSize (tileDims info t)) := by
  refine ⟨_, bind_some (subsequences_eq_some.mpr ⟨h.width.window, rfl⟩)
    (bind_some (toInt_eq_some.mpr ⟨hwidth, rfl⟩)
    (bind_some (subsequences_eq_some.mpr ⟨h.height.window, rfl⟩)
    (bind_some (toInt_eq_some.mpr ⟨hheight, rfl⟩) rfl))), ?_⟩
  have hcols := h.width.position.trans hp.columns
  simp only [List.forall_mem_append]
  refine ⟨⟨⟨inside_fromDevice h.width.extent rfl, ?_⟩, inside_merge hcols h.width.extent⟩, ?_⟩
  · split_ifs
    · exact inside_fromDevice h.height.extent h.maxHeight
    · exact fun a ha => absurd ha List.not_mem_nil
  · have hlen : (tileDims info t).height - info.mpWindow + 1 ≤ info.maxTileWidth :=
      h.height.extent.trans h.maxHeight.le
    unfold Tile.mergeTargetB
    split_ifs with hb ha
    · exact inside_merge (h.height.position.trans (hp.rows (Bool.and_eq_true_iff.mp hb).2)) hlen
    · refine inside_merge (h.height.position.trans (?_ : info.numRows ≤ _)) hlen
      exact (hp.self (Bool.and_eq_true_iff.mp ha).1).le.trans hp.columns
    · exact fun a ha => absurd ha List.not_mem_nil

/-! ## All tiles -/

variable {n : ℕ}

theorem profilesFit (htype : PerSubsequence args.profileType) (ha : args.profileA.type = args.profileType)
    (hb : args.keepRowsSeparate = true → args.profileB.type = args.profileType) :
    ProfilesFit args (OpInfo.ofArgs args n) := by
  have halloc : ∀ (p : Profile K) size, p.type = args.profileType →
      (p.alloc size args.matrixHeight args.matrixWidth).data.size = size := by
    intro p size hp
    unfold Profile.alloc
    rw [hp]
    rcases htype with hty | hty | hty <;> rw [hty] <;> rfl
  have hnum : (OpInfo.ofArgs args n).numRows = args.profileBSize := by
    show (if args.hasB then _ else _) - args.window + 1 = if args.hasB then _ else _
    split_ifs <;> rfl
  constructor
  · exact (halloc args.profileA _ ha).ge
  · intro hk
    have hkeep : args.keepRowsSeparate = true := by
      have : (if args.profileType = .matrixSummary then false else args.keepRowsSeparate) = true := hk
      split_ifs at this
      exact this
    show _ ≤ (if args.keepRowsSeparate then _ else args.profileB).data.size
    rw [if_pos hkeep, halloc args.profileB _ (hb hkeep), hnum]
  · intro hself
    have hab : args.hasB = false := by simpa [OpInfo.ofArgs] using hself
    rw [hnum, SCAMPArgs.profileBSize, hab]
    rfl

variable [LinearOrder K]

/-- A join with the tiles of the given arguments: the profiles to compute do not matter for them. -/
def SCAMPArgs.toJoin (args : SCAMPArgs K) (numWorkers : ℕ) (hn : 0 < numWorkers)
    (valid : args.validate = .ok ()) : Join K where
  args := { args with
    computingColumns := true, computingRows := true, keepRowsSeparate := true
    profileA := ⟨args.profileType, args.profileA.data⟩, profileB := ⟨args.profileType, args.profileB.data⟩ }
  numThreads := numWorkers
  threads_pos := hn
  valid := valid
  columns := rfl
  rows_self _ := rfl
  rows_ab _ := rfl
  type_a := rfl
  type_b _ := rfl

theorem tile_fits (hn : 0 < n) (valid : args.validate = .ok ()) {t : TilePos}
    (ht : t ∈ getTiles (OpInfo.ofArgs args n)) : TileFits (OpInfo.ofArgs args n) t := by
  let J := args.toJoin n hn valid
  obtain ⟨hrow, hcol, -⟩ := (mem_getTiles J).mp ht
  exact ⟨hcol, hrow, J.three_le_window, J.window_le_lenA, J.window_le_lenB, J.two_windows_le_tile, rfl, rfl⟩

/-- There is a tile in the corner of the matrix. -/
theorem corner_mem_getTiles (hn : 0 < n) (valid : args.validate = .ok ()) :
    (0, 0) ∈ getTiles (OpInfo.ofArgs args n) := by
  let J := args.toJoin n hn valid
  refine (mem_getTiles J).mpr ⟨?_, ?_, fun _ => Nat.le_refl 0⟩
  · rw [Nat.zero_mul]
    exact Nat.succ_pos _
  · rw [Nat.zero_mul]
    exact Nat.succ_pos _

/-- A computation that goes on with an `int`. -/
theorem isSome_toInt_bind {α : Type} {x : ℕ} {f : ℕ → Option α} :
    ((toInt x).bind f).isSome = true ↔ x ≤ maxInt ∧ (f x).isSome = true := by
  unfold toInt
  split_ifs with h <;> simp [h]

omit [Field K] [LinearOrder K] in
/-- The `int`s of an operation hold their values when they fit. -/
theorem operationInts_isSome_iff (hm : 1 ≤ info.mpWindow) (hA : info.mpWindow ≤ info.fullTsLenA)
    (hB : info.mpWindow ≤ info.fullTsLenB) :
    (operationInts info).isSome = true ↔ info.mpWindow ≤ maxInt ∧
      info.numCols + (if info.fpType = .ultra then 1 else 0) ≤ maxInt ∧
      info.numRows + (if info.fpType = .ultra then 1 else 0) ≤ maxInt := by
  have hlong : ∀ {len}, info.mpWindow ≤ len →
      subsequences len (info.mpWindow - 1) = some (len - info.mpWindow + 1 + 1) :=
    fun h => subsequences_eq_some.mpr ⟨by omega, by omega⟩
  unfold operationInts OpInfo.numCols OpInfo.numRows
  rw [subsequences_eq_some.mpr ⟨hA, rfl⟩, subsequences_eq_some.mpr ⟨hB, rfl⟩, hlong hA, hlong hB]
  simp only [Option.bind_eq_bind, Option.bind_some, isSome_toInt_bind]
  split_ifs with hultra
  · simp only [isSome_toInt_bind, Option.isSome_some, pure, and_true]
    omega
  · simp

/-- **Every range of a tile** lies inside its array when the `int`s hold their values. -/
theorem tileInBounds_of_fits (hn : 0 < n) (valid : args.validate = .ok ())
    (htype : PerSubsequence args.profileType) (ha : args.profileA.type = args.profileType)
    (hb : args.keepRowsSeparate = true → args.profileB.type = args.profileType)
    (hfit : FitsInt (OpInfo.ofArgs args n)) (ht : t ∈ getTiles (OpInfo.ofArgs args n)) :
    TileInBounds args (OpInfo.ofArgs args n) t := by
  have h := tile_fits hn valid ht
  have hp : ProfilesFit args (OpInfo.ofArgs args n) := profilesFit htype ha hb
  generalize hi : OpInfo.ofArgs args n = info at h hp hfit ⊢
  have htype' : PerSubsequence info.profileType := hi ▸ htype
  have hw := h.width.extent
  have hh := h.height.extent
  have hcols : (tileDims info t).width - info.mpWindow + 1 ≤ info.numCols :=
    (Nat.le_add_left _ _).trans h.width.position
  have hrows : (tileDims info t).height - info.mpWindow + 1 ≤ info.numRows :=
    (Nat.le_add_left _ _).trans h.height.position
  have hwidth : (tileDims info t).width - info.mpWindow + 1 ≤ maxInt := by
    have := hfit.columns
    omega
  have hheight : (tileDims info t).height - info.mpWindow + 1 ≤ maxInt := by
    have := hfit.rows
    omega
  -- sums are doubles; their sizes are multiplied as `int`s
  obtain ⟨size, hsize, hsum⟩ : ∃ size, getProfileTypeSize info.profileType = some size ∧
      (info.profileType = .sumThresh → size = 8) := by
    rcases htype' with hty | hty | hty <;> rw [hty] <;> exact ⟨_, rfl, by decide⟩
  refine ⟨⟨_, subsequences_eq_some.mpr ⟨h.width.window, rfl⟩, Nat.succ_pos _, hw⟩,
    ⟨_, subsequences_eq_some.mpr ⟨h.height.window, rfl⟩, Nat.succ_pos _, hh⟩, size, hsize, ?_⟩
  -- what a worker does with the tile, in its order
  obtain ⟨stats, hstats, hstats'⟩ : AllInside args info size (initStatsRanges info (tileDims info t)) :=
    initStats_inside h
  have hsumA : info.profileType = .sumThresh → size * ((tileDims info t).width - info.mpWindow + 1) ≤ maxInt := by
    intro hty
    have := (hfit.sums hty).1
    rw [hsum hty]
    omega
  have hsumB : info.profileType = .sumThresh → size * ((tileDims info t).height - info.mpWindow + 1) ≤ maxInt := by
    intro hty
    have := (hfit.sums hty).2
    rw [hsum hty]
    omega
  obtain ⟨initA, hinitA, hinitA'⟩ := initProfileA_inside h hp htype' hsumA
  obtain ⟨initB, hinitB, hinitB'⟩ := initProfileB_inside h hp htype' hsumB
  obtain ⟨exec, hexec, hexec'⟩ : AllInside args info size (executeRanges info (tileType info t) (tileDims info t)) :=
    execute_inside h hfit.tile (tileType info t)
  obtain ⟨merge, hmerge, hmerge'⟩ : AllInside args info size (mergeProfileRanges info size (tileDims info t)) :=
    mergeProfile_inside h hp hwidth hheight
  have hcol : t.2 * info.maxTileWidth ≤ info.fullTsLenA := by
    have := h.col
    have := h.lenA
    have := h.window
    simp only [OpInfo.numCols] at *
    omega
  have hrow : t.1 * info.maxTileHeight ≤ info.fullTsLenB := by
    have := h.row
    have := h.lenB
    have := h.window
    simp only [OpInfo.numRows] at *
    omega
  have hinit : initProfileRanges info size (tileDims info t) = some (initA ++ initB) :=
    bind_some (subsequences_eq_some.mpr ⟨h.width.window, rfl⟩)
      (bind_some (toInt_eq_some.mpr ⟨hwidth, rfl⟩)
      (bind_some (subsequences_eq_some.mpr ⟨h.height.window, rfl⟩)
      (bind_some (toInt_eq_some.mpr ⟨hheight, rfl⟩)
      (bind_some hinitA (bind_some hinitB rfl)))))
  -- all of it succeeds, and each range is inside
  refine ⟨_, bind_some (subSize_eq_some.mpr ⟨hcol, rfl⟩) (bind_some (subSize_eq_some.mpr ⟨hrow, rfl⟩)
    (bind_some hstats (bind_some hinit (bind_some hexec (bind_some hmerge rfl))))), ?_⟩
  simp only [List.forall_mem_append]
  exact ⟨⟨⟨⟨initTimeseries_inside h, hstats'⟩, hinitA', hinitB'⟩, hexec'⟩, hmerge'⟩

omit [Field K] [LinearOrder K] in
/-- The pieces of the ranges of a tile. -/
theorem tileRanges_pieces {l : List Access} (h : tileRanges info profileSize t = some l) :
    ∃ init exec, initProfileRanges info profileSize (tileDims info t) = some init ∧
      executeRanges info (tileType info t) (tileDims info t) = some exec := by
  obtain ⟨_, _, h⟩ := Option.bind_eq_some_iff.mp h
  obtain ⟨_, _, h⟩ := Option.bind_eq_some_iff.mp h
  obtain ⟨_, _, h⟩ := Option.bind_eq_some_iff.mp h
  obtain ⟨init, hinit, h⟩ := Option.bind_eq_some_iff.mp h
  obtain ⟨exec, hexec, _⟩ := Option.bind_eq_some_iff.mp h
  exact ⟨init, exec, hinit, hexec⟩

/-- The sum of the two counters of the QT computation is an `int`. -/
theorem le_of_computeQT {size window : ℕ} {T Q : Side} {l : List Access} (hw : 1 ≤ window)
    (h : computeQTRanges size window T Q = some l) : size ≤ maxInt + 1 := by
  obtain ⟨_, hn', h⟩ := Option.bind_eq_some_iff.mp h
  obtain ⟨_, hn, h⟩ := Option.bind_eq_some_iff.mp h
  obtain ⟨_, hj, h⟩ := Option.bind_eq_some_iff.mp h
  obtain ⟨_, hk, _⟩ := Option.bind_eq_some_iff.mp h
  obtain ⟨hle, rfl⟩ := subsequences_eq_some.mp hn'
  obtain ⟨_, rfl⟩ := toInt_eq_some.mp hn
  obtain ⟨_, rfl⟩ := toInt_eq_some.mp hj
  have := (toInt_eq_some.mp hk).1
  omega

omit [LinearOrder K] in
/-- What a tile in bounds says of the tile size: the QT computation of its first pass has a value. -/
theorem TileInBounds.tile_le (h : TileInBounds args info t) (hf : TileFits info t) :
    info.maxTileTsSize ≤ maxInt + 1 := by
  obtain ⟨size, _, l, hl, _⟩ := h.ranges
  obtain ⟨_, exec, _, hexec⟩ := tileRanges_pieces hl
  have hwindow : 1 ≤ info.mpWindow := (by decide : 1 ≤ 3).trans hf.window
  unfold executeRanges at hexec
  split_ifs at hexec with h1 h2
  · have := hf.width.window
    have := hf.height.window
    omega
  · exact le_of_computeQT hwindow hexec
  · obtain ⟨_, hup, _⟩ := Option.bind_eq_some_iff.mp hexec
    exact le_of_computeQT hwindow hup

omit [LinearOrder K] in
/-- What a tile in bounds says of `SUM_THRESH`: the bytes its local profiles are cleared with fit. -/
theorem TileInBounds.sums_le (h : TileInBounds args info t) (hty : info.profileType = .sumThresh) :
    8 * ((tileDims info t).width - info.mpWindow + 1) ≤ maxInt ∧
      8 * ((tileDims info t).height - info.mpWindow + 1) ≤ maxInt := by
  obtain ⟨size, hsize, l, hl, _⟩ := h.ranges
  obtain ⟨init, _, hinit, _⟩ := tileRanges_pieces hl
  obtain ⟨_, hw', hinit⟩ := Option.bind_eq_some_iff.mp hinit
  obtain ⟨_, hw, hinit⟩ := Option.bind_eq_some_iff.mp hinit
  obtain ⟨_, hv', hinit⟩ := Option.bind_eq_some_iff.mp hinit
  obtain ⟨_, hv, hinit⟩ := Option.bind_eq_some_iff.mp hinit
  obtain ⟨initA, hinitA, hinit⟩ := Option.bind_eq_some_iff.mp hinit
  obtain ⟨initB, hinitB, _⟩ := Option.bind_eq_some_iff.mp hinit
  obtain ⟨_, rfl⟩ := subsequences_eq_some.mp hw'
  obtain ⟨_, rfl⟩ := toInt_eq_some.mp hw
  obtain ⟨_, rfl⟩ := subsequences_eq_some.mp hv'
  obtain ⟨_, rfl⟩ := toInt_eq_some.mp hv
  rw [hty] at hsize
  obtain rfl : 8 = size := Option.some.inj hsize
  unfold initProfileA at hinitA
  unfold initProfileB at hinitB
  rw [hty] at hinitA hinitB
  obtain ⟨_, ha, _⟩ := Option.bind_eq_some_iff.mp hinitA
  obtain ⟨_, hb, _⟩ := Option.bind_eq_some_iff.mp hinitB
  exact ⟨(toInt_eq_some.mp ha).1, (toInt_eq_some.mp hb).1⟩

/-- All tiles of an operation are in bounds exactly when the `int`s that hold lengths are large enough. -/
theorem inBounds_iff_fitsInt (args : SCAMPArgs K) (numWorkers : ℕ) (hn : 0 < numWorkers)
    (valid : args.validate = .ok ()) (htype : PerSubsequence args.profileType)
    (ha : args.profileA.type = args.profileType)
    (hb : args.keepRowsSeparate = true → args.profileB.type = args.profileType) :
    TilesInBounds args (OpInfo.ofArgs args numWorkers) ↔ FitsInt (OpInfo.ofArgs args numWorkers) := by
  have hcorner := corner_mem_getTiles hn valid
  have hf := tile_fits hn valid hcorner
  have hints := operationInts_isSome_iff (Nat.le_of_succ_le (Nat.le_of_succ_le hf.window)) hf.lenA hf.lenB
  constructor
  · rintro ⟨hsome, htiles⟩
    obtain ⟨-, hcols, hrows⟩ := hints.mp hsome
    have h := htiles _ hcorner
    refine ⟨h.tile_le hf, hcols, hrows, fun hty => ?_⟩
    obtain ⟨hw, hh⟩ := h.sums_le hty
    -- the first tile is the largest
    have hwidth : min (OpInfo.ofArgs args numWorkers).maxTileWidth (OpInfo.ofArgs args numWorkers).numCols ≤
        (tileDims (OpInfo.ofArgs args numWorkers) (0, 0)).width -
          (OpInfo.ofArgs args numWorkers).mpWindow + 1 := by
      rw [hf.maxWidth]
      simp only [tileDims, OpInfo.numCols]
      omega
    have hheight : min (OpInfo.ofArgs args numWorkers).maxTileHeight (OpInfo.ofArgs args numWorkers).numRows ≤
        (tileDims (OpInfo.ofArgs args numWorkers) (0, 0)).height -
          (OpInfo.ofArgs args numWorkers).mpWindow + 1 := by
      rw [hf.maxHeight, hf.maxWidth]
      simp only [tileDims, OpInfo.numRows]
      omega
    omega
  · intro hfit
    refine ⟨hints.mpr ⟨?_, hfit.columns, hfit.rows⟩, fun t ht =>
      tileInBounds_of_fits hn valid htype ha hb hfit ht⟩
    have := hfit.tile
    have := hf.tile
    have := hf.window
    omega

/-- **The ranges of the tiles.** For arguments that `validate` accepts, of one of the types that keep an
    entry for each subsequence, every tile has between one and `max_tile_width` subsequences on each side
    and touches its arrays inside their bounds exactly when the `int`s that hold lengths are large
    enough. -/
theorem tilesInBounds_iff (args : SCAMPArgs K) (numWorkers : ℕ) (hn : 0 < numWorkers)
    (valid : args.validate = .ok ()) (htype : PerSubsequence args.profileType)
    (ha : args.profileA.type = args.profileType)
    (hb : args.keepRowsSeparate = true → args.profileB.type = args.profileType) :
    TilesInBounds args (OpInfo.ofArgs args numWorkers) ↔ FitsInt (OpInfo.ofArgs args numWorkers) :=
  inBounds_iff_fitsInt args numWorkers hn valid htype ha hb

/-- A self-join in `SUM_THRESH` of a series of `3` windows, as the Python module makes it. -/
noncomputable def smallSums : SCAMPArgs ℝ := selfJoinArgs .sumThresh ⟨5, fun i => .finite i⟩ 3

theorem tilesInBounds_iff_small :
    0 < 1 ∧ smallSums.validate = .ok () ∧
      (TilesInBounds smallSums (OpInfo.ofArgs smallSums 1) ↔ FitsInt (OpInfo.ofArgs smallSums 1)) :=
  ⟨Nat.one_pos, by simp [smallSums, SCAMPArgs.validate, selfJoinArgs, getDefaultSCAMPArgs],
    tilesInBounds_iff smallSums 1 Nat.one_pos
      (by simp [smallSums, SCAMPArgs.validate, selfJoinArgs, getDefaultSCAMPArgs])
      (Or.inr (Or.inr rfl)) rfl (fun _ => rfl)⟩

/-- A self-join in `SUM_THRESH` of `2^28` windows with room for all of them in one tile. -/
noncomputable def hugeSums : SCAMPArgs ℝ :=
  { selfJoinArgs .sumThresh ⟨2 ^ 28 + 2, fun _ => .finite 0⟩ 3 with maxTileSize := 2 ^ 29 }

/-- `8 * 2^28` bytes are more than an `int` counts. -/
theorem hugeSums_overflows :
    ¬ ∀ (args : SCAMPArgs ℝ) (numWorkers : ℕ), 0 < numWorkers → args.validate = .ok () →
      PerSubsequence args.profileType → args.profileA.type = args.profileType →
      (args.keepRowsSeparate = true → args.profileB.type = args.profileType) →
      TilesInBounds args (OpInfo.ofArgs args numWorkers) := by
  intro h
  have hvalid : hugeSums.validate = .ok () := by
    simp [hugeSums, SCAMPArgs.validate, selfJoinArgs, getDefaultSCAMPArgs]
  have htiles := (h hugeSums 1 Nat.one_pos hvalid (Or.inr (Or.inr rfl)) rfl fun _ => rfl).2
  have hcorner := (htiles _ (corner_mem_getTiles Nat.one_pos hvalid)).sums_le rfl
  have hwidth : (tileDims (OpInfo.ofArgs hugeSums 1) (0, 0)).width = 2 ^ 28 + 2 := by
    simp [tileDims, OpInfo.ofArgs, hugeSums, selfJoinArgs, getDefaultSCAMPArgs, tileTsSize]
  have hwindow : (OpInfo.ofArgs hugeSums 1).mpWindow = 3 := rfl
  rw [hwidth, hwindow] at hcorner
  exact absurd hcorner.1 (by decide)

end

end Scamp
