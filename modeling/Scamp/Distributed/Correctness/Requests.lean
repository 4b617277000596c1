import Scamp.Distributed.Correctness.Lifecycle
import Scamp.Distributed.Correctness.Merges

/-!
# `Distributed.Correctness.Requests` — `CombineProfile` and any request

`CombineProfile` takes a request as it comes from a worker. Its checks compare the sizes of the tile with
those of the request, where the size of a profile is that of the array which the type in the request names.
The merge then reads the array of the type of the job.

The profiles of a job keep their sizes (`sizes_run`), so that the entries that a merge writes are always
there. The entries that it reads are there exactly when the types agree (`combineSafe_iff`).
-/

namespace Scamp

open Lib
open SCAMPProto (JobStatus)

section
variable {K : Type}

/-! ## Profiles -/

/-- The first block of a profile. -/
def SCAMPProto.Profile.first (p : SCAMPProto.Profile K) : SCAMPProto.ProfileData K := p.data.headD .notSet

/-- How many elements the array of a type has in a block. -/
def SCAMPProto.ProfileData.count (block : SCAMPProto.ProfileData K) : SCAMPProto.SCAMPProfileType → ℕ
  | .oneNNIndex => block.uint64Value.length
  | .oneNN => block.floatValue.length
  | .sumThresh => block.doubleValue.length
  | _ => 0

/-- The types that profiles of the server have. -/
def SCAMPProto.SCAMPProfileType.Supported : SCAMPProto.SCAMPProfileType → Prop
  | .oneNNIndex | .oneNN | .sumThresh => True
  | _ => False

/-- A profile with an array of `n` elements for its type. -/
def Sized (p : SCAMPProto.Profile K) (n : ℕ) : Prop :=
  p.data ≠ [] ∧ p.type.Supported ∧ p.first.count p.type = n

/-- `GetProfileSize` counts the elements for the type of the profile. -/
theorem sized_of_getProfileSize {p : SCAMPProto.Profile K} {n : ℕ} (h : getProfileSize p = some n) (hn : 0 < n) :
    Sized p n := by
  unfold getProfileSize at h
  cases hdata : p.data with
  | nil =>
      rw [hdata] at h
      have hzero : 0 = n := Option.some.inj h
      omega
  | cons block rest =>
      rw [hdata] at h
      unfold Sized SCAMPProto.Profile.first
      rw [hdata]
      refine ⟨List.cons_ne_nil _ _, ?_⟩
      cases htype : p.type with
      | oneNNIndex | oneNN | sumThresh =>
          rw [htype] at h
          exact ⟨trivial, Option.some.inj h⟩
      | _ =>
          rw [htype] at h
          cases h

/-- **The members of a `oneof`**: a block that has elements for one type has none for another. -/
theorem count_of_ne {block : SCAMPProto.ProfileData K} {type type' : SCAMPProto.SCAMPProfileType}
    (hpos : 0 < block.count type) (hne : type ≠ type') : block.count type' = 0 := by
  cases block <;> cases type <;> cases type' <;>
    first
      | rfl
      | exact absurd rfl hne
      | exact absurd hpos (Nat.lt_irrefl 0)

/-- What a profile keeps outside some entries: everything. -/
structure SameOutside (p p' : SCAMPProto.Profile K) (changed : ℕ → Prop) : Prop where
  type : p'.type = p.type
  rest : p'.data.tail = p.data.tail
  uint64 : ∀ k, ¬changed k → p'.first.uint64Value[k]? = p.first.uint64Value[k]?
  float : ∀ k, ¬changed k → p'.first.floatValue[k]? = p.first.floatValue[k]?
  double : ∀ k, ¬changed k → p'.first.doubleValue[k]? = p.first.doubleValue[k]?

theorem SameOutside.refl (p : SCAMPProto.Profile K) (changed : ℕ → Prop) : SameOutside p p changed :=
  ⟨rfl, rfl, fun _ _ => rfl, fun _ _ => rfl, fun _ _ => rfl⟩

theorem SameOutside.trans {p p' p'' : SCAMPProto.Profile K} {changed changed' : ℕ → Prop}
    (h : SameOutside p p' changed) (h' : SameOutside p' p'' changed') :
    SameOutside p p'' fun k => changed k ∨ changed' k where
  type := h'.type.trans h.type
  rest := h'.rest.trans h.rest
  uint64 k hk := (h'.uint64 k fun hc => hk (Or.inr hc)).trans (h.uint64 k fun hc => hk (Or.inl hc))
  float k hk := (h'.float k fun hc => hk (Or.inr hc)).trans (h.float k fun hc => hk (Or.inl hc))
  double k hk := (h'.double k fun hc => hk (Or.inr hc)).trans (h.double k fun hc => hk (Or.inl hc))

theorem SameOutside.mono {p p' : SCAMPProto.Profile K} {changed changed' : ℕ → Prop}
    (h : SameOutside p p' changed) (hle : ∀ k, changed k → changed' k) : SameOutside p p' changed' where
  type := h.type
  rest := h.rest
  uint64 k hk := h.uint64 k fun hc => hk (hle k hc)
  float k hk := h.float k fun hc => hk (hle k hc)
  double k hk := h.double k fun hc => hk (hle k hc)

/-! ## Merges -/

/-- An elementwise merge returns when all its accesses are inside the arrays. -/
theorem mergeInto_isSome {α : Type} (op : α → α → α) (mpFull toMerge : List α) (start len : ℕ) :
    (∃ out, mergeInto op mpFull start len toMerge = some out) ↔
      start + len ≤ mpFull.length ∧ len ≤ toMerge.length := by
  unfold mergeInto
  split
  · next h => exact iff_of_true ⟨_, rfl⟩ h
  · next h => exact iff_of_false (by simp) h

theorem mergeInto_outside {α : Type} {op : α → α → α} {mpFull toMerge out : List α} {start len : ℕ}
    (h : mergeInto op mpFull start len toMerge = some out) :
    out.length = mpFull.length ∧ ∀ k, ¬(start ≤ k ∧ k < start + len) → out[k]? = mpFull[k]? := by
  unfold mergeInto at h
  split at h
  · obtain rfl := Option.some.inj h
    refine ⟨by simp, fun k hk => ?_⟩
    rw [List.getElem?_mapIdx]
    simp [hk]
  · cases h

section
variable [Field K] [LinearOrder K]

variable (tile : SCAMPProto.Profile K) in
/-- **What a merge of a tile does to a profile** of `n` elements: when it returns, it changes only elements of
    the range, and keeps the size; it returns when the tile's array of the same type is long enough. -/
theorem mergeTile_spec {full : SCAMPProto.Profile K} {pos len n : ℕ} (off : ℕ) (hsized : Sized full n)
    (hfits : pos + len ≤ n) (hlen : 0 < len) :
    (∀ full', mergeTileIntoFullProfile tile pos len full off = some full' →
      Sized full' n ∧ SameOutside full full' fun k => pos ≤ k ∧ k < pos + len) ∧
    ((∃ full', mergeTileIntoFullProfile tile pos len full off = some full') ↔ len ≤ tile.first.count full.type) := by
  obtain ⟨hdata, htype, hcount⟩ := hsized
  obtain ⟨blocks, type⟩ := full
  obtain ⟨tileBlocks, tileType⟩ := tile
  unfold mergeTileIntoFullProfile
  cases blocks with
  | nil => exact absurd rfl hdata
  | cons block rest =>
      cases tileBlocks with
      | nil =>
          -- there is nothing to merge from
          refine ⟨by simp, iff_of_false (by simp) ?_⟩
          have hnone : SCAMPProto.ProfileData.count (.notSet : SCAMPProto.ProfileData K) type = 0 := by cases type <;> rfl
          show ¬len ≤ SCAMPProto.ProfileData.count .notSet type
          omega
      | cons tileBlock tileRest =>
          dsimp only at htype hcount ⊢
          have hn : 0 < n := by omega
          have hmap : ∀ {α β : Type} (o : Option α) (f : α → β), (∃ b, o.map f = some b) ↔ ∃ a, o = some a := by
            intro α β o f
            cases o <;> simp
          -- each type has an array of its own; the two others stay as they are
          cases type with
          | oneNNIndex =>
              obtain ⟨v, rfl⟩ : ∃ v, block = .uint64 v := by
                cases block with
                | uint64 v => exact ⟨v, rfl⟩
                | _ => exact absurd hcount (Nat.ne_of_lt hn)
              refine ⟨fun full' h => ?_, ?_⟩
              · obtain ⟨out, hout, rfl⟩ := Option.map_eq_some_iff.mp h
                obtain ⟨hlength, hget⟩ := mergeInto_outside hout
                exact ⟨⟨List.cons_ne_nil _ _, trivial, hlength.trans hcount⟩, rfl, rfl, hget, fun _ _ => rfl, fun _ _ => rfl⟩
              · rw [hmap]
                exact (mergeInto_isSome _ _ _ _ _).trans (and_iff_right (le_of_le_of_eq hfits hcount.symm))
          | oneNN =>
              obtain ⟨v, rfl⟩ : ∃ v, block = .float v := by
                cases block with
                | float v => exact ⟨v, rfl⟩
                | _ => exact absurd hcount (Nat.ne_of_lt hn)
              refine ⟨fun full' h => ?_, ?_⟩
              · obtain ⟨out, hout, rfl⟩ := Option.map_eq_some_iff.mp h
                obtain ⟨hlength, hget⟩ := mergeInto_outside hout
                exact ⟨⟨List.cons_ne_nil _ _, trivial, hlength.trans hcount⟩, rfl, rfl, fun _ _ => rfl, hget, fun _ _ => rfl⟩
              · rw [hmap]
                exact (mergeInto_isSome _ _ _ _ _).trans (and_iff_right (le_of_le_of_eq hfits hcount.symm))
          | sumThresh =>
              obtain ⟨v, rfl⟩ : ∃ v, block = .double v := by
                cases block with
                | double v => exact ⟨v, rfl⟩
                | _ => exact absurd hcount (Nat.ne_of_lt hn)
              refine ⟨fun full' h => ?_, ?_⟩
              · obtain ⟨out, hout, rfl⟩ := Option.map_eq_some_iff.mp h
                obtain ⟨hlength, hget⟩ := mergeInto_outside hout
                exact ⟨⟨List.cons_ne_nil _ _, trivial, hlength.trans hcount⟩, rfl, rfl, fun _ _ => rfl, fun _ _ => rfl, hget⟩
              · rw [hmap]
                exact (mergeInto_isSome _ _ _ _ _).trans (and_iff_right (le_of_le_of_eq hfits hcount.symm))
          | _ => exact htype.elim

/-- The rows of a tile go into `profile_b`. -/
def RowsToB (tileArgs jobArgs : SCAMPProto.SCAMPArgs K) : Prop :=
  tileArgs.keepRowsSeparate = true ∧ jobArgs.computingRows = true ∧ jobArgs.keepRowsSeparate = true

/-- The rows of a tile go into `profile_a`. -/
def RowsToA (tileArgs jobArgs : SCAMPProto.SCAMPArgs K) : Prop :=
  tileArgs.keepRowsSeparate = true ∧ ¬(jobArgs.computingRows = true ∧ jobArgs.keepRowsSeparate = true) ∧
    jobArgs.hasB = false

/-- The elements that a merge reads are in the request. -/
def ReadsPresent (tileArgs jobArgs request : SCAMPProto.SCAMPArgs K) (width height : ℕ) : Prop :=
  width ≤ request.profileA.first.count jobArgs.profileA.type ∧
    (RowsToB tileArgs jobArgs → height ≤ request.profileB.first.count jobArgs.profileB.type) ∧
    (RowsToA tileArgs jobArgs → height ≤ request.profileB.first.count jobArgs.profileA.type)

variable (tileArgs request : SCAMPProto.SCAMPArgs K) in
/-- **What `MergeProfile` does to the profiles of a job**, of `w` columns and `h` rows: it changes only entries of
    the tile, keeps the sizes, and returns when the elements that it reads are in the request. -/
theorem mergeProfile_spec {jobArgs : SCAMPProto.SCAMPArgs K} {col width row height w h : ℕ}
    (hA : Sized jobArgs.profileA w) (hB : jobArgs.keepRowsSeparate = true → Sized jobArgs.profileB h)
    (hself : jobArgs.hasB = false → h = w) (hcols : 0 < width ∧ col + width ≤ w)
    (hrows : 0 < height ∧ row + height ≤ h) :
    (∀ jobArgs', mergeProfile tileArgs jobArgs request.profileA col width request.profileB row height = some jobArgs' →
      Sized jobArgs'.profileA w ∧ (jobArgs.keepRowsSeparate = true → Sized jobArgs'.profileB h) ∧
      SameOutside jobArgs.profileA jobArgs'.profileA (fun k => (col ≤ k ∧ k < col + width) ∨
        RowsToA tileArgs jobArgs ∧ row ≤ k ∧ k < row + height) ∧
      SameOutside jobArgs.profileB jobArgs'.profileB fun k =>
        RowsToB tileArgs jobArgs ∧ row ≤ k ∧ k < row + height) ∧
    ((∃ jobArgs', mergeProfile tileArgs jobArgs request.profileA col width request.profileB row height = some jobArgs') ↔
      ReadsPresent tileArgs jobArgs request width height) := by
  obtain ⟨hspec, hreads⟩ := mergeTile_spec request.profileA row hA hcols.2 hcols.1
  unfold mergeProfile ReadsPresent RowsToA RowsToB
  cases hmerge : mergeTileIntoFullProfile request.profileA col width jobArgs.profileA row with
  | none =>
      refine ⟨by simp, iff_of_false (by simp) fun h => ?_⟩
      obtain ⟨p, hp⟩ := hreads.mpr h.1
      rw [hmerge] at hp
      cases hp
  | some profileA =>
      obtain ⟨hsizedA, hsameA⟩ := hspec profileA hmerge
      have hreadA := hreads.mp ⟨profileA, hmerge⟩
      have hcolsOnly : ∀ {Q : ℕ → Prop}, SameOutside jobArgs.profileA profileA fun k =>
          (col ≤ k ∧ k < col + width) ∨ Q k := fun {Q} => hsameA.mono fun k hk => Or.inl hk
      simp only [Option.bind_eq_bind, Option.bind_some, Option.pure_def]
      by_cases hkeep : tileArgs.keepRowsSeparate = true
      · rw [if_pos hkeep]
        by_cases hb : jobArgs.computingRows = true ∧ jobArgs.keepRowsSeparate = true
        · -- the rows go into `profile_b`
          rw [if_pos (by simpa using hb)]
          obtain ⟨hspecB, hreadsB⟩ := mergeTile_spec request.profileB col (hB hb.2) hrows.2 hrows.1
          have hiff : (∃ jobArgs', ((mergeTileIntoFullProfile request.profileB row height jobArgs.profileB col).bind
              fun profileB => some { jobArgs with profileA := profileA, profileB := profileB }) = some jobArgs') ↔
              height ≤ request.profileB.first.count jobArgs.profileB.type := by
            rw [← hreadsB]
            cases mergeTileIntoFullProfile request.profileB row height jobArgs.profileB col <;> simp
          refine ⟨fun jobArgs' h => ?_, hiff.trans ?_⟩
          · obtain ⟨profileB, hmergeB, h⟩ := Option.bind_eq_some_iff.mp h
            obtain rfl := Option.some.inj h
            obtain ⟨hsizedB, hsameB⟩ := hspecB profileB hmergeB
            exact ⟨hsizedA, fun _ => hsizedB, hcolsOnly, hsameB.mono fun k hk => ⟨⟨hkeep, hb⟩, hk⟩⟩
          · exact ⟨fun h => ⟨hreadA, fun _ => h, fun h' => absurd hb h'.2.1⟩, fun h => h.2.1 ⟨hkeep, hb⟩⟩
        · rw [if_neg (by simpa using hb)]
          by_cases hhasB : jobArgs.hasB = false
          · -- the rows go into `profile_a`, which holds both sides of a self-join
            rw [if_pos (by simpa using hhasB)]
            have hfits : row + height ≤ w := by
              have heq := hself hhasB
              omega
            obtain ⟨hspecB, hreadsB⟩ := mergeTile_spec request.profileB col hsizedA hfits hrows.1
            have hiff : (∃ jobArgs', ((mergeTileIntoFullProfile request.profileB row height profileA col).bind
                fun profileA' => some { jobArgs with profileA := profileA' }) = some jobArgs') ↔
                height ≤ request.profileB.first.count jobArgs.profileA.type := by
              rw [← hsameA.type, ← hreadsB]
              cases mergeTileIntoFullProfile request.profileB row height profileA col <;> simp
            refine ⟨fun jobArgs' h => ?_, hiff.trans ?_⟩
            · obtain ⟨profileA', hmergeB, h⟩ := Option.bind_eq_some_iff.mp h
              obtain rfl := Option.some.inj h
              obtain ⟨hsizedA', hsameA'⟩ := hspecB profileA' hmergeB
              refine ⟨hsizedA', fun hs => hB hs, (hsameA.trans hsameA').mono ?_, .refl _ _⟩
              rintro k (hk | hk)
              · exact Or.inl hk
              · exact Or.inr ⟨⟨hkeep, hb, hhasB⟩, hk⟩
            · exact ⟨fun h => ⟨hreadA, fun h' => absurd h'.2 hb, fun _ => h⟩, fun h => h.2.2 ⟨hkeep, hb, hhasB⟩⟩
          · rw [if_neg (by simpa using hhasB)]
            refine ⟨fun jobArgs' h => ?_, iff_of_true ⟨_, rfl⟩ ⟨hreadA, fun h' => absurd h'.2 hb,
              fun h' => absurd h'.2.2 hhasB⟩⟩
            obtain rfl := Option.some.inj h
            exact ⟨hsizedA, fun hs => hB hs, hcolsOnly, .refl _ _⟩
      · rw [if_neg hkeep]
        refine ⟨fun jobArgs' h => ?_, iff_of_true ⟨_, rfl⟩ ⟨hreadA, fun h' => absurd h'.1 hkeep,
          fun h' => absurd h'.1 hkeep⟩⟩
        obtain rfl := Option.some.inj h
        exact ⟨hsizedA, fun hs => hB hs, hcolsOnly, .refl _ _⟩

/-! ## Tiles and profiles of a job -/

/-- A tile whose rows and columns are in the matrix, as the merge sees them. -/
structure TilePlaced (args : SCAMPProto.SCAMPArgs K) (tile : DistributedTile K) : Prop where
  cols : 0 < uint64 tile.width ∧ uint64 tile.startCol + uint64 tile.width ≤ args.width.toNat
  rows : 0 < uint64 tile.height ∧ uint64 tile.startRow + uint64 tile.height ≤ args.height.toNat
  width : (uint64 tile.width : ℤ) = tile.width
  height : (uint64 tile.height : ℤ) = tile.height

theorem uint64_mul {c : ℕ} {x : ℤ} (h : c * uint64 x < 2 ^ 64) : uint64 (c * x) = c * uint64 x := by
  have hx : (uint64 x : ℤ) = x % 2 ^ 64 := Int.toNat_of_nonneg (Int.emod_nonneg x (by norm_num))
  have hmod : ((c : ℤ) * x) % 2 ^ 64 = c * uint64 x := by
    rw [Int.mul_emod, ← hx, ← Nat.cast_ofNat, ← Nat.cast_pow, ← Int.natCast_mod, ← Nat.cast_mul, ← Int.natCast_mod,
      Nat.mod_mul_mod, Nat.mod_eq_of_lt h, Nat.cast_mul]
  unfold uint64 at hmod ⊢
  rw [hmod]
  exact_mod_cast rfl

omit [LinearOrder K] in
/-- A tile that was given its arguments. -/
theorem tilePlaced {args : SCAMPProto.SCAMPArgs K} {jobId : ℤ} {profileA profileB : SCAMPProto.Profile K}
    (hsize : uint64 args.distributedTileSize ≠ 0) {k : ℕ}
    (hk : k < (Job.sized args jobId profileA profileB).makeTiles.tileCounter) {tile : DistributedTile K}
    (hplace : tile.place = ((Job.sized args jobId profileA profileB).makeTiles.tiles k).place)
    (hgiven : tile.given = (((Job.sized args jobId profileA profileB).makeTiles.tiles k).generateArgs
      (Job.sized args jobId profileA profileB).makeTiles.jobArgs).1.given) : TilePlaced args tile := by
  obtain ⟨r, c, -, hr, hc, hat⟩ := sized_place jobId profileA profileB hsize hk
  obtain ⟨-, hrow, hcol, hheight, hwidth⟩ : _ ∧ _ ∧ _ ∧ _ ∧ _ := by
    simpa only [DistributedTile.place, Prod.mk.injEq] using hplace.trans hat
  obtain ⟨-, hrow', hcol', -, -⟩ : _ ∧ _ ∧ _ ∧ _ ∧ _ := by
    simpa only [DistributedTile.place, Prod.mk.injEq] using hat
  obtain ⟨-, hstartRow, hstartCol, -⟩ : _ ∧ _ ∧ _ ∧ _ := by
    simpa only [DistributedTile.given, Prod.mk.injEq] using hgiven
  have hheightLt := height_lt args
  have hwidthLt : args.width < 2 ^ 63 := int64_lt _
  obtain ⟨D, hD⟩ : ∃ D, D = uint64 args.distributedTileSize := ⟨_, rfl⟩
  rw [← hD] at hr hc hheight hwidth hsize
  -- block `(r, c)` starts inside the matrix, so that nothing overflows
  have hr' : r * D < args.height.toNat := by
    zify
    omega
  have hc' : c * D < args.width.toNat := by
    zify
    omega
  have hstartRow' : uint64 tile.startRow = r * D := by
    rw [hstartRow, hD, ← uint64_mul (by rw [← hD]; omega), ← hrow']
    rfl
  have hstartCol' : uint64 tile.startCol = c * D := by
    rw [hstartCol, hD, ← uint64_mul (by rw [← hD]; omega), ← hcol']
    rfl
  have hrD : ((r * D : ℕ) : ℤ) = r * D := Nat.cast_mul r D
  have hcD : ((c * D : ℕ) : ℤ) = c * D := Nat.cast_mul c D
  rw [← hrD] at hheight
  rw [← hcD] at hwidth
  have hheight' : (uint64 tile.height : ℤ) = tile.height := uint64_of_range (by omega) (by omega)
  have hwidth' : (uint64 tile.width : ℤ) = tile.width := uint64_of_range (by omega) (by omega)
  refine ⟨⟨by omega, ?_⟩, ⟨by omega, ?_⟩, hwidth', hheight'⟩
  · rw [hstartCol']
    omega
  · rw [hstartRow']
    omega

/-- The profiles of a job have the sizes of its matrix, if it has cells. -/
def SizedProfiles (args jobArgs : SCAMPProto.SCAMPArgs K) : Prop :=
  0 < args.width → 0 < args.height → Sized jobArgs.profileA args.width.toNat ∧
    (jobArgs.keepRowsSeparate = true → Sized jobArgs.profileB args.height.toNat)

theorem sized_allocate {p p' : SCAMPProto.Profile K} {type : SCAMPProto.SCAMPProfileType} {size : ℤ}
    (h : Job.allocateProfile p type size = some (p', true)) (hsize : 0 < size) : Sized p' size.toNat := by
  unfold Job.allocateProfile at h
  dsimp only at h
  obtain ⟨z, hz, heq⟩ := Option.map_eq_some_iff.mp h
  obtain ⟨n, hn, rfl⟩ : ∃ n, getProfileSize p' = some n ∧ (n : ℤ) = z := by
    obtain ⟨n, hn, hnz⟩ := Option.bind_eq_some_iff.mp hz
    rw [(Prod.mk.inj heq).1] at hn
    exact ⟨n, hn, Option.some.inj hnz⟩
  have hfits : (n : ℤ) = size := by simpa using (Prod.mk.inj heq).2
  have hsizeNat : size.toNat = n := by omega
  rw [hsizeNat]
  exact sized_of_getProfileSize hn (by omega)

omit [Field K] [LinearOrder K] in
/-- The settings of a job do not change, as far as merges need them. -/
theorem settings_eq {args args' : SCAMPProto.SCAMPArgs K} (h : args'.settings = args.settings) :
    args'.hasB = args.hasB ∧ args'.computingRows = args.computingRows ∧
      args'.keepRowsSeparate = args.keepRowsSeparate := by
  have hhasB : args'.settings.hasB = args.settings.hasB := by rw [h]
  have hrows : args'.settings.computingRows = args.settings.computingRows := by rw [h]
  have hkeep : args'.settings.keepRowsSeparate = args.settings.keepRowsSeparate := by rw [h]
  exact ⟨hhasB, hrows, hkeep⟩

variable {args : SCAMPProto.SCAMPArgs K} {jobId : ℤ} {start job : Job K} {trace : List (Call K × Reply K)}

/-- **The profiles of a job keep the sizes of its matrix**, whatever is merged. -/
theorem sizes_run {P : Job K → Call K → Prop} {profileA profileB : SCAMPProto.Profile K}
    (hprofiles : Profiles args profileA profileB) (hsize : uint64 args.distributedTileSize ≠ 0)
    (hrun : Job.Run P (Job.sized args jobId profileA profileB).makeTiles trace job) :
    SizedProfiles args job.jobArgs := by
  refine (merge_run (Q := fun _ jobArgs => SizedProfiles args jobArgs) (fun _ => rfl) (fun _ => rfl) ?_ ?_ hrun).2
  · intro hwidth hheight
    exact ⟨sized_allocate hprofiles.a hwidth, fun hkeep => sized_allocate (hprofiles.b hkeep) hheight⟩
  · rintro s merged request now id jobArgs hsame hQ - - hid - hmerge hwidth hheight
    obtain ⟨hA, hB⟩ := hQ hwidth hheight
    obtain ⟨hhasB, -, hkeep⟩ := settings_eq hsame.settings
    have hplaced : TilePlaced args (((Job.sized args jobId profileA profileB).makeTiles.tiles id).generateArgs
        (Job.sized args jobId profileA profileB).makeTiles.jobArgs).1 := tilePlaced hsize hid rfl rfl
    have hself : s.jobArgs.hasB = false → args.height.toNat = args.width.toNat := by
      intro hs
      unfold SCAMPProto.SCAMPArgs.height
      rw [if_neg]
      rw [hhasB] at hs
      exact Bool.eq_false_iff.mp hs
    have hspec := (mergeProfile_spec _ request hA hB hself hplaced.cols hplaced.rows).1 jobArgs hmerge
    obtain ⟨profileA', profileB', rfl⟩ := mergeProfile_settings hmerge
    exact ⟨hspec.1, hspec.2.1⟩

/-! ## Any request -/

omit [Field K] [LinearOrder K] in
/-- **What the checks say of a request**: its profiles have the sizes of the tile, each by its own type. -/
theorem accepts_sizes {tile : DistributedTile K} {request : SCAMPProto.SCAMPArgs K}
    (h : Job.acceptsResult tile request = some true) :
    (∃ n : ℕ, getProfileSize request.profileA = some n ∧ (n : ℤ) = tile.width) ∧
      (tile.args.keepRowsSeparate = true → ∃ n : ℕ, getProfileSize request.profileB = some n ∧ (n : ℤ) = tile.height) := by
  unfold Job.acceptsResult at h
  simp only [Option.bind_eq_bind, Option.pure_def] at h
  generalize (if request.hasB = true then uint64 (request.timeseriesSizeB - request.window + 1)
    else uint64 (request.timeseriesSizeA - request.window + 1)) = height at h
  iterate 6
    split at h
    · cases h
  obtain ⟨n, hn, h⟩ := Option.bind_eq_some_iff.mp h
  split at h
  · cases h
  · next hwidth =>
      refine ⟨⟨n, hn, not_not.mp hwidth⟩, fun hkeep => ?_⟩
      rw [if_pos hkeep] at h
      obtain ⟨m, hm, h⟩ := Option.bind_eq_some_iff.mp h
      exact ⟨m, hm, by simpa using h⟩

/-- The request names the types of the profiles that it is merged into. -/
def TypesMatch (tileArgs jobArgs request : SCAMPProto.SCAMPArgs K) : Prop :=
  request.profileA.type = jobArgs.profileA.type ∧
    (RowsToB tileArgs jobArgs → request.profileB.type = jobArgs.profileB.type) ∧
    (RowsToA tileArgs jobArgs → request.profileB.type = jobArgs.profileA.type)

omit [Field K] [LinearOrder K] in
/-- A profile of some size has the elements of the type it names, and of no other. -/
theorem count_iff {p : SCAMPProto.Profile K} {n : ℕ} (h : Sized p n) (hn : 0 < n)
    (type : SCAMPProto.SCAMPProfileType) : n ≤ p.first.count type ↔ p.type = type := by
  obtain ⟨-, -, hcount⟩ := h
  constructor
  · intro hle
    by_contra hne
    have hzero := count_of_ne (hcount.symm ▸ hn) hne
    omega
  · rintro rfl
    exact hcount.ge

/-- An entry for a column of the tile. -/
def DistributedTile.HasCol (tile : DistributedTile K) (k : ℕ) : Prop :=
  uint64 tile.startCol ≤ k ∧ k < uint64 tile.startCol + uint64 tile.width

/-- An entry for a row of the tile. -/
def DistributedTile.HasRow (tile : DistributedTile K) (k : ℕ) : Prop :=
  uint64 tile.startRow ≤ k ∧ k < uint64 tile.startRow + uint64 tile.height

/-- The profiles change only at the columns and the rows of the tile. -/
structure ProfilesMerged (tile : DistributedTile K) (jobArgs jobArgs' : SCAMPProto.SCAMPArgs K) : Prop where
  profileA : SameOutside jobArgs.profileA jobArgs'.profileA fun k =>
    tile.HasCol k ∨ RowsToA tile.args jobArgs ∧ tile.HasRow k
  profileB : SameOutside jobArgs.profileB jobArgs'.profileB fun k => RowsToB tile.args jobArgs ∧ tile.HasRow k

/-- What an accepted request changes: the tile is finished and counted, and the profiles have its result. -/
structure MergedOnly (job job' : Job K) (id : ℕ) (now : ℤ) : Prop where
  rest : ∃ profileA profileB, job' = { job with
      jobArgs := { job.jobArgs with profileA := profileA, profileB := profileB }
      tilesCompleted := job.tilesCompleted + 1 }.setTile id { job.tiles id with status := .finished, endTime := now }
  profiles : ProfilesMerged (job.tiles id) job.jobArgs job'.jobArgs

/-- **What `CombineProfile` should do with a request.** If it refuses, nothing has changed; if it does not
    return, then because a check threw, before anything is written; if the checks pass, the elements that it
    reads are in the request; if it accepts, it changes the tile and its entries. -/
structure CombineSafe (job : Job K) (request : SCAMPProto.SCAMPArgs K) (now : ℤ) : Prop where
  refused : ∀ job', job.combineProfile request now = some (job', false) → job' = job
  returns : job.combineProfile request now = none →
    ∃ id < job.tileCounter, int32 request.tileId = id ∧ Job.acceptsResult (job.tiles id) request = none
  reads : ∀ id < job.tileCounter, int32 request.tileId = id →
    Job.acceptsResult (job.tiles id) request = some true →
      ReadsPresent (job.tiles id).args job.jobArgs request (uint64 (job.tiles id).width) (uint64 (job.tiles id).height)
  accepted : ∀ job', job.combineProfile request now = some (job', true) →
    ∃ id < job.tileCounter, int32 request.tileId = id ∧ MergedOnly job job' id now

/-- The profiles of the job with a result for tile `id`. -/
def Job.mergedArgs (job : Job K) (id : ℕ) (request : SCAMPProto.SCAMPArgs K) : Option (SCAMPProto.SCAMPArgs K) :=
  mergeProfile (job.tiles id).args job.jobArgs request.profileA (uint64 (job.tiles id).startCol)
    (uint64 (job.tiles id).width) request.profileB (uint64 (job.tiles id).startRow) (uint64 (job.tiles id).height)

/-- **A request that passes the checks**: its merge changes only entries of the tile, it returns when the
    elements that it reads are in the request, and they are when the types agree. -/
theorem mergedArgs_spec (hcreate : Job.create args jobId = some start)
    (hrun : Job.Run (fun _ _ => True) start trace job) {request : SCAMPProto.SCAMPArgs K} {id : ℕ}
    (hid : id < job.tileCounter) (haccepts : Job.acceptsResult (job.tiles id) request = some true) :
    (∀ jobArgs', job.mergedArgs id request = some jobArgs' → ProfilesMerged (job.tiles id) job.jobArgs jobArgs') ∧
    ((∃ jobArgs', job.mergedArgs id request = some jobArgs') ↔ ReadsPresent (job.tiles id).args job.jobArgs request
      (uint64 (job.tiles id).width) (uint64 (job.tiles id).height)) ∧
    (ReadsPresent (job.tiles id).args job.jobArgs request (uint64 (job.tiles id).width)
      (uint64 (job.tiles id).height) ↔ TypesMatch (job.tiles id).args job.jobArgs request) := by
  have hids := (create_start hcreate).2.1
  have hsame := (run_refines hids (run_allowed hrun)).1
  rcases create_cases hcreate with ⟨hrejected, -⟩ | ⟨profileA, profileB, hprofiles, hstart⟩
  · rw [hsame.count, hrejected.count] at hid
    exact absurd hid (Nat.not_lt_zero id)
  · subst hstart
    have hidStart : id < (Job.sized args jobId profileA profileB).makeTiles.tileCounter := hsame.count ▸ hid
    have hsize : uint64 args.distributedTileSize ≠ 0 := by
      intro hzero
      rw [sized_count_zero jobId profileA profileB hzero] at hidStart
      exact Nat.not_lt_zero id hidStart
    -- the tile has its arguments, since the request was accepted
    have hgiven := (hsame.given id).resolve_left fun hg => by
      have hargs := (accepts_cases haccepts).1
      have heq : (job.tiles id).hasArgs = false := congrArg Prod.fst hg
      rw [hargs] at heq
      cases heq
    have hplaced : TilePlaced args (job.tiles id) := tilePlaced hsize hidStart (hsame.place id) hgiven
    obtain ⟨hcols, hrows, hwidth, hheight⟩ := hplaced
    obtain ⟨hA, hB⟩ := sizes_run hprofiles hsize hrun (by omega) (by omega)
    obtain ⟨hhasB, -, -⟩ := settings_eq hsame.settings
    have hself : job.jobArgs.hasB = false → args.height.toNat = args.width.toNat := by
      intro hs
      unfold SCAMPProto.SCAMPArgs.height
      rw [if_neg]
      rw [hhasB] at hs
      exact Bool.eq_false_iff.mp hs
    obtain ⟨hmerge, hreads⟩ := mergeProfile_spec (job.tiles id).args request hA hB hself hcols hrows
    refine ⟨fun jobArgs' h => ⟨(hmerge jobArgs' h).2.2.1, (hmerge jobArgs' h).2.2.2⟩, hreads, ?_⟩
    -- what was accepted has the sizes of the tile, for the types it names
    obtain ⟨⟨n, hn, hnwidth⟩, hrowsSize⟩ := accepts_sizes haccepts
    obtain rfl : n = uint64 (job.tiles id).width := by omega
    have hsizedA := sized_of_getProfileSize hn hcols.1
    have hsizedB : (job.tiles id).args.keepRowsSeparate = true →
        Sized request.profileB (uint64 (job.tiles id).height) := by
      intro hkeep
      obtain ⟨m, hm, hmheight⟩ := hrowsSize hkeep
      obtain rfl : m = uint64 (job.tiles id).height := by omega
      exact sized_of_getProfileSize hm hrows.1
    unfold ReadsPresent TypesMatch
    refine and_congr (count_iff hsizedA hcols.1 _) (and_congr ?_ ?_)
    · exact forall_congr' fun h => count_iff (hsizedB h.1) hrows.1 _
    · exact forall_congr' fun h => count_iff (hsizedB h.1) hrows.1 _

/-- **Which requests are safe.** In every state that calls reach and for every request: exactly those which
    fail a check, or name the types of the profiles they are merged into. -/
theorem combineSafe_iff (hcreate : Job.create args jobId = some start)
    (hrun : Job.Run (fun _ _ => True) start trace job) (request : SCAMPProto.SCAMPArgs K) (now : ℤ) :
    CombineSafe job request now ↔
      ∀ id < job.tileCounter, int32 request.tileId = id → Job.acceptsResult (job.tiles id) request = some true →
        TypesMatch (job.tiles id).args job.jobArgs request := by
  constructor
  · intro h id hid htile haccepts
    exact (mergedArgs_spec hcreate hrun hid haccepts).2.2.mp (h.reads id hid htile haccepts)
  · intro h
    have hreads : ∀ id < job.tileCounter, int32 request.tileId = id →
        Job.acceptsResult (job.tiles id) request = some true →
        ReadsPresent (job.tiles id).args job.jobArgs request (uint64 (job.tiles id).width)
          (uint64 (job.tiles id).height) := fun id hid htile haccepts =>
      (mergedArgs_spec hcreate hrun hid haccepts).2.2.mpr (h id hid htile haccepts)
    refine ⟨fun job' hcombine => ?_, fun hnone => ?_, hreads, fun job' hcombine => ?_⟩
    · rcases combine_cases hcombine with ⟨-, rfl⟩ | ⟨hfalse, -⟩
      · rfl
      · cases hfalse
    · -- a call that does not return stops at the check: the merge would return
      unfold Job.combineProfile at hnone
      simp only [Option.bind_eq_bind, Option.pure_def] at hnone
      split at hnone
      · cases hnone
      · next hrange =>
          push Not at hrange
          obtain ⟨id, hid⟩ := Int.eq_ofNat_of_zero_le hrange.1
          rw [hid, Int.toNat_natCast] at hnone
          have hlt : id < job.tileCounter := by omega
          refine ⟨id, hlt, hid, ?_⟩
          cases haccepts : Job.acceptsResult (job.tiles id) request with
          | none => rfl
          | some accepted =>
              rw [haccepts] at hnone
              cases accepted with
              | false => cases hnone
              | true =>
                  obtain ⟨jobArgs', hmerged⟩ := (mergedArgs_spec hcreate hrun hlt haccepts).2.1.mpr (hreads id hlt hid haccepts)
                  unfold Job.mergedArgs at hmerged
                  simp [hmerged] at hnone
    · rcases combine_cases hcombine with ⟨hfalse, -⟩ | ⟨-, id, hid, htile, haccepts, jobArgs', hmerged, rfl⟩
      · cases hfalse
      · have hprofiles := (mergedArgs_spec hcreate hrun hid haccepts).1 jobArgs' hmerged
        obtain ⟨profileA, profileB, rfl⟩ := mergeProfile_settings hmerged
        exact ⟨id, hid, htile, ⟨profileA, profileB, rfl⟩, hprofiles⟩

end

theorem combineSafe_iff_oneTile : ∃ job args, Job.Run (fun _ _ => True) oneTileJob
    [(.fetchReadyTile [0] 0 1, .work (some args))] job ∧ CombineSafe job oneTileResult 1 := by
  have hrun : ∃ job args, Job.Run (fun _ _ => True) oneTileJob
      [(.fetchReadyTile [0] 0 1, .work (some args))] job ∧ job.jobArgs.profileA.type = .oneNNIndex ∧
      job.tileCounter = 1 ∧ (job.tiles 0).args.keepRowsSeparate = false := by
    exact ⟨_, _, Trace.nil.snoc ⟨.refl _, trivial, rfl⟩, rfl, rfl, rfl⟩
  obtain ⟨job, args, hrun, htype, hcount, hkeep⟩ := hrun
  refine ⟨job, args, hrun, (combineSafe_iff create_oneTile hrun oneTileResult 1).mpr ?_⟩
  intro id hid _ _
  obtain rfl : id = 0 := by omega
  refine ⟨htype.symm, fun h => ?_, fun h => ?_⟩
  · exact absurd (hkeep.symm.trans h.1) (by decide)
  · exact absurd (hkeep.symm.trans h.1) (by decide)

/-- A result of the right size and the wrong type. -/
def wrongTypeResult : SCAMPProto.SCAMPArgs ℚ :=
  { oneTileResult with profileA := ⟨[.float [.num 0, .num 0]], .oneNN⟩ }

/-- **A request that is read past its end.** It passes the checks, and the array that the merge reads has no
    elements. -/
theorem wrongType_overruns : ∃ job args, Job.create oneTileArgs 0 = some oneTileJob ∧ Job.Run (fun _ _ => True) oneTileJob
    [(.fetchReadyTile [0] 0 1, .work (some args))] job ∧
    Job.acceptsResult (job.tiles 0) wrongTypeResult = some true ∧ (job.tiles 0).width = 2 ∧
    wrongTypeResult.profileA.first.count job.jobArgs.profileA.type = 0 ∧
    job.combineProfile wrongTypeResult 1 = none ∧ ¬CombineSafe job wrongTypeResult 1 := by
  have hrun : ∃ job args, Job.Run (fun _ _ => True) oneTileJob
      [(.fetchReadyTile [0] 0 1, .work (some args))] job ∧
      Job.acceptsResult (job.tiles 0) wrongTypeResult = some true ∧ (job.tiles 0).width = 2 ∧
      wrongTypeResult.profileA.first.count job.jobArgs.profileA.type = 0 ∧
      job.combineProfile wrongTypeResult 1 = none ∧ job.tileCounter = 1 := by
    exact ⟨_, _, Trace.nil.snoc ⟨.refl _, trivial, rfl⟩, rfl, rfl, rfl, rfl, rfl⟩
  obtain ⟨job, args, hrun, haccepts, hwidth, hcount, hnone, htiles⟩ := hrun
  refine ⟨job, args, create_oneTile, hrun, haccepts, hwidth, hcount, hnone, fun h => ?_⟩
  have hreads := (h.reads 0 (by omega) rfl haccepts).1
  rw [hcount, hwidth] at hreads
  revert hreads
  decide

end

end Scamp
