import Scamp.Core.Correctness.Workers

/-!
# `Core.Correctness.Merging` — what the profiles take in during a run

Every tile is queued, in the hands of one worker, or merged, and merged once into each profile; a profile
entry has taken in exactly what the merged tiles offer it (`RunInv`). A worker's tile is seeded from the
profiles while other workers merge into them, which does no harm as long as each seed is no better than
the entry it will be merged into: it stays so while that entry takes in more. Every seed of the columns is
copied from the profile the tile will be merged into, and so is every seed of the rows, unless the type is
`PROFILE_TYPE_1NN` and the rows are kept separate (`GoodSeed`, `goodSeed_of_same`).

At the end all tiles are merged (`returned_entry`), and what they offer an entry are the compared cells of
its column or row (`hitsOf_offered`).
-/

namespace Scamp

open Lib

section
variable {K : Type} [Field K] [LinearOrder K] [HasSqrt K] (J : Join K) (U : ℕ)

/-! ## What the tiles offer an entry -/

/-- What the tile at `t` offers entry `k` along the columns, with the positions of the whole matrix. -/
def columnOffer (t : TilePos) (k : ℕ) : Multiset (Block K) :=
  if t.2 * J.info.maxTileWidth ≤ k ∧ k < t.2 * J.info.maxTileWidth + tileNumCols J.info t then
    shiftBlocks (t.1 * J.info.maxTileWidth) (tileBlocksA J U t (k - t.2 * J.info.maxTileWidth))
  else 0

/-- What the tile at `t` offers entry `k` along the rows. -/
def rowOffer (t : TilePos) (k : ℕ) : Multiset (Block K) :=
  if t.1 * J.info.maxTileWidth ≤ k ∧ k < t.1 * J.info.maxTileWidth + tileNumRows J.info t then
    shiftBlocks (t.2 * J.info.maxTileWidth) (tileBlocksB J U t (k - t.1 * J.info.maxTileWidth))
  else 0

/-- What tiles offer entry `k` of a profile: the column profiles of `doneA` go into `profile_a`, the row
    profiles of `doneB` to where `MergeProfile` puts them. -/
def offered (side : Side) (doneA doneB : Multiset TilePos) (k : ℕ) : Multiset (Block K) :=
  (if side = .a then doneA.bind fun t => columnOffer J U t k else 0) +
    if Tile.mergeTargetB J.info = some side then doneB.bind fun t => rowOffer J U t k else 0

/-- The profile is one that tiles are merged into. -/
def Computed (side : Side) : Prop := side = .a ∨ Tile.mergeTargetB J.info = some side

variable {J U}

theorem offered_zero (side : Side) (k : ℕ) : offered J U side 0 0 k = 0 := by
  unfold offered
  rw [Multiset.zero_bind, Multiset.zero_bind, ite_self, ite_self, add_zero]

theorem offered_add (side : Side) (doneA doneB newA newB : Multiset TilePos) (k : ℕ) :
    offered J U side (doneA + newA) (doneB + newB) k =
      offered J U side doneA doneB k + offered J U side newA newB k := by
  unfold offered
  split_ifs <;> (simp only [Multiset.add_bind, add_zero, zero_add]; try abel)

omit [HasSqrt K] in
/-- The rows are only merged when they are computed. -/
theorem rows_of_target {side : Side} (h : Tile.mergeTargetB J.info = some side) :
    J.info.computingRows = true := by
  unfold Tile.mergeTargetB at h
  split at h
  · next hrows => exact (Bool.and_eq_true_iff.mp hrows).1
  · split at h
    · next hrows => exact (Bool.and_eq_true_iff.mp hrows).2
    · cases h

end

section
variable {K : Type} [Field K] [LinearOrder K] [HasSqrt K] {J : Join K} {bld : Build K}
  (R : Absorption bld J.info.profileType J.info.threshold)

/-! ## Seeds -/

/-- What a worker has gathered in its tile: first seeds, then what the tile offers. The entries of the
    profiles it compares with are those of the present. -/
structure Gathering (g : Shared K) (w : Worker K) : Prop where
  noCopies : ∀ a b, w.phase = .seeding a b → J.info.profileType = .sumThresh → a = [] ∧ b = []
  seedA : ∀ a b, w.phase = .seeding a b → ∀ i < tileNumCols J.info w.pos, i ∉ a →
    R.seedOK (w.tile.profileATileDev i) (g.profileA.data.get (w.pos.2 * J.info.maxTileWidth + i))
  seedB : ∀ a b, w.phase = .seeding a b → ∀ side, Tile.mergeTargetB J.info = some side →
    ∀ r < tileNumRows J.info w.pos, r ∉ b →
      R.seedOK (w.tile.profileBTileDev r) ((g.profile side).data.get (w.pos.1 * J.info.maxTileWidth + r))
  gatheredA : ∀ last, w.phase = .mergingA last → ∀ i < tileNumCols J.info w.pos,
    ∃ e, R.seedOK e (g.profileA.data.get (w.pos.2 * J.info.maxTileWidth + i)) ∧
      R.rel e (tileBlocksA J bld.unrollWid w.pos i) (w.tile.profileATileDev i)
  gatheredB : ∀ last, w.phase = .mergingA last ∨ w.phase = .mergingB last →
    ∀ side, Tile.mergeTargetB J.info = some side → ∀ r < tileNumRows J.info w.pos,
      ∃ e, R.seedOK e ((g.profile side).data.get (w.pos.1 * J.info.maxTileWidth + r)) ∧
        R.rel e (tileBlocksB J bld.unrollWid w.pos r) (w.tile.profileBTileDev r)

variable {R}

/-- What a worker has gathered stays good while the profiles take in more. -/
theorem Gathering.mono {g g' : Shared K} {w : Worker K} (h : Gathering R g w)
    (hmore : ∀ side, Computed J side → ∀ k, ∃ bs,
      R.rel ((g.profile side).data.get k) bs ((g'.profile side).data.get k)) : Gathering R g' w where
  noCopies := h.noCopies
  seedA a b hw i hi hdone := by
    obtain ⟨bs, hbs⟩ := hmore .a (Or.inl rfl) (w.pos.2 * J.info.maxTileWidth + i)
    exact R.seed_mono (h.seedA a b hw i hi hdone) hbs
  seedB a b hw side hside r hr hdone := by
    obtain ⟨bs, hbs⟩ := hmore side (Or.inr hside) (w.pos.1 * J.info.maxTileWidth + r)
    exact R.seed_mono (h.seedB a b hw side hside r hr hdone) hbs
  gatheredA last hw i hi := by
    obtain ⟨bs, hbs⟩ := hmore .a (Or.inl rfl) (w.pos.2 * J.info.maxTileWidth + i)
    obtain ⟨e, he, hrel⟩ := h.gatheredA last hw i hi
    exact ⟨e, R.seed_mono he hbs, hrel⟩
  gatheredB last hw side hside r hr := by
    obtain ⟨bs, hbs⟩ := hmore side (Or.inr hside) (w.pos.1 * J.info.maxTileWidth + r)
    obtain ⟨e, he, hrel⟩ := h.gatheredB last hw side hside r hr
    exact ⟨e, R.seed_mono he hbs, hrel⟩

/-- A worker that holds no tile has gathered nothing. -/
theorem gathering_idle (g : Shared K) {w : Worker K} (h : w.phase.holding = false) : Gathering R g w where
  noCopies a b hw := by
    rw [hw] at h
    cases h
  seedA a b hw := by
    rw [hw] at h
    cases h
  seedB a b hw := by
    rw [hw] at h
    cases h
  gatheredA last hw := by
    rw [hw] at h
    cases h
  gatheredB last hw := by
    rcases hw with hw | hw <;>
      · rw [hw] at h
        cases h

section
variable (htype : entryType J.info.profileType = true)
include htype

omit [HasSqrt K] in
theorem initProfileA_cases (t : TileDims) (size : ℕ) :
    (J.info.profileType = .sumThresh ∧ initProfileA J.info t size = .zero) ∨
      (J.info.profileType ≠ .sumThresh ∧
        initProfileA J.info t size = .copy .a t.col (t.width - J.info.mpWindow + 1)) := by
  unfold initProfileA
  cases ht : J.info.profileType with
  | oneNNIndex => exact Or.inr ⟨nofun, rfl⟩
  | oneNN => exact Or.inr ⟨nofun, rfl⟩
  | sumThresh => exact Or.inl ⟨rfl, rfl⟩
  | _ => exact absurd (ht ▸ htype) (by decide)

omit [HasSqrt K] in
/-- **Where the row seeds come from**: from the profile the rows are merged into, but for `PROFILE_TYPE_1NN`
    with separate rows. -/
theorem initProfileB_cases {side : Side} (hside : Tile.mergeTargetB J.info = some side) (t : TileDims) :
    (J.info.profileType = .sumThresh ∧ initProfileB J.info t = .zero) ∨
      (J.info.profileType ≠ .sumThresh ∧ ∃ source,
        initProfileB J.info t = .copy source t.row (t.height - J.info.mpWindow + 1) ∧
          (source = side ∨ J.info.profileType = .oneNN ∧ J.info.keepRowsSeparate = true)) := by
  unfold Tile.mergeTargetB at hside
  unfold initProfileB
  cases hkeep : J.info.computingRows && J.info.keepRowsSeparate with
  | true =>
      have hk := (Bool.and_eq_true_iff.mp hkeep).2
      rw [hkeep, if_pos rfl] at hside
      obtain rfl : Side.b = side := Option.some.inj hside
      cases ht : J.info.profileType with
      | oneNNIndex => exact Or.inr ⟨nofun, .b, rfl, Or.inl rfl⟩
      | oneNN =>
          refine Or.inr ⟨nofun, ?_⟩
          dsimp only
          split
          · exact ⟨.a, rfl, Or.inr ⟨rfl, hk⟩⟩
          · exact ⟨.b, rfl, Or.inl rfl⟩
      | sumThresh => exact Or.inl ⟨rfl, rfl⟩
      | _ => exact absurd (ht ▸ htype) (by decide)
  | false =>
      rw [hkeep, if_neg Bool.false_ne_true] at hside
      split at hside
      · next hself =>
          have hs := (Bool.and_eq_true_iff.mp hself).1
          obtain rfl : Side.a = side := Option.some.inj hside
          cases ht : J.info.profileType with
          | oneNNIndex => exact Or.inr ⟨nofun, .a, by simp [hs], Or.inl rfl⟩
          | oneNN => exact Or.inr ⟨nofun, .a, by simp [hs], Or.inl rfl⟩
          | sumThresh => exact Or.inl ⟨rfl, rfl⟩
          | _ => exact absurd (ht ▸ htype) (by decide)
      · cases hside

/-- A tile just popped has its zeros, or all its seeds still to copy. -/
theorem gathering_pop (g : Shared K) {t : TilePos} (ht : t ∈ getTiles J.info) (size : ℕ) (tile : Tile K) :
    Gathering R g
      { phase := .seeding (beginInitProfile J.info size (prepareTile (J.operation bld) t tile)).2.1
          (beginInitProfile J.info size (prepareTile (J.operation bld) t tile)).2.2
        pos := t
        tile := (beginInitProfile J.info size (prepareTile (J.operation bld) t tile)).1 } where
  noCopies := by
    intro a b hab hsum
    obtain ⟨rfl, rfl⟩ := Phase.seeding.inj hab
    unfold beginInitProfile initProfileA initProfileB
    rw [hsum]
    exact ⟨rfl, rfl⟩
  seedA := by
    intro a b hab i hi hdone
    obtain ⟨rfl, rfl⟩ := Phase.seeding.inj hab
    rw [← tileDims_numCols ht] at hi
    unfold beginInitProfile at hdone ⊢
    dsimp only at hdone ⊢
    -- sums start from zero; the other types have not copied anything
    rcases initProfileA_cases htype (prepareTile (J.operation bld) t tile).dims size with
      ⟨hsum, hinit⟩ | ⟨_, hinit⟩
    · have hzero := @memcopy_lt _ (prepareTile (J.operation bld) t tile).profileATileDev
        (fun _ => zeroEntry) 0 _ _ hi
      rw [hinit, if_pos rfl]
      exact hzero.symm ▸ R.seed_zero hsum _
    · rw [hinit] at hdone
      exact absurd (List.mem_range.mpr hi) hdone
  seedB := by
    intro a b hab side hside r hr hdone
    obtain ⟨rfl, rfl⟩ := Phase.seeding.inj hab
    rw [← tileDims_numRows ht] at hr
    unfold beginInitProfile at hdone ⊢
    dsimp only at hdone ⊢
    rcases initProfileB_cases htype hside (prepareTile (J.operation bld) t tile).dims with
      ⟨hsum, hinit⟩ | ⟨_, source, hinit, _⟩
    · have hzero := @memcopy_lt _ (prepareTile (J.operation bld) t tile).profileBTileDev
        (fun _ => zeroEntry) 0 _ _ hr
      rw [hinit, if_pos rfl]
      exact hzero.symm ▸ R.seed_zero hsum _
    · rw [hinit] at hdone
      exact absurd (List.mem_range.mpr hr) hdone
  gatheredA := nofun
  gatheredB := nofun

/-- A column seed is an entry of `profile_a` itself. -/
theorem gathering_copyA {g : Shared K} {w : Worker K} (hok : WorkerOK J bld w) (h : Gathering R g w)
    (hprofile : ∀ k, ∃ bs, R.rel (allocEntry J.info.profileType) bs (g.profileA.data.get k)) {a b : List ℕ}
    {k : ℕ} (hw : w.phase = .seeding a b) (hk : k ∈ a) :
    Gathering R g { w with
      phase := .seeding (a.erase k) b, tile := copyEntryA (J.operation bld).info g w.tile k } where
  noCopies _ _ _ hsum := by
    rw [(h.noCopies a b hw hsum).1] at hk
    exact absurd hk List.not_mem_nil
  seedA := by
    intro a' b' hab i hi hdone
    obtain ⟨rfl, rfl⟩ := Phase.seeding.inj hab
    obtain ⟨ht, hprep⟩ := hok.holds (by rw [hw]; rfl)
    obtain ⟨_, hcol, _⟩ := prepared_dims ht hprep
    unfold copyEntryA copyEntry
    rcases initProfileA_cases htype w.tile.dims g.profileA.data.size with ⟨hsum, _⟩ | ⟨hne, hinit⟩
    · rw [(h.noCopies a b hw hsum).1] at hk
      exact absurd hk List.not_mem_nil
    · have hinit' : initProfileA (J.operation bld).info w.tile.dims g.profileA.data.size = _ := hinit
      rw [hinit']
      dsimp only
      by_cases hik : i = k
      · subst hik
        obtain ⟨bs, hbs⟩ := hprofile (w.pos.2 * J.info.maxTileWidth + i)
        rw [Function.update_self, hcol]
        exact R.seed_self hne hbs
      · rw [Function.update_of_ne hik]
        exact h.seedA a b hw i hi fun hmem => hdone ((List.mem_erase_of_ne hik).mpr hmem)
  seedB := by
    intro a' b' hab
    obtain ⟨rfl, rfl⟩ := Phase.seeding.inj hab
    exact h.seedB a b hw
  gatheredA := nofun
  gatheredB := nofun

/-- A copied row seed is good for the profile the rows will be merged into. -/
def GoodSeed (R : Absorption bld J.info.profileType J.info.threshold) (g : Shared K) (w : Worker K)
    (act : Action) : Prop :=
  ∀ k, act = .copyB k → ∀ side, Tile.mergeTargetB J.info = some side → ∀ source start length,
    initProfileB J.info w.tile.dims = .copy source start length →
      R.seedOK ((g.profile source).data.get (start + k)) ((g.profile side).data.get (start + k))

/-- A row seed, given that it is good. -/
theorem gathering_copyB {g : Shared K} {w : Worker K} (hok : WorkerOK J bld w) (h : Gathering R g w)
    {a b : List ℕ} {k : ℕ} (hgood : GoodSeed R g w (.copyB k)) (hw : w.phase = .seeding a b) (hk : k ∈ b) :
    Gathering R g { w with
      phase := .seeding a (b.erase k), tile := copyEntryB (J.operation bld).info g w.tile k } where
  noCopies _ _ _ hsum := by
    rw [(h.noCopies a b hw hsum).2] at hk
    exact absurd hk List.not_mem_nil
  seedA := by
    intro a' b' hab
    obtain ⟨rfl, rfl⟩ := Phase.seeding.inj hab
    exact h.seedA a b hw
  seedB := by
    intro a' b' hab side hside r hr hdone
    obtain ⟨rfl, rfl⟩ := Phase.seeding.inj hab
    obtain ⟨ht, hprep⟩ := hok.holds (by rw [hw]; rfl)
    obtain ⟨hrow, _⟩ := prepared_dims ht hprep
    unfold copyEntryB copyEntry
    rcases initProfileB_cases htype hside w.tile.dims with ⟨hsum, _⟩ | ⟨_, source, hinit, _⟩
    · rw [(h.noCopies a b hw hsum).2] at hk
      exact absurd hk List.not_mem_nil
    · have hinit' : initProfileB (J.operation bld).info w.tile.dims = _ := hinit
      rw [hinit']
      dsimp only
      by_cases hrk : r = k
      · subst hrk
        have := hgood r rfl side hside source _ _ hinit
        rw [Function.update_self]
        rwa [hrow] at this ⊢
      · rw [Function.update_of_ne hrk]
        exact h.seedB a b hw side hside r hr fun hmem => hdone ((List.mem_erase_of_ne hrk).mpr hmem)
  gatheredA := nofun
  gatheredB := nofun

/-- Executing the tile turns the seeds into what it offers. -/
theorem gathering_run [IsStrictOrderedRing K] {g : Shared K} {w : Worker K} (hok : WorkerOK J bld w)
    (h : Gathering R g w) (hw : w.phase = .seeding [] []) {tile : Tile K}
    (hrun : w.tile.execute bld J.info (tileType J.info w.pos) = .ok tile) :
    Gathering R g { w with phase := .mergingA false, tile := tile } := by
  obtain ⟨ht, hprep⟩ := hok.holds (by rw [hw]; rfl)
  have heffect := execute_effect (R := R) htype ht hprep hrun
  refine ⟨nofun, nofun, nofun, fun last _ i hi => ?_, fun last _ side hside r hr => ?_⟩
  · exact ⟨_, h.seedA [] [] hw i hi List.not_mem_nil, heffect.a i⟩
  · have hrel := heffect.b r
    rw [rows_of_target hside] at hrel
    exact ⟨_, h.seedB [] [] hw side hside r hr List.not_mem_nil, hrel⟩

/-! ## One step -/

omit htype in
/-- The tile whose columns a worker has still to merge. -/
def heldA (w : Worker K) : Multiset TilePos :=
  match w.phase with
  | .seeding _ _ | .mergingA _ | .failed _ => {w.pos}
  | _ => 0

omit htype in
/-- The tile whose rows a worker has still to merge. -/
def heldB (w : Worker K) : Multiset TilePos :=
  match w.phase with
  | .seeding _ _ | .mergingA _ | .mergingB _ | .failed _ => {w.pos}
  | _ => 0

/-- What a worker's step merges: the tiles in `newA` and `newB` leave the queue and the worker's hands and
    their offers go into the profiles. -/
structure Merges (R : Absorption bld J.info.profileType J.info.threshold) (g : Shared K) (w : Worker K)
    (newA newB : Multiset TilePos) (g' : Shared K) (w' : Worker K) : Prop where
  tilesA : newA + (g'.workQueue + heldA w') = g.workQueue + heldA w
  tilesB : newB + (g'.workQueue + heldB w') = g.workQueue + heldB w
  profile : ∀ side, Computed J side → ∀ k,
    R.rel ((g.profile side).data.get k) (offered J bld.unrollWid side newA newB k)
      ((g'.profile side).data.get k)
  gathering : Gathering R g' w'

omit htype in
/-- A step that merges nothing. -/
theorem merges_nothing {g g' : Shared K} {w w' : Worker K} (hA : g'.profileA = g.profileA)
    (hB : g'.profileB = g.profileB)
    (htilesA : (g'.workQueue + heldA w' : Multiset TilePos) = g.workQueue + heldA w)
    (htilesB : (g'.workQueue + heldB w' : Multiset TilePos) = g.workQueue + heldB w)
    (hgathering : Gathering R g' w') : Merges R g w 0 0 g' w' where
  tilesA := by rw [zero_add, htilesA]
  tilesB := by rw [zero_add, htilesB]
  profile side _ k := by
    have hsame : g'.profile side = g.profile side := by
      cases side with
      | a => exact hA
      | b => exact hB
    rw [offered_zero, hsame]
    exact R.refl _
  gathering := hgathering

/-- What the merge of the columns does to an entry of `profile_a`. -/
theorem mergeA_entry {g : Shared K} (hg : TypesOK (J.operation bld) g) {w : Worker K}
    (hok : WorkerOK J bld w) (h : Gathering R g w) {last : Bool} (hw : w.phase = .mergingA last)
    {p : Profile K} (hp : w.tile.mergeProfileA J.info g.profileA = .ok p) (k : ℕ) :
    R.rel (g.profileA.data.get k) (columnOffer J bld.unrollWid w.pos k) (p.data.get k) := by
  obtain ⟨ht, hprep⟩ := hok.holds (by rw [hw]; rfl)
  obtain ⟨hrow, hcol, hwidth, _⟩ := prepared_dims ht hprep
  obtain ⟨p', hp', _, hget⟩ := mergeProfileA_ok htype hg w.tile
  obtain rfl : p' = p := Except.ok.inj (hp'.symm.trans hp)
  have hinfo : (J.operation bld).info = J.info := rfl
  rw [hget k, hinfo, hcol, hrow, hwidth]
  unfold columnOffer
  by_cases hin : w.pos.2 * J.info.maxTileWidth ≤ k ∧
      k < w.pos.2 * J.info.maxTileWidth + tileNumCols J.info w.pos
  · rw [if_pos hin, if_pos hin]
    obtain ⟨e, hseed, hrel⟩ := h.gatheredA last hw (k - w.pos.2 * J.info.maxTileWidth) (by omega)
    rw [Nat.add_sub_cancel' hin.1] at hseed
    exact R.merge _ hseed hrel
  · rw [if_neg hin, if_neg hin]
    exact R.refl _

/-- What the merge of the rows does to an entry of its profile. -/
theorem mergeB_entry {g : Shared K} (hg : TypesOK (J.operation bld) g) {w : Worker K}
    (hok : WorkerOK J bld w) (h : Gathering R g w) {last : Bool} (hw : w.phase = .mergingB last)
    {side : Side} (hside : Tile.mergeTargetB J.info = some side) {p : Profile K}
    (hp : w.tile.mergeProfileB J.info (g.profile side) = .ok p) (k : ℕ) :
    R.rel ((g.profile side).data.get k) (rowOffer J bld.unrollWid w.pos k) (p.data.get k) := by
  obtain ⟨ht, hprep⟩ := hok.holds (by rw [hw]; rfl)
  obtain ⟨hrow, hcol, _, hheight⟩ := prepared_dims ht hprep
  obtain ⟨p', hp', _, hget⟩ := mergeProfileB_ok htype hg w.tile hside
  obtain rfl : p' = p := Except.ok.inj (hp'.symm.trans hp)
  have hinfo : (J.operation bld).info = J.info := rfl
  rw [hget k, hinfo, hcol, hrow, hheight]
  unfold rowOffer
  by_cases hin : w.pos.1 * J.info.maxTileWidth ≤ k ∧
      k < w.pos.1 * J.info.maxTileWidth + tileNumRows J.info w.pos
  · rw [if_pos hin, if_pos hin]
    obtain ⟨e, hseed, hrel⟩ :=
      h.gatheredB last (Or.inr hw) side hside (k - w.pos.1 * J.info.maxTileWidth) (by omega)
    rw [Nat.add_sub_cancel' hin.1] at hseed
    exact R.merge _ hseed hrel
  · rw [if_neg hin, if_neg hin]
    exact R.refl _

/-- The merge of the columns. Where no row profile is merged, the tile is done with its rows too. -/
theorem merges_columns {g : Shared K} (hg : TypesOK (J.operation bld) g) {w : Worker K}
    (hok : WorkerOK J bld w) (h : Gathering R g w) {last : Bool} (hw : w.phase = .mergingA last)
    {p : Profile K} (hp : w.tile.mergeProfileA J.info g.profileA = .ok p) :
    ∃ newB, Merges R g w {w.pos} newB { g with profileA := p } { w with
      phase := if (Tile.mergeTargetB J.info).isSome then .mergingB last else afterMerge last } := by
  have hentry := mergeA_entry htype hg hok h hw hp
  have hphase := hok.phase
  rw [hw] at hphase
  obtain rfl : last = false := hphase
  have hheldA : heldA w = {w.pos} := by
    unfold heldA
    rw [hw]
  have hheldB : heldB w = {w.pos} := by
    unfold heldB
    rw [hw]
  cases htarget : Tile.mergeTargetB J.info with
  | none =>
      have hprofile : ∀ side, Computed J side → ∀ k, R.rel ((g.profile side).data.get k)
          (offered J bld.unrollWid side {w.pos} {w.pos} k)
          ((Shared.profile { g with profileA := p } side).data.get k) := by
        intro side hside k
        -- only the columns are computed
        obtain rfl : side = .a := hside.resolve_right fun hsome => by rw [htarget] at hsome; cases hsome
        unfold offered
        rw [if_pos rfl, htarget, if_neg nofun, Multiset.singleton_bind, add_zero]
        exact hentry k
      refine ⟨{w.pos}, ?_, ?_, hprofile, gathering_idle _ rfl⟩
      · rw [hheldA]
        show {w.pos} + ((g.workQueue : Multiset TilePos) + 0) = _
        rw [add_zero, add_comm]
      · rw [hheldB]
        show {w.pos} + ((g.workQueue : Multiset TilePos) + 0) = _
        rw [add_zero, add_comm]
  | some target =>
      have hprofile : ∀ side, Computed J side → ∀ k, R.rel ((g.profile side).data.get k)
          (offered J bld.unrollWid side {w.pos} 0 k)
          ((Shared.profile { g with profileA := p } side).data.get k) := by
        intro side hside k
        unfold offered
        rw [Multiset.zero_bind, ite_self, add_zero]
        cases side with
        | a =>
            rw [if_pos rfl, Multiset.singleton_bind]
            exact hentry k
        | b =>
            rw [if_neg nofun]
            exact R.refl _
      -- the worker still holds its rows, above seeds that have only grown better
      have hmono := h.mono fun side hside k => ⟨_, hprofile side hside k⟩
      refine ⟨0, ?_, ?_, hprofile, ⟨nofun, nofun, nofun, nofun, ?_⟩⟩
      · rw [hheldA]
        show {w.pos} + ((g.workQueue : Multiset TilePos) + 0) = _
        rw [add_zero, add_comm]
      · rw [hheldB, zero_add]
        rfl
      · intro _ _
        exact hmono.gatheredB false (Or.inl hw)

/-- The merge of the rows. -/
theorem merges_rows {g : Shared K} (hg : TypesOK (J.operation bld) g) {w : Worker K}
    (hok : WorkerOK J bld w) (h : Gathering R g w) {last : Bool} (hw : w.phase = .mergingB last)
    {target : Side} (htarget : Tile.mergeTargetB J.info = some target) {p : Profile K}
    (hp : w.tile.mergeProfileB J.info (g.profile target) = .ok p) :
    Merges R g w 0 {w.pos} (g.setProfile target p) { w with phase := afterMerge last } := by
  have hentry := mergeB_entry htype hg hok h hw htarget hp
  have hphase := hok.phase
  rw [hw] at hphase
  obtain ⟨rfl, _⟩ := hphase
  have hqueue : (g.setProfile target p).workQueue = g.workQueue := by cases target <;> rfl
  refine ⟨?_, ?_, fun side _ k => ?_, gathering_idle _ rfl⟩
  · rw [hqueue, zero_add]
    unfold heldA
    rw [hw]
    rfl
  · rw [hqueue]
    unfold heldB
    rw [hw]
    show {w.pos} + ((g.workQueue : Multiset TilePos) + 0) = _
    rw [add_zero, add_comm]
  · unfold offered
    rw [Multiset.zero_bind, ite_self, zero_add, htarget]
    by_cases hside : side = target
    · subst hside
      rw [if_pos rfl, Multiset.singleton_bind]
      have hset : (g.setProfile side p).profile side = p := by cases side <;> rfl
      rw [hset]
      exact hentry k
    · rw [if_neg fun h => hside (Option.some.inj h).symm]
      have hset : (g.setProfile target p).profile side = g.profile side := by
        cases side <;> cases target <;> first | rfl | exact absurd rfl hside
      rw [hset]
      exact R.refl _

/-- **One worker's step**, what it merges. -/
theorem workerStep_merges [IsStrictOrderedRing K] {g g' : Shared K} {w w' : Worker K} {act : Action}
    (hg : TypesOK (J.operation bld) g) (hq : ∀ t ∈ g.workQueue, t ∈ getTiles J.info)
    (hok : WorkerOK J bld w) (h : Gathering R g w)
    (hprofile : ∀ k, ∃ bs, R.rel (allocEntry J.info.profileType) bs (g.profileA.data.get k))
    (hgood : GoodSeed R g w act) (hstep : WorkerStep (J.operation bld) g w act g' w') :
    ∃ newA newB, Merges R g w newA newB g' w' := by
  cases hstep with
  | enter hw =>
      refine ⟨0, 0, merges_nothing rfl rfl ?_ ?_ (gathering_idle _ rfl)⟩
      · simp only [heldA, hw]
      · simp only [heldB, hw]
  | look hw _ =>
      refine ⟨0, 0, merges_nothing rfl rfl ?_ ?_ (gathering_idle _ rfl)⟩
      · simp only [heldA, hw]
      · simp only [heldB, hw]
  | leave hw _ =>
      refine ⟨0, 0, merges_nothing rfl rfl ?_ ?_ (gathering_idle _ rfl)⟩
      · rcases hw with hw | hw <;> simp only [heldA, hw]
      · rcases hw with hw | hw <;> simp only [heldB, hw]
  | @pop t rest hw hcons =>
      have hpop : (rest : Multiset TilePos) + {t} = (t :: rest : List TilePos) + 0 := by
        rw [add_zero, ← Multiset.cons_coe, ← Multiset.singleton_add, add_comm]
      refine ⟨0, 0, merges_nothing rfl rfl ?_ ?_
        (gathering_pop htype _ (hq t (hcons ▸ List.mem_cons_self)) _ _)⟩
      · simp only [heldA, hw, hcons]
        exact hpop
      · simp only [heldB, hw, hcons]
        exact hpop
  | copyA hw hk =>
      refine ⟨0, 0, merges_nothing rfl rfl ?_ ?_ (gathering_copyA htype hok h hprofile hw hk)⟩
      · simp only [heldA, hw]
      · simp only [heldB, hw]
  | copyB hw hk =>
      refine ⟨0, 0, merges_nothing rfl rfl ?_ ?_ (gathering_copyB htype hok h hgood hw hk)⟩
      · simp only [heldA, hw]
      · simp only [heldB, hw]
  | run hw hrun =>
      refine ⟨0, 0, merges_nothing rfl rfl ?_ ?_ (gathering_run htype hok h hw hrun)⟩
      · simp only [heldA, hw]
      · simp only [heldB, hw]
  | runFails hw _ =>
      refine ⟨0, 0, merges_nothing rfl rfl ?_ ?_ (gathering_idle _ rfl)⟩
      · simp only [heldA, hw]
      · simp only [heldB, hw]
  | mergeA hw hp => exact ⟨_, merges_columns htype hg hok h hw hp⟩
  | mergeB hw hside hp => exact ⟨0, _, merges_rows htype hg hok h hw hside hp⟩
  | count hw =>
      refine ⟨0, 0, merges_nothing rfl rfl ?_ ?_ (gathering_idle _ rfl)⟩
      · simp only [heldA, hw]
      · simp only [heldB, hw]

/-! ## Whole runs -/

omit htype in
/-- **What a run has merged so far.** -/
structure RunInv (R : Absorption bld J.info.profileType J.info.threshold) (s : OpState K)
    (doneA doneB : Multiset TilePos) : Prop where
  tilesA : doneA + (s.shared.workQueue + ∑ i ∈ Finset.range J.numThreads, heldA (s.workers i)) =
    (getTiles J.info : Multiset TilePos)
  tilesB : doneB + (s.shared.workQueue + ∑ i ∈ Finset.range J.numThreads, heldB (s.workers i)) =
    (getTiles J.info : Multiset TilePos)
  profile : ∀ side, Computed J side → ∀ k,
    R.rel (allocEntry J.info.profileType) (offered J bld.unrollWid side doneA doneB k)
      ((s.shared.profile side).data.get k)
  gathering : ∀ i < J.numThreads, Gathering R s.shared (s.workers i)

theorem runInv_init (memory : ℕ → Tile K) : RunInv R (J.initState memory) 0 0 where
  tilesA := by
    have hnone : ∑ i ∈ Finset.range J.numThreads, heldA ((J.initState memory).workers i) = 0 :=
      Finset.sum_eq_zero fun _ _ => rfl
    rw [hnone, zero_add, add_zero]
    rfl
  tilesB := by
    have hnone : ∑ i ∈ Finset.range J.numThreads, heldB ((J.initState memory).workers i) = 0 :=
      Finset.sum_eq_zero fun _ _ => rfl
    rw [hnone, zero_add, add_zero]
    rfl
  profile side hside k := by
    rw [offered_zero, (initState_profile htype memory hside).2]
    exact R.refl _
  gathering _ _ := gathering_idle _ rfl

/-- **A step keeps the account of what is merged.** -/
theorem runInv_step [IsStrictOrderedRing K] {s s' : OpState K} {doneA doneB : Multiset TilePos}
    (hs : StateOK J bld s) (hinv : RunInv R s doneA doneB) {i : ℕ} (hi : i < J.numThreads) {act : Action}
    (h : opStep (J.operation bld) s i act = some s') (hgood : GoodSeed R s.shared (s.workers i) act) :
    ∃ doneA' doneB', RunInv R s' doneA' doneB' := by
  obtain ⟨g, w, rfl, hw⟩ := opStep_cases htype hs hi h
  obtain ⟨newA, newB, hmerges⟩ := workerStep_merges htype hs.types hs.queue (hs.worker i hi)
    (hinv.gathering i hi) (fun k => ⟨_, hinv.profile .a (Or.inl rfl) k⟩) hgood hw
  refine ⟨doneA + newA, doneB + newB, ?_, ?_, fun side hside k => ?_, fun j hj => ?_⟩
  · exact account_step hinv.tilesA hmerges.tilesA (sum_update hi heldA s.workers w)
  · exact account_step hinv.tilesB hmerges.tilesB (sum_update hi heldB s.workers w)
  · rw [offered_add]
    exact R.trans (hinv.profile side hside k) (hmerges.profile side hside k)
  · rw [workers_update]
    split
    · exact hmerges.gathering
    · exact (hinv.gathering j hj).mono fun side hside k => ⟨_, hmerges.profile side hside k⟩

omit htype in
/-- A worker takes a step that meets a condition. -/
def StepWhere (J : Join K) (bld : Build K) (P : OpState K → ℕ → Action → Prop) (s s' : OpState K) : Prop :=
  ∃ i < J.numThreads, ∃ act, opStep (J.operation bld) s i act = some s' ∧ P s i act

omit htype in
/-- A step whose row seed, if it copies one, is good. -/
def GoodStep (R : Absorption bld J.info.profileType J.info.threshold) : OpState K → OpState K → Prop :=
  StepWhere J bld fun s i act => GoodSeed R s.shared (s.workers i) act

/-- **A run of good steps merges what it should.** -/
theorem runInv_run [IsStrictOrderedRing K] {memory : ℕ → Tile K} {s : OpState K}
    (hrun : Relation.ReflTransGen (GoodStep R) (J.initState memory) s) :
    StateOK J bld s ∧ ∃ doneA doneB, RunInv R s doneA doneB := by
  refine run_inv (I := fun s => StateOK J bld s ∧ ∃ doneA doneB, RunInv R s doneA doneB) ?_ hrun
    ⟨stateOK_init htype memory, 0, 0, runInv_init htype memory⟩
  rintro s s' ⟨hs, doneA, doneB, hinv⟩ ⟨i, hi, act, hstep, hgood⟩
  exact ⟨stateOK_step htype hs ⟨i, hi, act, hstep⟩, runInv_step htype hs hinv hi hstep hgood⟩

/-- A row seed copied from the profile it will be merged into is good. -/
theorem goodSeed_of_same (hsame : J.info.profileType = .oneNN → J.info.keepRowsSeparate = false)
    {s : OpState K} {doneA doneB : Multiset TilePos} (hinv : RunInv R s doneA doneB) (w : Worker K)
    (act : Action) : GoodSeed R s.shared w act := by
  rintro k rfl side hside source start length hinit
  rcases initProfileB_cases htype hside w.tile.dims with ⟨_, hzero⟩ | ⟨hne, source', hcopy, hsource⟩
  · rw [hinit] at hzero
    cases hzero
  · obtain ⟨rfl, _, _⟩ := ProfileInit.copy.inj (hinit.symm.trans hcopy)
    rcases hsource with rfl | ⟨hone, hkeep⟩
    · exact R.seed_self hne (hinv.profile _ (Or.inr hside) _)
    · rw [hsame hone] at hkeep
      cases hkeep

/-- A run is one of good steps when each of its steps is good given what was merged before. -/
theorem run_good [IsStrictOrderedRing K] {P : OpState K → ℕ → Action → Prop}
    (hP : ∀ s doneA doneB i act, RunInv R s doneA doneB → P s i act →
      GoodSeed R s.shared (s.workers i) act) {memory : ℕ → Tile K} {s : OpState K}
    (hrun : Relation.ReflTransGen (StepWhere J bld P) (J.initState memory) s) :
    Relation.ReflTransGen (GoodStep R) (J.initState memory) s := by
  induction hrun with
  | refl => exact .refl
  | tail _ hstep ih =>
      obtain ⟨i, hi, act, hact, hcond⟩ := hstep
      obtain ⟨_, doneA, doneB, hinv⟩ := runInv_run htype ih
      exact ih.tail ⟨i, hi, act, hact, hP _ _ _ i act hinv hcond⟩

omit htype in
/-- Any step, as a step that meets no condition. -/
theorem stepWhere_of_opStep {s s' : OpState K} (h : OpStep (J.operation bld) J.numThreads s s') :
    StepWhere J bld (fun _ _ _ => True) s s' := by
  obtain ⟨i, hi, act, hact⟩ := h
  exact ⟨i, hi, act, hact, trivial⟩

/-- Where seeds and merges agree, every run is one of good steps. -/
theorem run_good_of_same [IsStrictOrderedRing K]
    (hsame : J.info.profileType = .oneNN → J.info.keepRowsSeparate = false) {memory : ℕ → Tile K}
    {s : OpState K}
    (hrun : Relation.ReflTransGen (OpStep (J.operation bld) J.numThreads) (J.initState memory) s) :
    Relation.ReflTransGen (GoodStep R) (J.initState memory) s :=
  run_good htype (fun _ _ _ _ _ hinv _ => goodSeed_of_same htype hsame hinv _ _)
    (Relation.ReflTransGen.mono (fun _ _ => stepWhere_of_opStep) _ _ hrun)

/-- **A run that has returned has merged every tile.** -/
theorem returned_entry [IsStrictOrderedRing K] {memory : ℕ → Tile K} {s : OpState K}
    (hrun : Relation.ReflTransGen (GoodStep R) (J.initState memory) s) (hreturned : J.Returned s)
    {side : Side} (hside : Computed J side) (k : ℕ) :
    R.rel (allocEntry J.info.profileType)
      (offered J bld.unrollWid side (getTiles J.info) (getTiles J.info) k)
      ((s.shared.profile side).data.get k) := by
  obtain ⟨hs, doneA, doneB, hinv⟩ := runInv_run htype hrun
  have hqueue : s.shared.workQueue = [] := hs.drained 0 J.threads_pos (hreturned 0 J.threads_pos)
  have hA := hinv.tilesA
  have hB := hinv.tilesB
  have hheldA : ∑ i ∈ Finset.range J.numThreads, heldA (s.workers i) = 0 :=
    Finset.sum_eq_zero fun i hi => by simp only [heldA, hreturned i (Finset.mem_range.mp hi)]
  have hheldB : ∑ i ∈ Finset.range J.numThreads, heldB (s.workers i) = 0 :=
    Finset.sum_eq_zero fun i hi => by simp only [heldB, hreturned i (Finset.mem_range.mp hi)]
  rw [hqueue, hheldA, Multiset.coe_nil, add_zero, add_zero] at hA
  rw [hqueue, hheldB, Multiset.coe_nil, add_zero, add_zero] at hB
  have := hinv.profile side hside k
  rwa [hA, hB] at this

end

/-! ## The compared cells -/

variable {U : ℕ} (hU : 0 < U)
include hU

theorem hitsOf_columnOffer {t : TilePos} (ht : t ∈ getTiles J.info) (k : ℕ) :
    hitsOf (columnOffer J U t k) = columnHits J.cellCorr (tileCells U J.info t) k := by
  unfold columnOffer
  split
  · next hin => rw [hitsOf_tileBlocksA hU, Nat.add_sub_cancel' hin.1]
  · next hout =>
      -- the tile has no cells in this column
      refine (Multiset.eq_zero_of_forall_notMem fun h hh => ?_).symm
      obtain ⟨r, hz, -⟩ := mem_columnHits.mp hh
      exact hout (inTile_of_mem_tileCells hU ht hz).2

theorem hitsOf_rowOffer {t : TilePos} (ht : t ∈ getTiles J.info) (k : ℕ) :
    hitsOf (rowOffer J U t k) = rowHits J.cellCorr (tileCells U J.info t) k := by
  unfold rowOffer
  split
  · next hin => rw [hitsOf_tileBlocksB hU, Nat.add_sub_cancel' hin.1]
  · next hout =>
      refine (Multiset.eq_zero_of_forall_notMem fun h hh => ?_).symm
      obtain ⟨c, hz, -⟩ := mem_rowHits.mp hh
      exact hout (inTile_of_mem_tileCells hU ht hz).1

/-- **What all tiles offer an entry** are the compared cells of its column, of its row, or of both. -/
theorem hitsOf_offered (side : Side) (k : ℕ) :
    hitsOf (offered J U side (getTiles J.info) (getTiles J.info) k) =
      (if side = .a then columnHits J.cellCorr (comparedCells U J.info) k else 0) +
        if Tile.mergeTargetB J.info = some side then rowHits J.cellCorr (comparedCells U J.info) k
        else 0 := by
  have hcolumns : hitsOf ((getTiles J.info : Multiset TilePos).bind fun t => columnOffer J U t k) =
      columnHits J.cellCorr (comparedCells U J.info) k := by
    unfold comparedCells columnHits
    rw [hitsOf_bind, ← Multiset.coe_bind, Multiset.bind_assoc]
    exact Multiset.bind_congr fun t ht => hitsOf_columnOffer hU (Multiset.mem_coe.mp ht) k
  have hrows : hitsOf ((getTiles J.info : Multiset TilePos).bind fun t => rowOffer J U t k) =
      rowHits J.cellCorr (comparedCells U J.info) k := by
    unfold comparedCells rowHits
    rw [hitsOf_bind, ← Multiset.coe_bind, Multiset.bind_assoc]
    exact Multiset.bind_congr fun t ht => hitsOf_rowOffer hU (Multiset.mem_coe.mp ht) k
  unfold offered
  rw [hitsOf_add, ← hcolumns, ← hrows]
  split_ifs <;> simp only [hitsOf_zero]

end

end Scamp
