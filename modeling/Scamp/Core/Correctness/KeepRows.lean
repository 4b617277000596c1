import Scamp.Core.Correctness.NearestNeighbor

/-!
# `Core.Correctness.KeepRows` — self-joins that keep the rows separate

`profile_a` is to hold the best matches to the left and `profile_b` those to the right. `InitProfile`
seeds the rows of a `PROFILE_TYPE_1NN` tile from `profile_a` all the same, so that a match to the left may
be merged into `profile_b`. `keepRows_nearest` is what holds of runs in which no such seed is better than
the entry it is merged into; `leakJoin_leaks` is a run in which one is. That run is built from steps of one
worker while the other waits (`solo_run`, `solo_tile`).
-/

namespace Scamp

open Lib

/-! ## A worker on its own -/

section
variable {K : Type} [Field K] [LinearOrder K] [HasSqrt K] {J : Join K} {bld : Build K}
  {P : Shared K → Worker K → Action → Prop}

/-- A step of one worker that meets a condition. -/
def SoloStep (J : Join K) (bld : Build K) (P : Shared K → Worker K → Action → Prop)
    (x y : Shared K × Worker K) : Prop :=
  ∃ act, workStep (J.operation bld) act x.1 x.2 = some y ∧ P x.1 x.2 act

/-- A run of one worker is a run of the operation, in which the others do not move. -/
theorem solo_run {s : OpState K} {i : ℕ} (hi : i < J.numThreads) {y : Shared K × Worker K}
    (h : Relation.ReflTransGen (SoloStep J bld P) (s.shared, s.workers i) y) :
    Relation.ReflTransGen (StepWhere J bld fun s i act => P s.shared (s.workers i) act) s
      ⟨y.1, Function.update s.workers i y.2⟩ := by
  induction h with
  | refl =>
      rw [Function.update_eq_self]
  | @tail x y _ hstep ih =>
      obtain ⟨act, hact, hP⟩ := hstep
      refine ih.tail ⟨i, hi, act, ?_, ?_⟩
      · unfold opStep
        rw [workers_update, if_pos rfl, hact]
        dsimp only
        rw [Function.update_idem]
      · dsimp only
        rw [Function.update_self]
        exact hP

/-- A run whose steps meet a condition is a run. -/
theorem run_of_stepWhere {Q : OpState K → ℕ → Action → Prop} {s s' : OpState K}
    (hrun : Relation.ReflTransGen (StepWhere J bld Q) s s') :
    Relation.ReflTransGen (OpStep (J.operation bld) J.numThreads) s s' := by
  refine Relation.ReflTransGen.mono (fun s s' h => ?_) _ _ hrun
  obtain ⟨i, hi, act, hact, _⟩ := h
  exact ⟨i, hi, act, hact⟩

theorem stateOK_stepWhere [IsStrictOrderedRing K] (htype : entryType J.info.profileType = true)
    {Q : OpState K → ℕ → Action → Prop} {s s' : OpState K}
    (hrun : Relation.ReflTransGen (StepWhere J bld Q) s s') (hs : StateOK J bld s) : StateOK J bld s' :=
  run_inv (I := StateOK J bld) (fun _ _ hs h => stateOK_step htype hs h) (run_of_stepWhere hrun) hs

/-- The worker that has just popped `t`. -/
def popped (J : Join K) (bld : Build K) (size : ℕ) (t : TilePos) (tile : Tile K) : Worker K where
  phase := .seeding (beginInitProfile J.info size (prepareTile (J.operation bld) t tile)).2.1
    (beginInitProfile J.info size (prepareTile (J.operation bld) t tile)).2.2
  pos := t
  tile := (beginInitProfile J.info size (prepareTile (J.operation bld) t tile)).1

/-- The copies of `InitProfile`, one after the other. -/
theorem solo_copies {g : Shared K} {dims : TileDims}
    (hcopyA : ∀ w k, P g w (.copyA k)) (hcopyB : ∀ w k, w.tile.dims = dims → P g w (.copyB k))
    {source : Side} {start length : ℕ} (hinit : initProfileB J.info dims = .copy source start length)
    (a b : List ℕ) : ∀ w : Worker K, w.phase = .seeding a b → w.tile.dims = dims →
      ∃ w', Relation.ReflTransGen (SoloStep J bld P) (g, w) (g, w') ∧ w'.phase = .seeding [] [] ∧
        w'.pos = w.pos ∧ (∀ k ∈ b, w'.tile.profileBTileDev k = (g.profile source).data.get (start + k)) ∧
        ∀ k ∉ b, w'.tile.profileBTileDev k = w.tile.profileBTileDev k := by
  -- the copies of the columns come first; they do not touch the rows
  induction a with
  | cons k a ih =>
      intro w hw hdims
      have hstep : workStep (J.operation bld) (.copyA k) g w = some (g, { w with
          phase := .seeding a b, tile := copyEntryA J.info g w.tile k }) := by
        unfold workStep
        rw [hw]
        dsimp only
        rw [if_pos List.mem_cons_self, List.erase_cons_head]
        rfl
      obtain ⟨w', hrun, hrest⟩ := ih { w with
        phase := .seeding a b, tile := copyEntryA J.info g w.tile k } rfl hdims
      exact ⟨w', hrun.head ⟨.copyA k, hstep, hcopyA w k⟩, hrest⟩
  | nil =>
      induction b with
      | cons k b ih =>
          intro w hw hdims
          have hstep : workStep (J.operation bld) (.copyB k) g w = some (g, { w with
              phase := .seeding [] b, tile := copyEntryB J.info g w.tile k }) := by
            unfold workStep
            rw [hw]
            dsimp only
            rw [if_pos List.mem_cons_self, List.erase_cons_head]
            rfl
          have hcopied : (copyEntryB J.info g w.tile k).profileBTileDev =
              Function.update w.tile.profileBTileDev k ((g.profile source).data.get (start + k)) := by
            unfold copyEntryB copyEntry
            rw [hdims, hinit]
          obtain ⟨w', hrun, hphase, hpos, hin, hout⟩ := ih { w with
            phase := .seeding [] b, tile := copyEntryB J.info g w.tile k } rfl hdims
          refine ⟨w', hrun.head ⟨.copyB k, hstep, hcopyB w k hdims⟩, hphase, hpos, fun j hj => ?_,
            fun j hj => ?_⟩
          · -- copied later on, or just now
            by_cases hjb : j ∈ b
            · exact hin j hjb
            · obtain rfl : j = k := (List.mem_cons.mp hj).resolve_right hjb
              rw [hout j hjb, hcopied, Function.update_self]
          · obtain ⟨hne, hjb⟩ := not_or.mp (mt List.mem_cons.mpr hj)
            rw [hout j hjb, hcopied, Function.update_of_ne hne]
      | nil =>
          intro w hw _
          exact ⟨w, .refl, hw, rfl, fun j hj => absurd hj List.not_mem_nil, fun _ _ => rfl⟩

end

section
variable {J : Join ℝ} {bld : Build ℝ} {P : Shared ℝ → Worker ℝ → Action → Prop}

section
variable (hone : J.args.profileType = .oneNN) (hself : J.args.hasB = false)
include hone hself

/-- A worker about to look at the queue can pop the first tile and copy all its seeds; those of the rows are
    entries of `profile_a`. -/
theorem solo_seeding {g : Shared ℝ} {w : Worker ℝ} (hw : w.phase = .checking) {t : TilePos}
    (ht : t ∈ getTiles J.info) {rest : List TilePos} (hq : g.workQueue = t :: rest)
    (hadvance : ∀ g w, P g w .advance) (hcopyA : ∀ g w k, P g w (.copyA k))
    (hcopyB : ∀ w k, w.tile.dims = tileDims J.info t → P { g with workQueue := rest } w (.copyB k)) :
    ∃ w', Relation.ReflTransGen (SoloStep J bld P) (g, w) ({ g with workQueue := rest }, w') ∧
      w'.phase = .seeding [] [] ∧ w'.pos = t ∧ ∀ r < tileNumRows J.info t,
        w'.tile.profileBTileDev r = g.profileA.data.get (t.1 * J.info.maxTileWidth + r) := by
  have hreset : needsIntermittentReset (J.operation bld).info.profileType = true := by
    rw [show (J.operation bld).info.profileType = .oneNN from hone]
    rfl
  have hinit : initProfileB J.info (tileDims J.info t) = .copy .a (t.1 * J.info.maxTileWidth)
      ((tileDims J.info t).height - J.info.mpWindow + 1) := by
    unfold initProfileB
    rw [show J.info.profileType = .oneNN from hone, J.selfJoin_of_self hself]
    rfl
  have hlook : workStep (J.operation bld) .advance g w = some (g, { w with phase := .popping }) := by
    unfold workStep
    rw [hw]
    dsimp only
    rw [hq]
    rfl
  have hpop : workStep (J.operation bld) .advance g { w with phase := .popping } =
      some ({ g with workQueue := rest }, popped J bld g.profileA.data.size t w.tile) := by
    unfold workStep
    dsimp only
    rw [hq]
    dsimp only
    rw [if_pos hreset]
    rfl
  have htodo : ∃ todoA, (popped J bld g.profileA.data.size t w.tile).phase =
      .seeding todoA (List.range (tileNumRows J.info t)) := by
    refine ⟨_, congrArg (Phase.seeding _) ?_⟩
    unfold beginInitProfile
    dsimp only
    rw [show (prepareTile (J.operation bld) t w.tile).dims = tileDims J.info t from rfl, hinit,
      ← tileDims_numRows ht]
  obtain ⟨todoA, htodo⟩ := htodo
  obtain ⟨w', hcopies, hphase, hpos, hcopied, _⟩ :=
    solo_copies (hcopyA { g with workQueue := rest }) hcopyB hinit _ _ _ htodo rfl
  exact ⟨w', (hcopies.head ⟨.advance, hpop, hadvance _ _⟩).head ⟨.advance, hlook, hadvance _ _⟩, hphase,
    hpos, fun r hr => hcopied r (List.mem_range.mpr hr)⟩

variable (hkeep : J.args.keepRowsSeparate = true)
include hkeep

/-- A worker with all its seeds can execute the tile and merge it; its row entries, which are at least the
    seeds, go into `profile_b`. -/
theorem solo_merging (hfp : cpuPrecision J.info.fpType) {g : Shared ℝ} {w : Worker ℝ}
    (hg : TypesOK (J.operation bld) g) (hok : WorkerOK J bld w) (hw : w.phase = .seeding [] [])
    (hadvance : ∀ g w, P g w .advance) :
    ∃ g' w', Relation.ReflTransGen (SoloStep J bld P) (g, w) (g', w') ∧ w'.phase = .checking ∧
      g'.workQueue = g.workQueue ∧ ∀ r < tileNumRows J.info w.pos, ∀ v,
        (w.tile.profileBTileDev r).value = .num v →
        (∃ x, (g.profileB.data.get (w.pos.1 * J.info.maxTileWidth + r)).value = .num x) →
        ∃ v', (g'.profileB.data.get (w.pos.1 * J.info.maxTileWidth + r)).value = .num v' ∧ v ≤ v' := by
  have htype : NearestType J.info.profileType := Or.inr hone
  have hentry : entryType J.info.profileType = true := entryType_of_nearest htype
  have htarget : Tile.mergeTargetB (J.operation bld).info = some .b := by
    have h := mergeTargetB_self hself hentry
    rwa [hkeep, if_pos rfl] at h
  have hmerge : needsIntermittentMerge (J.operation bld).info.profileType = true := by
    rw [show (J.operation bld).info.profileType = .oneNN from hone]
    rfl
  obtain ⟨ht, hprep⟩ := hok.holds (by rw [hw]; rfl)
  obtain ⟨tile, htile⟩ := execute_succeeds ht (Or.inl hentry) hprep hfp
  obtain ⟨R, keepsIndex, hR, _, _⟩ := exists_bestAbsorption bld htype J.info.threshold
  have heffect := execute_effect (R := R) hentry ht hprep htile
  obtain ⟨hrow, _, _, hheight⟩ := prepared_dims ht heffect.prepared
  -- execute the tile, merge its columns, merge its rows, count it
  have hexecute : workStep (J.operation bld) .advance g w =
      some (g, { w with phase := .mergingA false, tile := tile }) := by
    unfold workStep
    rw [hw]
    dsimp only
    rw [show w.tile.execute (J.operation bld).build (J.operation bld).info
      (tileType (J.operation bld).info w.pos) = .ok tile from htile]
    dsimp only
    rw [if_pos hmerge]
  obtain ⟨p, hp, hpType, _⟩ := mergeProfileA_ok hentry hg tile
  have hmergeA : workStep (J.operation bld) .advance g { w with phase := .mergingA false, tile := tile } =
      some ({ g with profileA := p }, { w with phase := .mergingB false, tile := tile }) := by
    unfold workStep
    dsimp only
    rw [hp, htarget]
    rfl
  have hg' : TypesOK (J.operation bld) { g with profileA := p } := by
    intro side
    cases side with
    | a => exact fun _ => hpType
    | b => exact hg .b
  obtain ⟨q, hq, _, hget⟩ := mergeProfileB_ok hentry hg' tile htarget
  have hmergeB : workStep (J.operation bld) .advance { g with profileA := p }
      { w with phase := .mergingB false, tile := tile } =
      some ({ g with profileA := p, profileB := q }, { w with phase := .counting, tile := tile }) := by
    unfold workStep
    dsimp only
    rw [htarget]
    dsimp only
    rw [hq]
    rfl
  refine ⟨{ g with profileA := p, profileB := q, completedTiles := g.completedTiles + 1 },
    { w with phase := .checking, tile := tile }, ?_, rfl, rfl, fun r hr v hv hb => ?_⟩
  · exact (((Relation.ReflTransGen.single ⟨.advance, hexecute, hadvance _ _⟩).tail
      ⟨.advance, hmergeA, hadvance _ _⟩).tail ⟨.advance, hmergeB, hadvance _ _⟩).tail
        ⟨.advance, rfl, hadvance _ _⟩
  · have hseed := heffect.b r
    rw [hR] at hseed
    obtain ⟨v', hv', hle, _⟩ := hseed v hv
    show ∃ v', (q.data.get _).value = .num v' ∧ v ≤ v'
    rw [hget, show (J.operation bld).info = J.info from rfl, hrow, hheight, if_pos (by omega),
      Nat.add_sub_cancel_left, show J.info.profileType = .oneNN from hone]
    exact maxEntry_floor (Or.inr ⟨hb, v', hv', hle⟩)

/-- **One worker and one tile.** A worker about to look at the queue can take the first tile through, and
    every entry of `profile_a` along the tile's rows has then been merged into `profile_b`. -/
theorem solo_tile (hfp : cpuPrecision J.info.fpType) {s : OpState ℝ} (hs : StateOK J bld s) {i : ℕ}
    (hi : i < J.numThreads) (hw : (s.workers i).phase = .checking) {t : TilePos} {rest : List TilePos}
    (hq : s.shared.workQueue = t :: rest)
    (hadvance : ∀ g w, P g w .advance) (hcopyA : ∀ g w k, P g w (.copyA k))
    (hcopyB : ∀ w k, w.tile.dims = tileDims J.info t →
      P { s.shared with workQueue := rest } w (.copyB k)) :
    ∃ s', Relation.ReflTransGen (StepWhere J bld fun s i act => P s.shared (s.workers i) act) s s' ∧
      (s'.workers i).phase = .checking ∧ s'.shared.workQueue = rest ∧
      (∀ j, j ≠ i → s'.workers j = s.workers j) ∧
      ∀ r < tileNumRows J.info t, ∀ v,
        (s.shared.profileA.data.get (t.1 * J.info.maxTileWidth + r)).value = .num v →
        (∃ x, (s.shared.profileB.data.get (t.1 * J.info.maxTileWidth + r)).value = .num x) →
        ∃ v', (s'.shared.profileB.data.get (t.1 * J.info.maxTileWidth + r)).value = .num v' ∧ v ≤ v' := by
  have hentry : entryType J.info.profileType = true := entryType_of_nearest (Or.inr hone)
  have ht : t ∈ getTiles J.info := hs.queue t (hq ▸ List.mem_cons_self)
  have hseeding : ∃ w, Relation.ReflTransGen (SoloStep J bld P) (s.shared, s.workers i)
      ({ s.shared with workQueue := rest }, w) ∧ w.phase = .seeding [] [] ∧ w.pos = t ∧
      ∀ r < tileNumRows J.info t, w.tile.profileBTileDev r =
        s.shared.profileA.data.get (t.1 * J.info.maxTileWidth + r) :=
    solo_seeding hone hself hw ht hq hadvance hcopyA hcopyB
  obtain ⟨w, hseeding, hphase, hpos, hseeds⟩ := hseeding
  have hok := stateOK_stepWhere hentry (solo_run hi hseeding) hs
  have hworker := hok.worker i hi
  rw [workers_update, if_pos rfl] at hworker
  obtain ⟨g', w', hmerging, hchecking, hqueue, hfloor⟩ :=
    solo_merging hone hself hkeep hfp hok.types hworker hphase hadvance
  rw [hpos] at hfloor
  refine ⟨⟨g', Function.update s.workers i w'⟩, solo_run hi (hseeding.trans hmerging), ?_, hqueue,
    fun j hj => ?_, fun r hr v hv hb => ?_⟩
  · rw [workers_update, if_pos rfl]
    exact hchecking
  · rw [workers_update, if_neg hj]
  · exact hfloor r hr v (by rw [hseeds r hr]; exact hv) hb

end

end

/-! ## Separate rows -/

/-- The step does not seed a row with an entry of `profile_a` that is better than the entry of `profile_b`
    the row will be merged into. Only `PROFILE_TYPE_1NN` seeds rows from `profile_a`. -/
def SeedsRowsBelow (J : Join ℝ) (s : OpState ℝ) (i : ℕ) (act : Action) : Prop :=
  J.args.profileType = .oneNN → ∀ k, act = .copyB k →
    SeedBelow (s.shared.profileA.data.get ((s.workers i).tile.dims.row + k))
      (s.shared.profileB.data.get ((s.workers i).tile.dims.row + k))

/-- **The two sides of a self-join with separate rows.** In every run whose steps seed no row with a better
    match of the other side, `profile_a` ends with the best matches to the left and `profile_b` with those
    to the right. -/
theorem keepRows_nearest (J : Join ℝ) (bld : Build ℝ) (hself : J.args.hasB = false)
    (hkeep : J.args.keepRowsSeparate = true) (htype : NearestType J.args.profileType)
    (memory : ℕ → Tile ℝ) (s : OpState ℝ)
    (hrun : Relation.ReflTransGen (StepWhere J bld (SeedsRowsBelow J)) (J.initState memory) s)
    (hreturned : J.Returned s) (i : ℕ) :
    NearestEntry J.args.profileType (LeftPartner J i) (J.pearson i) (s.shared.profileA.data.get i) ∧
      NearestEntry J.args.profileType (RightPartner J i) (J.pearson i)
        (s.shared.profileB.data.get i) := by
  have hentry : entryType J.info.profileType = true := entryType_of_nearest htype
  have hU := unrollWid_pos bld
  obtain ⟨R, keepsIndex, hR, hseedOK, hkeeps⟩ := exists_bestAbsorption bld htype J.info.threshold
  have htarget := mergeTargetB_self hself hentry
  rw [hkeep, if_pos rfl] at htarget
  have hgood : Relation.ReflTransGen (GoodStep R) (J.initState memory) s := by
    refine run_good hentry (fun s doneA doneB i act hinv hbelow => ?_) hrun
    rcases htype with hindex | hone
    · exact goodSeed_of_same hentry (fun h => absurd (hindex.symm.trans h) (by decide)) hinv _ _
    · -- `PROFILE_TYPE_1NN` copies from `profile_a` and merges into `profile_b`
      rintro k rfl side hside source start length hinit
      obtain rfl : Side.b = side := Option.some.inj (htarget.symm.trans hside)
      have hcopy : initProfileB J.info (s.workers i).tile.dims =
          .copy .a (s.workers i).tile.dims.row
            ((s.workers i).tile.dims.height - J.info.mpWindow + 1) := by
        unfold initProfileB
        rw [show J.info.profileType = .oneNN from hone, J.selfJoin_of_self hself]
        rfl
      obtain ⟨rfl, rfl, _⟩ := ProfileInit.copy.inj (hinit.symm.trans hcopy)
      rw [hseedOK]
      exact hbelow hone k rfl
  have hcomputed : Computed J .b := Or.inr htarget
  have hA := returned_entry (R := R) hentry hgood hreturned (Or.inl rfl : Computed J .a) i
  have hB := returned_entry (R := R) hentry hgood hreturned hcomputed i
  rw [hR] at hA hB
  constructor
  · refine nearest_of_candidates htype hkeeps hA (fun j => (i, j)) (fun h => ?_) (fun j => and_assoc.symm)
    rw [hitsOf_offered hU, if_pos rfl, htarget, if_neg nofun, add_zero, mem_columnHits_self hself hU]
  · refine nearest_of_candidates htype hkeeps hB (fun j => (i, j)) (fun h => ?_) (fun j => and_assoc.symm)
    rw [hitsOf_offered hU, if_neg nofun, htarget, if_pos rfl, zero_add, mem_rowHits_self hself hU]

/-- The join of `twoWindowJoin` with separate rows and without indices, on one worker. -/
noncomputable def keepRowsJoin : Join ℝ where
  args := { selfJoinArgs .oneNN twoWindowJoin.args.timeseriesA 3 with keepRowsSeparate := true }
  numThreads := 1
  threads_pos := Nat.one_pos
  valid := rfl
  columns := rfl
  rows_self := fun _ => rfl
  rows_ab := fun _ => rfl
  type_a := rfl
  type_b := fun _ => rfl

theorem keepRowsJoin_tiles : getTiles keepRowsJoin.info = [(0, 0)] := by
  have h1 : keepRowsJoin.info.numTileRows = 1 := by rfl
  have h2 : keepRowsJoin.info.numTileCols = 1 := by rfl
  show selfJoinTiles keepRowsJoin.info.numTileRows keepRowsJoin.info.numTileCols = _
  rw [h1, h2]
  rfl

/-- The rows of the only tile are seeded from a `profile_a` that is as new as `profile_b`. -/
theorem keepRowsJoin_run : ∃ s, Relation.ReflTransGen (StepWhere keepRowsJoin scanBuild (SeedsRowsBelow keepRowsJoin))
    (keepRowsJoin.initState fun _ => zeroTile) s ∧ keepRowsJoin.Returned s := by
  have hentered : Relation.ReflTransGen
      (SoloStep keepRowsJoin scanBuild fun g w act => SeedsRowsBelow keepRowsJoin ⟨g, fun _ => w⟩ 0 act)
      ((keepRowsJoin.initState fun _ => zeroTile).shared, (keepRowsJoin.initState fun _ => zeroTile).workers 0)
      ((keepRowsJoin.initState fun _ => zeroTile).shared, ⟨.checking, (0, 0), zeroTile⟩) :=
    .single ⟨.advance, rfl, fun _ => nofun⟩
  have hstart := solo_run (by decide) hentered
  have hok := stateOK_stepWhere rfl hstart (stateOK_init rfl fun _ => zeroTile)
  obtain ⟨s, htile, hchecking, hqueue, -⟩ := solo_tile
    (P := fun g w act => SeedsRowsBelow keepRowsJoin ⟨g, fun _ => w⟩ 0 act) rfl rfl rfl (Or.inl rfl) hok (i := 0)
    (by decide) rfl keepRowsJoin_tiles (fun _ _ _ => nofun) (fun _ _ _ _ => nofun)
    fun _ _ _ _ _ _ => ⟨-2, -2, rfl, rfl, le_refl _⟩
  have hleaves : Relation.ReflTransGen
      (SoloStep keepRowsJoin scanBuild fun g w act => SeedsRowsBelow keepRowsJoin ⟨g, fun _ => w⟩ 0 act)
      (s.shared, s.workers 0) (s.shared, { s.workers 0 with phase := .finished }) := by
    refine .single ⟨.advance, ?_, fun _ => nofun⟩
    simp only [workStep, hchecking, hqueue]
    rfl
  refine ⟨_, (hstart.trans htile).trans (solo_run (by decide) hleaves), fun i hi => ?_⟩
  obtain rfl : i = 0 := Nat.lt_one_iff.mp hi
  rw [workers_update, if_pos rfl]

theorem keepRows_nearest_twoWindow : ∃ s, Relation.ReflTransGen
      (StepWhere keepRowsJoin scanBuild (SeedsRowsBelow keepRowsJoin)) (keepRowsJoin.initState fun _ => zeroTile) s ∧
    keepRowsJoin.Returned s ∧
    NearestEntry .oneNN (LeftPartner keepRowsJoin 1) (keepRowsJoin.pearson 1) (s.shared.profileA.data.get 1) ∧
    NearestEntry .oneNN (RightPartner keepRowsJoin 0) (keepRowsJoin.pearson 0) (s.shared.profileB.data.get 0) := by
  obtain ⟨s, hrun, hreturned⟩ := keepRowsJoin_run
  have hentries := keepRows_nearest keepRowsJoin scanBuild rfl rfl (Or.inr rfl) _ s hrun hreturned
  exact ⟨s, hrun, hreturned, (hentries 1).1, (hentries 0).2⟩

/-! ## A leak -/

/-- Seven samples with two windows of length `3` that take part, the first two. -/
noncomputable def leakSeries : Vec (Sample ℝ) :=
  ⟨7, fun i => if i < 4 then .finite (if i = 0 ∨ i = 3 then 1 else 0) else .nan⟩

/-- Their self-join on two workers, with separate rows: tiles of `4` rows and columns, two by two. -/
noncomputable def leakJoin : Join ℝ where
  args := { selfJoinArgs .oneNN leakSeries 3 with keepRowsSeparate := true }
  numThreads := 2
  threads_pos := Nat.two_pos
  valid := rfl
  columns := rfl
  rows_self := fun _ => rfl
  rows_ab := fun _ => rfl
  type_a := rfl
  type_b := fun _ => rfl

theorem leakJoin_tiles : getTiles leakJoin.info = [(0, 0), (0, 1), (1, 1)] := by
  have h1 : leakJoin.info.numTileRows = 2 := by rfl
  have h2 : leakJoin.info.numTileCols = 2 := by rfl
  show selfJoinTiles leakJoin.info.numTileRows leakJoin.info.numTileCols = _
  rw [h1, h2]
  rfl

/-- The first two windows take part. -/
theorem leakSeries_valid {i : ℕ} (hi : i < 2) : ValidWindow leakSeries 3 i := by
  constructor
  · intro j hj
    show (if i + j < 4 then _ else _ : Sample ℝ).isFinite = true
    rw [if_pos (by omega)]
    rfl
  · unfold flatnessEpsilon ssd windowMean windowSum cleanSeries leakSeries
    rcases (by omega : i = 0 ∨ i = 1) with rfl | rfl
    · simp [Finset.sum_range_succ, Sample.cleaned]
      norm_num
    · simp [Finset.sum_range_succ, Sample.cleaned]
      norm_num

/-- The others do not. -/
theorem leakSeries_not_valid {i : ℕ} (h2 : 2 ≤ i) : ¬ValidWindow leakSeries 3 i := by
  rintro ⟨hfinite, _⟩
  have hlast := hfinite 2 (by omega)
  have hnan : leakSeries.get (i + 2) = .nan := if_neg (by omega)
  rw [hnan] at hlast
  exact absurd hlast Bool.noConfusion

/-- After its first tile alone, the join has a match to the left of window `1` in `profile_a`. -/
theorem leakJoin_first_tile {s : OpState ℝ} {R : Absorption scanBuild leakJoin.info.profileType
    leakJoin.info.threshold} {keepsIndex : Bool} (hR : R.rel = Best keepsIndex)
    {doneB : Multiset TilePos} (hinv : RunInv R s {(0, 0)} doneB) :
    AtLeast (-1) (s.shared.profileA.data.get 1) := by
  have hself : leakJoin.args.hasB = false := rfl
  have htype : NearestType leakJoin.info.profileType := Or.inr rfl
  have hU := unrollWid_pos (scanBuild (K := ℝ))
  have hrel := hinv.profile .a (Or.inl rfl) 1
  rw [hR] at hrel
  obtain ⟨v, hv, _, hdom, _⟩ := hrel (-2) rfl
  have hcell : (0, 1) ∈ tileCells (scanBuild (K := ℝ)).unrollWid leakJoin.info (0, 0) := by
    rw [mem_selfJoin_tileCells hself (leakJoin_tiles ▸ List.mem_cons_self) hU]
    exact ⟨(inTile_iff leakJoin).mpr ⟨rfl, by decide, by decide⟩, Nat.le_refl 1⟩
  have hcorr : leakJoin.cellCorr 0 1 = leakJoin.pearson 0 1 :=
    if_pos ⟨leakSeries_valid (by omega), leakSeries_valid (by omega)⟩
  have hhit : (⟨leakJoin.cellCorr 0 1, 0⟩ : Hit ℝ) ∈
      hitsOf (offered leakJoin (scanBuild (K := ℝ)).unrollWid .a {(0, 0)} doneB 1) := by
    unfold offered
    rw [if_pos rfl, hitsOf_add, Multiset.mem_add, Multiset.singleton_bind,
      hitsOf_columnOffer hU (leakJoin_tiles ▸ List.mem_cons_self)]
    refine Or.inl (Multiset.mem_bind.mpr ⟨(0, 1), hcell, ?_⟩)
    rw [if_pos rfl]
    exact Multiset.mem_singleton_self _
  obtain ⟨b, hb, hh⟩ := Multiset.mem_bind.mp hhit
  have := hdom b hb _ hh
  dsimp only at this
  rw [hcorr] at this
  exact ⟨v, hv, (neg_one_le_pearson leakJoin 0 1).trans this⟩

/-- Worker `0` alone takes the first tile through. -/
theorem leakJoin_run_first : ∃ s, Relation.ReflTransGen (OpStep (leakJoin.operation scanBuild) 2)
    (leakJoin.initState fun _ => zeroTile) s ∧ (s.workers 0).phase = .checking ∧
    s.shared.workQueue = [(0, 1), (1, 1)] ∧ AtLeast (-1) (s.shared.profileA.data.get 1) ∧
    ∃ x, (s.shared.profileB.data.get 1).value = .num x := by
  have htype : NearestType leakJoin.info.profileType := Or.inr rfl
  have hentry : entryType leakJoin.info.profileType = true := rfl
  obtain ⟨R, keepsIndex, hR, hseedOK, _⟩ := exists_bestAbsorption scanBuild htype leakJoin.info.threshold
  -- it enters the loop
  have hstart : Relation.ReflTransGen (GoodStep R) (leakJoin.initState fun _ => zeroTile)
      ⟨(leakJoin.initState fun _ => zeroTile).shared, Function.update
        (leakJoin.initState fun _ => zeroTile).workers 0 ⟨.checking, (0, 0), zeroTile⟩⟩ := by
    have hsolo : Relation.ReflTransGen (SoloStep leakJoin scanBuild (GoodSeed R))
        ((leakJoin.initState fun _ => zeroTile).shared, (leakJoin.initState fun _ => zeroTile).workers 0)
        ((leakJoin.initState fun _ => zeroTile).shared, ⟨.checking, (0, 0), zeroTile⟩) :=
      .single ⟨.advance, rfl, nofun⟩
    exact solo_run (by decide) hsolo
  obtain ⟨hs, _⟩ := runInv_run hentry hstart
  -- both profiles are still initial when it copies its seeds
  obtain ⟨s, htile, hchecking, hqueue, hothers, _⟩ := solo_tile (P := GoodSeed R) rfl rfl rfl (Or.inl rfl) hs
    (i := 0) (by decide) rfl leakJoin_tiles (fun _ _ => nofun) (fun _ _ _ => nofun) (by
      rintro w k _ k' _ side _ source start length _
      rw [hseedOK]
      cases source <;> cases side <;> exact ⟨-2, -2, rfl, rfl, le_refl _⟩)
  have hrun := hstart.trans htile
  obtain ⟨_, doneA, doneB, hinv⟩ := runInv_run hentry hrun
  have hdone : doneA = {(0, 0)} := by
    have htiles := hinv.tilesA
    have hheld : ∑ i ∈ Finset.range leakJoin.numThreads, heldA (s.workers i) = 0 := by
      show ∑ i ∈ Finset.range 2, heldA (s.workers i) = 0
      have hother : s.workers 1 = ⟨.start, (0, 0), zeroTile⟩ := by rw [hothers 1 (by decide)]; rfl
      simp [Finset.sum_range_succ, heldA, hchecking, hother]
    rw [hheld, hqueue, add_zero, leakJoin_tiles, ← Multiset.cons_coe (0, 0),
      ← Multiset.singleton_add] at htiles
    exact add_right_cancel htiles
  subst hdone
  obtain ⟨x, hx, _⟩ := (hR ▸ hinv.profile .b (Or.inr rfl) 1 :
    Best keepsIndex (allocEntry .oneNN) _ (s.shared.profileB.data.get 1)) (-2) rfl
  exact ⟨s, run_of_stepWhere hrun, hchecking, hqueue, leakJoin_first_tile hR hinv, x, hx⟩

/-- **A match to the left ends up in `profile_b`.** The first tile puts the match of window `1` with window
    `0` into `profile_a`; the second copies it as the seed of row `1` and merges it into `profile_b`, which
    should have no match for a window without a valid one to the right. -/
theorem leakJoin_leaks : ∃ s, leakJoin.Run scanBuild (fun _ => zeroTile) s ∧ leakJoin.Returned s ∧
    ¬NearestEntry .oneNN (RightPartner leakJoin 1) (leakJoin.pearson 1)
      (s.shared.profileB.data.get 1) := by
  have htype : NearestType leakJoin.info.profileType := Or.inr rfl
  have hentry : entryType leakJoin.info.profileType = true := rfl
  obtain ⟨s, hrun, hchecking, hqueue, ⟨v, hv, hle⟩, hnum⟩ := leakJoin_run_first
  have hs : StateOK leakJoin scanBuild s := stateOK_run hentry hrun
  obtain ⟨s', htile, _, _, _, hfloor⟩ := solo_tile (P := fun _ _ _ => True) rfl rfl rfl (Or.inl rfl) hs
    (i := 0) (by decide) hchecking hqueue (fun _ _ => trivial) (fun _ _ _ => trivial) fun _ _ _ => trivial
  obtain ⟨v', hv', hle'⟩ := hfloor 1 (by decide) v hv hnum
  have hs' := stateOK_stepWhere hentry htile hs
  obtain ⟨s'', hrest, hreturned⟩ := runs_return hentry (Or.inl rfl) hs'
  have hleak : AtLeast (-1) ((s''.shared.profile .b).data.get 1) :=
    run_atLeast htype hs' hrest ⟨v', hv', hle.trans hle'⟩
  refine ⟨s'', (hrun.trans (run_of_stepWhere htile)).trans hrest, hreturned, fun hnearest => ?_⟩
  have hnone : ¬∃ j, RightPartner leakJoin 1 j := by
    rintro ⟨j, _, hj, hvalid⟩
    exact leakSeries_not_valid hj hvalid.1
  obtain ⟨x, hx, hge⟩ := hleak
  have hinit : s''.shared.profileB.data.get 1 = allocEntry .oneNN := hnearest.none hnone
  have hx2 : (Dbl.num (-2) : Dbl ℝ) = .num x := (congrArg MpEntry.value hinit).symm.trans hx
  have := Dbl.num.inj hx2
  linarith

end Scamp
