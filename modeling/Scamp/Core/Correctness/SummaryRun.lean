import Scamp.Core.Correctness.Summary
import Scamp.Core.Correctness.SummaryBounds

/-!
# `Core.Correctness.SummaryRun` — the summary a join returns

The workers of a matrix summary: what a step of one can be (`SummaryStep`), the invariant of a run
(`SummaryInv`), and the summary they return: each cell of it holds the largest correlation of the compared
cells that lie in it, as far as these reach the threshold.

The steps address the summary without bounds, the source in `int`s (`updateMpIndex`, `matrixMergeCounter`).
`summary_returned` says that these hold what they have to (`SummaryAddressed`) exactly for summaries of fewer
than `2 ^ 31` cells.
-/

namespace Scamp

open Lib

/-! ## A step of a worker -/

section
variable {K : Type} [Field K] [LinearOrder K]

/-- The size of the summary. -/
def summarySize (J : Join K) : ℕ := J.summaryHeight * J.summaryWidth

/-- Copies entry `k` of the summary into the worker's own. -/
def copySummaryEntry (g : Shared K) (tile : Tile K) (k : ℕ) : Tile K :=
  { tile with profileATileDev := Function.update tile.profileATileDev k (g.profileA.data.get k) }

/-- A step of a worker of a matrix summary. -/
inductive SummaryStep (op : Operation K) (g : Shared K) (w : Worker K) : Action → Shared K → Worker K → Prop
  | enter : w.phase = .start →
      SummaryStep op g w .advance g { w with phase := .presetting (List.range g.profileA.data.size) [] }
  | preset {a k} : w.phase = .presetting a [] → k ∈ a →
      SummaryStep op g w (.copyA k) g
        { w with phase := .presetting (a.erase k) [], tile := copySummaryEntry g w.tile k }
  | ready : w.phase = .presetting [] [] → SummaryStep op g w .advance g { w with phase := .checking }
  | look : w.phase = .checking → g.workQueue ≠ [] →
      SummaryStep op g w .advance g { w with phase := .popping }
  | leave : w.phase = .checking ∨ w.phase = .popping → g.workQueue = [] →
      SummaryStep op g w .advance g { w with phase := .mergingA true }
  | pop {t rest} : w.phase = .popping → g.workQueue = t :: rest →
      SummaryStep op g w .advance { g with workQueue := rest }
        { phase := .seeding [] [], pos := t, tile := prepareTile op t w.tile }
  | run {tile} : w.phase = .seeding [] [] →
      w.tile.execute op.build op.info (tileType op.info w.pos) = .ok tile →
      SummaryStep op g w .advance g { w with phase := .counting, tile := tile }
  | runFails {e} : w.phase = .seeding [] [] →
      w.tile.execute op.build op.info (tileType op.info w.pos) = .error e →
      SummaryStep op g w .advance g
        { w with phase := .failed ("ERROR " ++ getSCAMPErrorString e ++ " executing tile") }
  | count : w.phase = .counting →
      SummaryStep op g w .advance { g with completedTiles := g.completedTiles + 1 }
        { w with phase := .checking }
  | merge {p} : w.phase = .mergingA true → w.tile.mergeProfileA op.info g.profileA = .ok p →
      SummaryStep op g w .advance { g with profileA := p } { w with phase := .finished }

/-- The phases of a worker of a matrix summary: nothing is copied but the summary, and that before the first
    tile; nothing is merged before the loop ends. -/
def SummaryPhase : Phase → Prop
  | .presetting _ b => b = []
  | .seeding a b => a = [] ∧ b = []
  | .mergingA last => last = true
  | .mergingB _ => False
  | _ => True

section
variable {J : Join K} (hJ : SummaryJoin J)
include hJ

theorem beginInitProfile_summary (size : ℕ) (tile : Tile K) :
    beginInitProfile J.info size tile = (tile, List.range size, []) := by
  unfold beginInitProfile initProfileA initProfileB
  rw [hJ.info_type]
  rfl

/-- The merge of a worker's summary into the common one. -/
theorem mergeSummary_ok {p : Profile K} (hp : p.type = .matrixSummary) (tile : Tile K) :
    ∃ p', tile.mergeProfileA J.info p = .ok p' ∧ p'.type = .matrixSummary ∧ p'.data.size = p.data.size ∧
      ∀ k, p'.data.get k =
        if k < summarySize J then maxEntry 0 (p.data.get k) (tile.profileATileDev k) else p.data.get k := by
  have hsize : (J.info.matrixWidth * J.info.matrixHeight).toNat = summarySize J := by
    show (J.args.matrixWidth * J.args.matrixHeight).toNat = _
    rw [← hJ.width_eq, ← hJ.height_eq, ← Int.natCast_mul, Int.toNat_natCast, Nat.mul_comm]
    rfl
  unfold Tile.mergeProfileA Tile.mergeWidth mergeTileToProfile
  rw [hJ.info_type, hsize]
  dsimp only
  rw [hp, if_neg (not_not.mpr rfl)]
  refine ⟨_, rfl, rfl, size_elementwise _ _ _ _, fun k => ?_⟩
  refine (get_elementwise _ _ _ _ k).trans ?_
  simp [copyFromDevice]

variable {bld : Build K} [HasSqrt K]

/-- **What a step can be.** -/
theorem summaryStep_cases {g g' : Shared K} (hg : g.profileA.type = .matrixSummary) {w w' : Worker K}
    (hphase : SummaryPhase w.phase) {act : Action}
    (h : workStep (J.operation bld) act g w = some (g', w')) :
    SummaryStep (J.operation bld) g w act g' w' := by
  have hinfo : (J.operation bld).info = J.info := rfl
  have hreset : needsIntermittentReset (J.operation bld).info.profileType = false := by
    rw [hinfo, hJ.info_type]
    rfl
  have hmerge : needsIntermittentMerge (J.operation bld).info.profileType = false := hreset
  have hleave : leaveLoop (J.operation bld).info = .mergingA true := by
    unfold leaveLoop
    rw [hmerge]
    rfl
  cases hw : w.phase with
  | start =>
      cases act with
      | advance =>
          unfold workStep at h
          rw [hw] at h
          dsimp only at h
          rw [hreset, if_neg Bool.false_ne_true, hinfo, beginInitProfile_summary hJ] at h
          obtain ⟨rfl, rfl⟩ := Prod.mk.injEq .. ▸ Option.some.inj h
          exact .enter hw
      | _ => simp [workStep, hw] at h
  | presetting a b =>
      rw [hw] at hphase
      obtain rfl : b = [] := hphase
      unfold workStep at h
      cases act with
      | advance =>
          cases a with
          | cons k a => simp [hw] at h
          | nil =>
              rw [hw] at h
              obtain ⟨rfl, rfl⟩ := Prod.mk.injEq .. ▸ Option.some.inj h
              exact .ready hw
      | copyA k =>
          rw [hw] at h
          dsimp only at h
          split at h
          · next hk =>
              -- the whole summary is copied, from its first entry on
              have hcopy : copyEntryA (J.operation bld).info g w.tile k = copySummaryEntry g w.tile k := by
                unfold copyEntryA copyEntry initProfileA copySummaryEntry
                rw [hinfo, hJ.info_type]
                dsimp only
                rw [Nat.zero_add]
                rfl
              rw [hcopy] at h
              obtain ⟨rfl, rfl⟩ := Prod.mk.injEq .. ▸ Option.some.inj h
              exact .preset hw hk
          · cases h
      | copyB k => simp [hw] at h
  | checking =>
      obtain ⟨rfl, rfl, ⟨hq, rfl⟩ | ⟨hq, rfl⟩⟩ := workStep_checking h hw
      · rw [hleave]
        exact .leave (Or.inl hw) hq
      · exact .look hw hq
  | popping =>
      obtain ⟨rfl, ⟨hq, rfl, rfl⟩ | ⟨t, rest, hq, rfl, init, hinit, rfl⟩⟩ := workStep_popping h hw
      · rw [hleave]
        exact .leave (Or.inr hw) hq
      · rw [hinit, hreset, if_neg Bool.false_ne_true]
        exact .pop hw hq
  | seeding a b =>
      rw [hw] at hphase
      obtain ⟨rfl, rfl⟩ := hphase
      cases act with
      | advance =>
          obtain ⟨-, -, rfl, ⟨e, hrun, rfl⟩ | ⟨tile, hrun, rfl⟩⟩ := workStep_execute h hw
          · exact .runFails hw hrun
          · rw [hmerge, if_neg Bool.false_ne_true]
            exact .run hw hrun
      | copyA k => simp [workStep, hw] at h
      | copyB k => simp [workStep, hw] at h
  | mergingA last =>
      rw [hw] at hphase
      obtain rfl : last = true := hphase
      cases act with
      | advance =>
          obtain ⟨p, hp, _⟩ := mergeSummary_ok hJ hg w.tile
          have hp' : w.tile.mergeProfileA (J.operation bld).info g.profileA = .ok p := hp
          have htarget : Tile.mergeTargetB (J.operation bld).info = none := hJ.mergeTargetB_eq
          unfold workStep at h
          rw [hw] at h
          dsimp only at h
          rw [hp'] at h
          dsimp only at h
          rw [htarget] at h
          obtain ⟨rfl, rfl⟩ := Prod.mk.injEq .. ▸ Option.some.inj h
          exact .merge hw hp
      | _ => simp [workStep, hw] at h
  | mergingB last =>
      rw [hw] at hphase
      exact hphase.elim
  | counting =>
      obtain ⟨rfl, rfl, rfl⟩ := workStep_counting h hw
      exact .count hw
  | finished => simp [workStep, hw] at h
  | failed e => simp [workStep, hw] at h

end

end

/-! ## What a summary cell holds -/

section
variable (J : Join ℝ) (U : ℕ)

/-- The cell is one that counts: both windows take part, and the correlation reaches the threshold. -/
def Counts (z : ℕ × ℕ) : Prop := J.ValidCell z.1 z.2 ∧ J.args.distanceThreshold ≤ J.pearson z.1 z.2

/-- The value is the initial one, or the correlation of a compared cell that counts and lies in summary cell
    `k`. -/
def Reached (k : ℕ) (v : Dbl ℝ) : Prop :=
  v = .num (-2) ∨ ∃ z ∈ comparedCells U J.info, summaryIndex J z = k ∧ Counts J z ∧ v = .num (J.pearson z.1 z.2)

/-- The value is no smaller than a number. -/
def ValueAtLeast (x : ℝ) (v : Dbl ℝ) : Prop := ∃ y, v = .num y ∧ x ≤ y

/-- A summary has taken in the cells of a tile. -/
def Shown (t : TilePos) (values : ℕ → Dbl ℝ) : Prop :=
  ∀ z ∈ tileCells U J.info t, Counts J z → ValueAtLeast (J.pearson z.1 z.2) (values (summaryIndex J z))

variable {J U}

theorem Reached.valueAtLeast {k : ℕ} {v : Dbl ℝ} (h : Reached J U k v) : ValueAtLeast (-2) v := by
  rcases h with rfl | ⟨z, _, _, _, rfl⟩
  · exact ⟨_, rfl, le_refl _⟩
  · have := neg_one_le_pearson J z.1 z.2
    exact ⟨_, rfl, by linarith⟩

theorem ValueAtLeast.trans {x y : ℝ} {v : Dbl ℝ} (h : ValueAtLeast y v) (hle : x ≤ y) : ValueAtLeast x v := by
  obtain ⟨z, hz, hyz⟩ := h
  exact ⟨z, hz, hle.trans hyz⟩

/-- A summary that only grows stays shown what it was shown. -/
theorem Shown.mono {t : TilePos} {values values' : ℕ → Dbl ℝ} (h : Shown J U t values)
    (hgrow : ∀ z ∈ tileCells U J.info t, ∀ x, ValueAtLeast x (values (summaryIndex J z)) →
      ValueAtLeast x (values' (summaryIndex J z))) : Shown J U t values' := by
  intro z hz hcounts
  exact hgrow z hz _ (h z hz hcounts)

/-- **Offering cells.** A summary cell that only holds what it may keeps doing so, does not shrink, and takes in
    the cells that count. -/
theorem summaryFold_spec (hJ : SummaryJoin J) {k : ℕ} (cells : List (ℕ × ℕ))
    (hcells : ∀ z ∈ cells, z ∈ comparedCells U J.info) : ∀ {v : Dbl ℝ}, Reached J U k v →
      Reached J U k (summaryFold J cells k v) ∧
        (∀ x, ValueAtLeast x v → ValueAtLeast x (summaryFold J cells k v)) ∧
        ∀ z ∈ cells, summaryIndex J z = k → Counts J z →
          ValueAtLeast (J.pearson z.1 z.2) (summaryFold J cells k v) := by
  have hinit : (initDist J.info.profileType : ℝ) = -2 := by
    rw [hJ.info_type]
    rfl
  induction cells with
  | nil =>
      intro v hv
      exact ⟨hv, fun x hx => hx, fun z hz => absurd hz List.not_mem_nil⟩
  | cons z cells ih =>
      intro v hv
      have hrest := @ih (fun z' hz' => hcells z' (List.mem_cons_of_mem _ hz'))
      unfold summaryFold at hrest ⊢
      by_cases hz : summaryIndex J z = k
      · rw [List.filter_cons_of_pos (by simpa using hz), List.foldl_cons]
        obtain ⟨w, rfl, hw⟩ := hv.valueAtLeast
        rw [takeIn_summary]
        -- the entry after this cell
        have hnext : Reached J U k (.num (if J.cellCorr z.1 z.2 < J.info.threshold then w
            else max w (J.cellCorr z.1 z.2))) ∧
            w ≤ (if J.cellCorr z.1 z.2 < J.info.threshold then w else max w (J.cellCorr z.1 z.2)) ∧
            (Counts J z → J.pearson z.1 z.2 ≤
              if J.cellCorr z.1 z.2 < J.info.threshold then w else max w (J.cellCorr z.1 z.2)) := by
          unfold Join.cellCorr
          by_cases hvalid : J.ValidCell z.1 z.2
          · rw [if_pos hvalid]
            by_cases hlow : J.pearson z.1 z.2 < J.info.threshold
            · rw [if_pos hlow]
              exact ⟨hv, le_refl _, fun hcounts => absurd hcounts.2 (not_le.mpr hlow)⟩
            · rw [if_neg hlow]
              refine ⟨?_, le_max_left _ _, fun _ => le_max_right _ _⟩
              rcases max_choice w (J.pearson z.1 z.2) with hmax | hmax
              · rw [hmax]
                exact hv
              · rw [hmax]
                exact Or.inr ⟨z, hcells z List.mem_cons_self, hz, ⟨hvalid, not_lt.mp hlow⟩, rfl⟩
          · rw [if_neg hvalid, hinit, max_eq_left hw, ite_self]
            exact ⟨hv, le_refl _, fun hcounts => absurd hcounts.1 hvalid⟩
        obtain ⟨hreached, hgrow, hshown⟩ := hnext
        obtain ⟨h1, h2, h3⟩ := hrest hreached
        refine ⟨h1, fun x hx => h2 x ?_, fun z' hz' hk hcounts => ?_⟩
        · obtain ⟨y, hy, hxy⟩ := hx
          obtain rfl := Dbl.num.inj hy
          exact ⟨_, rfl, hxy.trans hgrow⟩
        · rcases List.mem_cons.mp hz' with rfl | hz'
          · exact h2 _ ⟨_, rfl, hshown hcounts⟩
          · exact h3 z' hz' hk hcounts
      · rw [List.filter_cons_of_neg (by simpa using hz)]
        obtain ⟨h1, h2, h3⟩ := hrest hv
        refine ⟨h1, h2, fun z' hz' hk hcounts => ?_⟩
        rcases List.mem_cons.mp hz' with rfl | hz'
        · exact absurd hk hz
        · exact h3 z' hz' hk hcounts

/-- **Merging two summary cells.** -/
theorem maxEntry_spec {k : ℕ} {e1 e2 : MpEntry ℝ} (h1 : Reached J U k e1.value) (h2 : Reached J U k e2.value) :
    Reached J U k (maxEntry 0 e1 e2).value ∧ (∀ x, ValueAtLeast x e1.value → ValueAtLeast x (maxEntry 0 e1 e2).value) ∧
      ∀ x, ValueAtLeast x e2.value → ValueAtLeast x (maxEntry 0 e1 e2).value := by
  obtain ⟨v, hv, _⟩ := h1.valueAtLeast
  obtain ⟨w, hw, _⟩ := h2.valueAtLeast
  unfold maxEntry
  rw [hv, hw, Dbl.gt_num]
  rw [hv] at h1
  rw [hw] at h2
  by_cases hlt : v < w
  · rw [if_pos (decide_eq_true hlt)]
    dsimp only
    refine ⟨h2, fun x hx => ?_, fun x hx => hx⟩
    obtain ⟨y, hy, hle⟩ := hx
    obtain rfl := Dbl.num.inj hy
    exact ⟨w, rfl, hle.trans hlt.le⟩
  · rw [if_neg (by simpa using hlt), hv]
    refine ⟨h1, fun x hx => hx, fun x hx => ?_⟩
    obtain ⟨y, hy, hle⟩ := hx
    obtain rfl := Dbl.num.inj hy
    exact ⟨v, rfl, hle.trans (not_lt.mp hlt)⟩

/-! ## What every run keeps -/

/-- The worker works with a copy of the summary that it will merge. -/
def Phase.active : Phase → Bool
  | .checking | .popping | .seeding _ _ | .counting | .mergingA _ => true
  | _ => false

/-- The values of a summary. -/
def valuesOf (mp : Buffer (MpEntry ℝ)) : ℕ → Dbl ℝ := fun k => (mp k).value

section
variable (J : Join ℝ) (bld : Build ℝ)

/-- What holds of a worker. -/
structure SummaryWorker (g : Shared ℝ) (w : Worker ℝ) : Prop where
  phase : SummaryPhase w.phase
  preset : ∀ a b, w.phase = .presetting a b → ∀ k < summarySize J, k ∉ a →
    Reached J bld.unrollWid k (w.tile.profileATileDev k).value
  active : w.phase.active = true → ∀ k < summarySize J,
    Reached J bld.unrollWid k (w.tile.profileATileDev k).value
  holds : ∀ a b, w.phase = .seeding a b → w.pos ∈ getTiles J.info ∧ Prepared (J.operation bld) w.pos w.tile
  drained : (∃ last, w.phase = .mergingA last) ∨ w.phase = .finished → g.workQueue = []
  fails : ∀ e, w.phase = .failed e → ¬cpuPrecision J.info.fpType

/-- The worker is about to execute the tile, or has and will merge it, or has given up. -/
def Accounts (w : Worker ℝ) (t : TilePos) : Prop :=
  (∃ a b, w.phase = .seeding a b ∧ w.pos = t) ∨
    (w.phase.active = true ∧ Shown J bld.unrollWid t (valuesOf w.tile.profileATileDev)) ∨
    ∃ e, w.phase = .failed e

/-- The common summary as it should be. -/
structure SummaryShared (g : Shared ℝ) : Prop where
  type_eq : g.profileA.type = .matrixSummary
  size_eq : g.profileA.data.size = summarySize J
  queue : ∀ t ∈ g.workQueue, t ∈ getTiles J.info
  reached : ∀ k < summarySize J, Reached J bld.unrollWid k (g.profileA.data.get k).value

/-- **What holds in every run.** -/
structure SummaryInv (s : OpState ℝ) : Prop where
  shared : SummaryShared J bld s.shared
  worker : ∀ i < J.numThreads, SummaryWorker J bld s.shared (s.workers i)
  accounted : ∀ t ∈ getTiles J.info, t ∈ s.shared.workQueue ∨
    (∃ i < J.numThreads, Accounts J bld (s.workers i) t) ∨
      Shown J bld.unrollWid t (valuesOf s.shared.profileA.data.get)

/-- What a step of one worker keeps. -/
structure SummaryKeeps (g g' : Shared ℝ) (w w' : Worker ℝ) : Prop where
  shared : SummaryShared J bld g'
  worker : SummaryWorker J bld g' w'
  suffix : g'.workQueue <:+ g.workQueue
  grows : ∀ k < summarySize J, ∀ x, ValueAtLeast x (g.profileA.data.get k).value →
    ValueAtLeast x (g'.profileA.data.get k).value
  accounted : ∀ t ∈ getTiles J.info, t ∈ g.workQueue ∨ Accounts J bld w t →
    t ∈ g'.workQueue ∨ Accounts J bld w' t ∨ Shown J bld.unrollWid t (valuesOf g'.profileA.data.get)

variable {J bld} (hJ : SummaryJoin J)
include hJ

omit hJ in
/-- A cell of a tile of the work list is a compared cell of the matrix. -/
theorem cell_of_tile {U : ℕ} (hU : 0 < U) {t : TilePos} (ht : t ∈ getTiles J.info) {z : ℕ × ℕ}
    (hz : z ∈ tileCells U J.info t) :
    z ∈ comparedCells U J.info ∧ z.1 < J.info.numRows ∧ z.2 < J.info.numCols := by
  obtain ⟨hrow, hcol⟩ := inTile_of_mem_tileCells (r := z.1) (c := z.2) hU ht hz
  have hsizeA : tileNumCols J.info t ≤ J.info.numCols - t.2 * J.info.maxTileWidth := Nat.min_le_right _ _
  have hsizeB : tileNumRows J.info t ≤ J.info.numRows - t.1 * J.info.maxTileWidth := Nat.min_le_right _ _
  exact ⟨List.mem_flatMap.mpr ⟨t, ht, hz⟩, by omega, by omega⟩

theorem summaryIndex_lt {z : ℕ × ℕ} (hr : z.1 < J.info.numRows) (hc : z.2 < J.info.numCols) :
    summaryIndex J z < summarySize J := by
  have hh := hJ.height_eq
  have hw := hJ.width_eq
  have hh1 := hJ.height_pos
  have hw1 := hJ.width_pos
  obtain ⟨_, hrow⟩ := floor_div_parts (k := J.summaryHeight) (by omega) hr
  obtain ⟨_, hcol⟩ := floor_div_parts (k := J.summaryWidth) (by omega) hc
  unfold summaryIndex summaryCell summarySize
  calc z.1 * J.summaryHeight / J.info.numRows * J.summaryWidth + z.2 * J.summaryWidth / J.info.numCols
      < z.1 * J.summaryHeight / J.info.numRows * J.summaryWidth + J.summaryWidth := Nat.add_lt_add_left hcol _
    _ = (z.1 * J.summaryHeight / J.info.numRows + 1) * J.summaryWidth := by ring
    _ ≤ J.summaryHeight * J.summaryWidth := Nat.mul_le_mul_right _ hrow

/-- What was shown to a summary stays shown while it grows. -/
theorem shown_of_grows {t : TilePos} (ht : t ∈ getTiles J.info) {mp mp' : Buffer (MpEntry ℝ)}
    (h : Shown J bld.unrollWid t (valuesOf mp))
    (hgrows : ∀ k < summarySize J, ∀ x, ValueAtLeast x (mp k).value → ValueAtLeast x (mp' k).value) :
    Shown J bld.unrollWid t (valuesOf mp') := by
  apply h.mono
  intro z hz x hx
  obtain ⟨_, hr, hc⟩ := cell_of_tile (unrollWid_pos bld) ht hz
  exact hgrows _ (summaryIndex_lt hJ hr hc) x hx

omit hJ in
/-- A worker between two tiles accounts for a tile by what its own summary was shown. -/
theorem Accounts.active_shown {w : Worker ℝ} {t : TilePos} (h : Accounts J bld w t)
    (hseed : ∀ a b, w.phase ≠ .seeding a b) (hfailed : ∀ e, w.phase ≠ .failed e) :
    w.phase.active = true ∧ Shown J bld.unrollWid t (valuesOf w.tile.profileATileDev) := by
  rcases h with ⟨a, b, h, _⟩ | h | ⟨e, h⟩
  · exact absurd h (hseed a b)
  · exact h
  · exact absurd h (hfailed e)

omit hJ in
/-- A step that leaves the common summary, the queue and the worker's tile alone. -/
theorem summaryKeeps_idle {g : Shared ℝ} {w : Worker ℝ} (hg : SummaryShared J bld g) (completed : ℕ)
    (phase : Phase) (hphase : SummaryPhase phase)
    (hpreset : ∀ a b, phase ≠ .presetting a b) (hseed : ∀ a b, w.phase ≠ .seeding a b)
    (hactive : phase.active = true)
    (hlocal : ∀ k < summarySize J, Reached J bld.unrollWid k (w.tile.profileATileDev k).value)
    (hnext : ∀ a b, phase ≠ .seeding a b)
    (hdrained : (∃ last, phase = .mergingA last) → g.workQueue = [])
    (hfailed : ∀ e, w.phase ≠ .failed e) :
    SummaryKeeps J bld g { g with completedTiles := completed } w { w with phase := phase } where
  shared := ⟨hg.type_eq, hg.size_eq, hg.queue, hg.reached⟩
  worker := by
    refine ⟨hphase, fun a b h => absurd h (hpreset a b), fun _ => hlocal, fun a b h => absurd h (hnext a b), ?_, ?_⟩
    · rintro (h | rfl)
      · exact hdrained h
      · cases hactive
    · rintro e rfl
      cases hactive
  suffix := List.suffix_refl _
  grows _ _ _ hx := hx
  accounted := by
    intro t _ h
    rcases h with h | h
    · exact Or.inl h
    · obtain ⟨_, hshown⟩ := h.active_shown hseed hfailed
      exact Or.inr (Or.inl (Or.inr (Or.inl ⟨hactive, hshown⟩)))

/-- **One worker's step.** -/
theorem summaryStep_keeps {g g' : Shared ℝ} {w w' : Worker ℝ} {act : Action} (hg : SummaryShared J bld g)
    (hw : SummaryWorker J bld g w) (hstep : SummaryStep (J.operation bld) g w act g' w') :
    SummaryKeeps J bld g g' w w' := by
  have hU := unrollWid_pos bld
  cases hstep with
  | enter hp =>
      refine ⟨hg, ⟨rfl, ?_, nofun, nofun, ?_, nofun⟩, List.suffix_refl _, fun _ _ _ hx => hx, ?_⟩
      · -- nothing is copied yet
        intro a b hab k hk hdone
        obtain ⟨rfl, rfl⟩ := Phase.presetting.inj hab
        rw [hg.size_eq] at hdone
        exact absurd (List.mem_range.mpr hk) hdone
      · rintro (⟨_, h⟩ | h) <;> cases h
      · intro t _ h
        rcases h with h | h
        · exact Or.inl h
        · obtain ⟨hactive, _⟩ := h.active_shown (by rw [hp]; nofun) (by rw [hp]; nofun)
          rw [hp] at hactive
          cases hactive
  | @preset a k hp hk =>
      refine ⟨hg, ⟨rfl, ?_, nofun, nofun, ?_, nofun⟩, List.suffix_refl _, fun _ _ _ hx => hx, ?_⟩
      · intro a' b' hab j hj hdone
        obtain ⟨rfl, rfl⟩ := Phase.presetting.inj hab
        unfold copySummaryEntry
        dsimp only
        by_cases hjk : j = k
        · subst hjk
          rw [Function.update_self]
          exact hg.reached j hj
        · rw [Function.update_of_ne hjk]
          exact hw.preset a [] hp j hj fun hmem => hdone ((List.mem_erase_of_ne hjk).mpr hmem)
      · rintro (⟨_, h⟩ | h) <;> cases h
      · intro t _ h
        rcases h with h | h
        · exact Or.inl h
        · obtain ⟨hactive, _⟩ := h.active_shown (by rw [hp]; nofun) (by rw [hp]; nofun)
          rw [hp] at hactive
          cases hactive
  | ready hp =>
      have hidle := summaryKeeps_idle (w := w) hg g.completedTiles .checking trivial nofun
        (fun a b h => by rw [hp] at h; cases h) rfl
        (fun k hk => hw.preset [] [] hp k hk List.not_mem_nil) nofun nofun (fun e h => by rw [hp] at h; cases h)
      exact hidle
  | look hp _ =>
      have hidle := summaryKeeps_idle (w := w) hg g.completedTiles .popping trivial nofun
        (fun a b h => by rw [hp] at h; cases h) rfl (hw.active (by rw [hp]; rfl)) nofun nofun
        (fun e h => by rw [hp] at h; cases h)
      exact hidle
  | leave hp hnil =>
      have hactive : w.phase.active = true := by rcases hp with hp | hp <;> (rw [hp]; rfl)
      have hidle := summaryKeeps_idle (w := w) hg g.completedTiles (.mergingA true) rfl nofun
        (fun a b h => by rcases hp with hp | hp <;> (rw [hp] at h; cases h)) rfl (hw.active hactive) nofun
        (fun _ => hnil) (fun e h => by rcases hp with hp | hp <;> (rw [hp] at h; cases h))
      exact hidle
  | @pop t rest hp hcons =>
      have ht := hg.queue t (hcons ▸ List.mem_cons_self)
      refine ⟨⟨hg.type_eq, hg.size_eq, fun t' ht' => hg.queue t' (hcons ▸ List.mem_cons_of_mem _ ht'),
        hg.reached⟩, ⟨⟨rfl, rfl⟩, nofun, fun _ => hw.active (by rw [hp]; rfl), ?_, ?_, nofun⟩, ?_,
        fun _ _ _ hx => hx, ?_⟩
      · intro _ _ _
        exact ⟨ht, prepareTile_prepared (J.operation bld) t w.tile⟩
      · rintro (⟨_, h⟩ | h) <;> cases h
      · rw [hcons]
        exact List.suffix_cons t rest
      · intro t' _ h
        rcases h with h | h
        · rw [hcons] at h
          rcases List.mem_cons.mp h with rfl | h
          · exact Or.inr (Or.inl (Or.inl ⟨[], [], rfl, rfl⟩))
          · exact Or.inl h
        · obtain ⟨_, hshown⟩ := h.active_shown (by rw [hp]; nofun) (by rw [hp]; nofun)
          exact Or.inr (Or.inl (Or.inr (Or.inl ⟨rfl, hshown⟩)))
  | @run tile hp hrun =>
      obtain ⟨ht, hprep⟩ := hw.holds [] [] hp
      obtain ⟨_, hvalues⟩ := summary_execute hJ ht hprep hrun
      have hlocal := hw.active (by rw [hp]; rfl)
      have hcells : ∀ z ∈ tileCells bld.unrollWid J.info w.pos, z ∈ comparedCells bld.unrollWid J.info :=
        fun z hz => (cell_of_tile hU ht hz).1
      have hgrows : ∀ k < summarySize J, ∀ x, ValueAtLeast x (w.tile.profileATileDev k).value →
          ValueAtLeast x (tile.profileATileDev k).value := by
        intro k hk x hx
        rw [hvalues k]
        exact (summaryFold_spec hJ _ hcells (hlocal k hk)).2.1 x hx
      refine ⟨hg, ⟨trivial, nofun, ?_, nofun, ?_, nofun⟩, List.suffix_refl _, fun _ _ _ hx => hx, ?_⟩
      · intro _ k hk
        dsimp only
        rw [hvalues k]
        exact (summaryFold_spec hJ _ hcells (hlocal k hk)).1
      · rintro (⟨_, h⟩ | h) <;> cases h
      · intro t' ht' h
        rcases h with h | ⟨a, b, _, rfl⟩ | ⟨_, h⟩ | ⟨e, h⟩
        · exact Or.inl h
        · -- the tile that was executed
          refine Or.inr (Or.inl (Or.inr (Or.inl ⟨rfl, fun z hz hcounts => ?_⟩)))
          obtain ⟨_, hr, hc⟩ := cell_of_tile hU ht hz
          unfold valuesOf
          dsimp only
          rw [hvalues]
          exact (summaryFold_spec hJ _ hcells (hlocal _ (summaryIndex_lt hJ hr hc))).2.2 z hz rfl hcounts
        · exact Or.inr (Or.inl (Or.inr (Or.inl ⟨rfl, shown_of_grows hJ ht' h hgrows⟩)))
        · rw [hp] at h
          cases h
  | @runFails e hp hrun =>
      obtain ⟨ht, hprep⟩ := hw.holds [] [] hp
      refine ⟨hg, ⟨trivial, nofun, nofun, nofun, ?_, ?_⟩, List.suffix_refl _, fun _ _ _ hx => hx, ?_⟩
      · rintro (⟨_, h⟩ | h) <;> cases h
      · intro _ _ hfp
        obtain ⟨tile', htile'⟩ := execute_succeeds ht (Or.inr hJ.info_type) hprep hfp
        exact absurd (htile'.symm.trans hrun) nofun
      · intro t _ _
        exact Or.inr (Or.inl (Or.inr (Or.inr ⟨_, rfl⟩)))
  | count hp =>
      exact summaryKeeps_idle (w := w) hg (g.completedTiles + 1) .checking trivial nofun
        (fun a b h => by rw [hp] at h; cases h) rfl (hw.active (by rw [hp]; rfl)) nofun nofun
        (fun e h => by rw [hp] at h; cases h)
  | @merge p hp hmerge =>
      obtain ⟨p', hp', htype, hsize, hget⟩ := mergeSummary_ok hJ hg.type_eq w.tile
      obtain rfl : p' = p := Except.ok.inj (hp'.symm.trans hmerge)
      have hlocal := hw.active (by rw [hp]; rfl)
      have hentry : ∀ k < summarySize J, p'.data.get k =
          maxEntry 0 (g.profileA.data.get k) (w.tile.profileATileDev k) := fun k hk => by rw [hget k, if_pos hk]
      have hgrows : ∀ k < summarySize J, ∀ x, ValueAtLeast x (g.profileA.data.get k).value →
          ValueAtLeast x (p'.data.get k).value := by
        intro k hk x hx
        rw [hentry k hk]
        exact (maxEntry_spec (hg.reached k hk) (hlocal k hk)).2.1 x hx
      have hgrows' : ∀ k < summarySize J, ∀ x, ValueAtLeast x (w.tile.profileATileDev k).value →
          ValueAtLeast x (p'.data.get k).value := by
        intro k hk x hx
        rw [hentry k hk]
        exact (maxEntry_spec (hg.reached k hk) (hlocal k hk)).2.2 x hx
      refine ⟨⟨htype, hsize.trans hg.size_eq, hg.queue, ?_⟩, ⟨trivial, nofun, nofun, nofun, ?_, nofun⟩,
        List.suffix_refl _, hgrows, ?_⟩
      · intro k hk
        dsimp only
        rw [hentry k hk]
        exact (maxEntry_spec (hg.reached k hk) (hlocal k hk)).1
      · intro _
        exact hw.drained (Or.inl ⟨true, hp⟩)
      · intro t ht h
        rcases h with h | h
        · exact Or.inl h
        · obtain ⟨_, hshown⟩ := h.active_shown (by rw [hp]; nofun) (by rw [hp]; nofun)
          exact Or.inr (Or.inr (shown_of_grows hJ ht hshown hgrows'))

/-! ## Whole runs -/

theorem summaryInv_init (memory : ℕ → Tile ℝ) : SummaryInv J bld (J.initState memory) := by
  have hA : J.args.initProfileMemory.profileA =
      ⟨.matrixSummary, .replicate (summarySize J) (allocEntry .matrixSummary)⟩ := by
    show J.args.profileA.alloc _ _ _ = _
    unfold Profile.alloc
    rw [J.type_a, hJ.type_eq, ← hJ.height_eq, ← hJ.width_eq, ← Int.natCast_mul, Int.toNat_natCast]
    rfl
  refine ⟨⟨?_, ?_, fun t ht => ht, fun k _ => Or.inl ?_⟩, fun i _ => ?_, fun t ht => Or.inl ht⟩
  · show J.args.initProfileMemory.profileA.type = _
    rw [hA]
  · show J.args.initProfileMemory.profileA.data.size = _
    rw [hA]
    rfl
  · show (J.args.initProfileMemory.profileA.data.get k).value = _
    rw [hA]
    rfl
  · refine ⟨trivial, nofun, nofun, nofun, ?_, nofun⟩
    rintro (⟨_, h⟩ | h) <;> cases h

/-- A step of the operation, by the step of its worker. -/
theorem summary_opStep_cases {s s' : OpState ℝ} (hs : SummaryInv J bld s) {i : ℕ} (hi : i < J.numThreads)
    {act : Action} (h : opStep (J.operation bld) s i act = some s') :
    ∃ g w, s' = ⟨g, Function.update s.workers i w⟩ ∧
      SummaryStep (J.operation bld) s.shared (s.workers i) act g w := by
  unfold opStep at h
  split at h
  · next g w hstep =>
      exact ⟨g, w, (Option.some.inj h).symm,
        summaryStep_cases hJ hs.shared.type_eq (hs.worker i hi).phase hstep⟩
  · cases h

/-- **A step keeps the invariant.** -/
theorem summaryInv_step {s s' : OpState ℝ} (hs : SummaryInv J bld s)
    (h : OpStep (J.operation bld) J.numThreads s s') : SummaryInv J bld s' := by
  obtain ⟨i, hi, act, hact⟩ := h
  obtain ⟨g, w, rfl, hstep⟩ := summary_opStep_cases hJ hs hi hact
  have hkeeps := summaryStep_keeps hJ hs.shared (hs.worker i hi) hstep
  refine ⟨hkeeps.shared, fun j hj => ?_, fun t ht => ?_⟩
  · rw [workers_update]
    split
    · exact hkeeps.worker
    · have hj := hs.worker j hj
      refine ⟨hj.phase, hj.preset, hj.active, hj.holds, fun h => ?_, hj.fails⟩
      have hsuffix := hkeeps.suffix
      rw [hj.drained h] at hsuffix
      exact List.suffix_nil.mp hsuffix
  · have hnew : t ∈ s.shared.workQueue ∨ Accounts J bld (s.workers i) t →
        t ∈ g.workQueue ∨ (∃ j < J.numThreads, Accounts J bld ((OpState.mk g
          (Function.update s.workers i w)).workers j) t) ∨
          Shown J bld.unrollWid t (valuesOf g.profileA.data.get) := by
      intro h
      rcases hkeeps.accounted t ht h with h | h | h
      · exact Or.inl h
      · refine Or.inr (Or.inl ⟨i, hi, ?_⟩)
        rw [workers_update, if_pos rfl]
        exact h
      · exact Or.inr (Or.inr h)
    rcases hs.accounted t ht with h | ⟨j, hj, h⟩ | h
    · exact hnew (Or.inl h)
    · by_cases hji : j = i
      · subst hji
        exact hnew (Or.inr h)
      · refine Or.inr (Or.inl ⟨j, hj, ?_⟩)
        rw [workers_update, if_neg hji]
        exact h
    · exact Or.inr (Or.inr (shown_of_grows hJ ht h hkeeps.grows))

theorem summaryInv_run {memory : ℕ → Tile ℝ} {s : OpState ℝ} (hrun : J.Run bld memory s) :
    SummaryInv J bld s :=
  run_inv (I := SummaryInv J bld) (fun _ _ hs h => summaryInv_step hJ hs h) hrun (summaryInv_init hJ memory)

/-! ## Every run can return -/

omit hJ in
/-- How much a worker has still to do with its tile and to leave the loop. -/
def summaryWeight (size : ℕ) : Phase → ℕ
  | .start => 5 + size
  | .presetting a _ => 4 + a.length
  | .checking => 3
  | .popping => 2
  | .seeding _ _ => 5
  | .counting => 4
  | .mergingA _ => 1
  | .mergingB _ => 0
  | .finished => 0
  | .failed _ => 0

omit hJ in
/-- How much all workers have still to do. -/
noncomputable def summaryRemaining (J : Join ℝ) (s : OpState ℝ) : ℕ :=
  s.shared.workQueue.length * 4 + ∑ i ∈ Finset.range J.numThreads, summaryWeight (summarySize J) (s.workers i).phase

omit hJ in
theorem summaryStep_weight {g g' : Shared ℝ} {w w' : Worker ℝ} {act : Action} (hg : SummaryShared J bld g)
    (hstep : SummaryStep (J.operation bld) g w act g' w') :
    g'.workQueue.length * 4 + summaryWeight (summarySize J) w'.phase < g.workQueue.length * 4 + summaryWeight (summarySize J) w.phase := by
  cases hstep with
  | enter hp => simp [hp, summaryWeight, hg.size_eq]
  | @preset a k hp hk =>
      have := List.length_erase_of_mem hk
      have := List.length_pos_of_mem hk
      simp only [hp, summaryWeight]
      omega
  | ready hp => simp [hp, summaryWeight]
  | look hp _ => simp [hp, summaryWeight]
  | leave hp _ => rcases hp with hp | hp <;> simp [hp, summaryWeight]
  | pop hp hcons =>
      simp only [hp, hcons, summaryWeight, List.length_cons]
      omega
  | run hp _ => simp [hp, summaryWeight]
  | runFails hp _ => simp [hp, summaryWeight]
  | count hp => simp [hp, summaryWeight]
  | merge hp _ => simp [hp, summaryWeight]

theorem summaryRemaining_lt {s s' : OpState ℝ} (hs : SummaryInv J bld s)
    (h : OpStep (J.operation bld) J.numThreads s s') : summaryRemaining J s' < summaryRemaining J s := by
  obtain ⟨i, hi, act, hact⟩ := h
  obtain ⟨g, w, rfl, hstep⟩ := summary_opStep_cases hJ hs hi hact
  have hlt := summaryStep_weight hs.shared hstep
  have hsum := sum_update hi (fun w : Worker ℝ => summaryWeight (summarySize J) w.phase) s.workers w
  unfold summaryRemaining
  dsimp only at hsum ⊢
  omega

/-- Every run can be completed. -/
theorem summary_runs_return (hfp : cpuPrecision J.info.fpType) {s : OpState ℝ} (hs : SummaryInv J bld s) :
    ∃ s', Relation.ReflTransGen (OpStep (J.operation bld) J.numThreads) s s' ∧ J.Returned s' := by
  refine reaches_final (I := SummaryInv J bld) (summaryRemaining J) (fun _ _ hs h => summaryInv_step hJ hs h)
    (fun _ _ hs h => summaryRemaining_lt hJ hs h) ?_ hs
  intro s hs hnot
  simp only [Join.Returned, not_forall] at hnot
  obtain ⟨i, hi, hfinished⟩ := hnot
  obtain ⟨act, g, w, hstep⟩ := workStep_enabled (J.operation bld) s.shared hfinished
    fun e hfailed => absurd hfp ((hs.worker i hi).fails e hfailed)
  refine ⟨⟨g, Function.update s.workers i w⟩, i, hi, act, ?_⟩
  unfold opStep
  rw [hstep]

omit hJ in
/-- When the workers have returned, the common summary was shown every tile. -/
theorem shown_of_returned {s : OpState ℝ} (hs : SummaryInv J bld s) (hreturned : J.Returned s) {t : TilePos}
    (ht : t ∈ getTiles J.info) : Shown J bld.unrollWid t (valuesOf s.shared.profileA.data.get) := by
  have hqueue : s.shared.workQueue = [] :=
    (hs.worker 0 J.threads_pos).drained (Or.inr (hreturned 0 J.threads_pos))
  rcases hs.accounted t ht with h | ⟨i, hi, h⟩ | h
  · rw [hqueue] at h
    exact absurd h List.not_mem_nil
  · unfold Accounts at h
    rw [hreturned i hi] at h
    rcases h with ⟨a, b, h, _⟩ | ⟨h, _⟩ | ⟨e, h⟩ <;> cases h
  · exact h

end

/-! ## The returned summary -/

/-- The entry of summary cell `(i, j)`: the largest correlation of the compared cells in it that reach the
    threshold, or the initial value if there is none. -/
structure SummaryEntry (J : Join ℝ) (U : ℕ) (i j : ℕ) (v : Dbl ℝ) : Prop where
  best : (∃ z ∈ comparedCells U J.info, summaryCell J z = (i, j) ∧ Counts J z) →
    ∃ z ∈ comparedCells U J.info, summaryCell J z = (i, j) ∧ Counts J z ∧ v = .num (J.pearson z.1 z.2) ∧
      ∀ z' ∈ comparedCells U J.info, summaryCell J z' = (i, j) → Counts J z' →
        J.pearson z'.1 z'.2 ≤ J.pearson z.1 z.2
  none : (¬∃ z ∈ comparedCells U J.info, summaryCell J z = (i, j) ∧ Counts J z) → v = .num (-2)

section
variable {J : Join ℝ} {bld : Build ℝ} (hJ : SummaryJoin J)
include hJ

/-- The place in the profile tells the summary cell. -/
theorem summaryIndex_eq_iff {z : ℕ × ℕ} (hz : z.2 < J.info.numCols) {i j : ℕ} (hj : j < J.summaryWidth) :
    summaryIndex J z = i * J.summaryWidth + j ↔ summaryCell J z = (i, j) := by
  have hw := hJ.width_eq
  have hw1 := hJ.width_pos
  obtain ⟨_, hcol⟩ := floor_div_parts (k := J.summaryWidth) (by omega) hz
  constructor
  · intro h
    unfold summaryIndex summaryCell at h
    dsimp only at h
    have hrow := congrArg (· / J.summaryWidth) h
    have hcol' := congrArg (· % J.summaryWidth) h
    simp only [Nat.mul_comm _ J.summaryWidth, Nat.mul_add_div (by omega : 0 < J.summaryWidth),
      Nat.mul_add_mod] at hrow hcol'
    rw [Nat.mul_comm] at hcol
    rw [Nat.div_eq_of_lt hcol, Nat.div_eq_of_lt hj, Nat.add_zero, Nat.add_zero, Nat.mul_comm z.1] at hrow
    rw [Nat.mod_eq_of_lt hcol, Nat.mod_eq_of_lt hj] at hcol'
    unfold summaryCell
    rw [Nat.mul_comm z.1, Nat.mul_comm z.2]
    exact Prod.ext hrow hcol'
  · intro h
    unfold summaryIndex
    rw [h]

theorem summaryEntry_of_returned {s : OpState ℝ} (hs : SummaryInv J bld s) (hreturned : J.Returned s) {i j : ℕ}
    (hi : i < J.summaryHeight) (hj : j < J.summaryWidth) :
    SummaryEntry J bld.unrollWid i j (s.shared.profileA.data.get (i * J.summaryWidth + j)).value := by
  have hk : i * J.summaryWidth + j < summarySize J := by
    calc i * J.summaryWidth + j < i * J.summaryWidth + J.summaryWidth := Nat.add_lt_add_left hj _
      _ = (i + 1) * J.summaryWidth := by ring
      _ ≤ summarySize J := Nat.mul_le_mul_right _ hi
  have hcols : ∀ z ∈ comparedCells bld.unrollWid J.info, z.2 < J.info.numCols := by
    intro z hz
    obtain ⟨t, ht, hz⟩ := List.mem_flatMap.mp hz
    exact (cell_of_tile (unrollWid_pos bld) ht hz).2.2
  have hshown : ∀ z ∈ comparedCells bld.unrollWid J.info, summaryCell J z = (i, j) → Counts J z →
      ValueAtLeast (J.pearson z.1 z.2) (s.shared.profileA.data.get (i * J.summaryWidth + j)).value := by
    intro z hz hcell hcounts
    obtain ⟨t, ht, hmem⟩ := List.mem_flatMap.mp hz
    have := shown_of_returned hs hreturned ht z hmem hcounts
    rwa [(summaryIndex_eq_iff hJ (hcols z hz) hj).mpr hcell] at this
  have hreached := hs.shared.reached _ hk
  constructor
  · rintro ⟨z, hz, hcell, hcounts⟩
    rcases hreached with hinit | ⟨z', hz', hk', hcounts', hvalue⟩
    · -- a correlation is above the initial value
      obtain ⟨y, hy, hle⟩ := hshown z hz hcell hcounts
      have := neg_one_le_pearson J z.1 z.2
      rw [hinit] at hy
      have := Dbl.num.inj hy
      linarith
    · refine ⟨z', hz', (summaryIndex_eq_iff hJ (hcols z' hz') hj).mp hk', hcounts', hvalue, ?_⟩
      intro z'' hz'' hcell'' hcounts''
      obtain ⟨y, hy, hle⟩ := hshown z'' hz'' hcell'' hcounts''
      rw [hvalue] at hy
      obtain rfl := Dbl.num.inj hy
      exact hle
  · intro hnone
    rcases hreached with hinit | ⟨z, hz, hk', hcounts, _⟩
    · exact hinit
    · exact absurd ⟨z, hz, (summaryIndex_eq_iff hJ (hcols z hz) hj).mp hk', hcounts⟩ hnone

end

/-! ## The numbers it is addressed with -/

/-- The array of the summary is allocated, every `update_mp` of every pass writes inside it, and the counter
    of `matrix_merge` gets through it. -/
structure SummaryAddressed (unrollWid : ℕ) (info : OpInfo ℝ) : Prop where
  allocated : ¬SummaryThrows info
  updates : ∀ t ∈ getTiles info, ∀ transpose ∈ tilePasses info t,
    ∀ z ∈ launchCells unrollWid (kernelDims info (tileDims info t) transpose (!info.selfJoin)),
      UpdateInBounds info t transpose z
  merged : info.matrixMergeCounter.isSome

section
variable {J : Join ℝ} (hJ : SummaryJoin J)
include hJ

/-- An entry of a summary of fewer than `2 ^ 31` cells fits an `int`. -/
theorem entryInBounds_of_lt (hlt : J.args.matrixHeight * J.args.matrixWidth < 2 ^ 31) {z : ℕ × ℕ}
    (hr : z.1 < J.info.numRows) (hc : z.2 < J.info.numCols) : EntryInBounds J.info z := by
  have hh := hJ.height_pos
  have hw := hJ.width_pos
  have hwidth : J.args.matrixWidth ≤ J.args.matrixHeight * J.args.matrixWidth :=
    le_mul_of_one_le_left (by omega) hh
  obtain ⟨_, hq⟩ := part_lt hh hr
  obtain ⟨_, hp⟩ := part_lt hw hc
  have hlast : z.1 * J.args.matrixHeight / J.info.numRows * J.args.matrixWidth ≤
      (J.args.matrixHeight - 1) * J.args.matrixWidth := mul_le_mul_of_nonneg_right (by omega) (by omega)
  have hsub : (J.args.matrixHeight - 1) * J.args.matrixWidth =
      J.args.matrixHeight * J.args.matrixWidth - J.args.matrixWidth := by ring
  have hfits : PositiveFits J.args.matrixHeight J.args.matrixWidth J.info.numCols J.info.numRows z := by
    unfold PositiveFits summaryEntry
    omega
  have hint : J.args.matrixWidth < 2 ^ 31 := by omega
  have hint64 : J.args.matrixHeight * J.args.matrixWidth < 2 ^ 63 := by omega
  exact (entry_inside_iff hr hc).mpr ⟨hint64, Or.inl ⟨hh, hw, hint, hfits⟩⟩

/-- The counter of `matrix_merge` is the narrowest of the numbers. -/
theorem summaryAddressed_iff {U : ℕ} (hU : 0 < U) :
    SummaryAddressed U J.info ↔ J.args.matrixHeight * J.args.matrixWidth < 2 ^ 31 := by
  have hpos := mul_pos (by have := hJ.height_pos; omega : 0 < J.args.matrixHeight)
    (by have := hJ.width_pos; omega : 0 < J.args.matrixWidth)
  constructor
  · intro h
    obtain ⟨counter, hcounter⟩ := Option.isSome_iff_exists.mp h.merged
    obtain ⟨length, hlength, hfits⟩ := Option.bind_eq_some_iff.mp hcounter
    obtain ⟨_, rfl⟩ := toInt64_eq_some.mp hlength
    exact (toInt32_eq_some.mp hfits).1.2
  · intro hlt
    have hint64 : -2 ^ 63 ≤ J.args.matrixHeight * J.args.matrixWidth ∧
        J.args.matrixHeight * J.args.matrixWidth < 2 ^ 63 := by omega
    have hentries : J.info.summaryEntries = some (J.args.matrixHeight * J.args.matrixWidth) :=
      toInt64_eq_some.mpr ⟨hint64, rfl⟩
    refine ⟨?_, ?_, ?_⟩
    · rintro ⟨length, hlength, hthrows⟩
      obtain rfl := Option.some.inj (hentries.symm.trans hlength)
      unfold resizeThrows maxFloats at hthrows
      omega
    · have hcells := (forall_comparedCells U J.info (EntryInBounds J.info)).mpr fun z hz =>
        have hz' := lt_of_compared J.threads_pos J.valid hU hz
        entryInBounds_of_lt hJ hlt hz'.1 hz'.2
      intro t ht transpose hpass z hz
      exact (updateInBounds_iff hJ.type_eq).mpr (hcells t ht transpose hpass z hz)
    · exact Option.isSome_iff_exists.mpr
        ⟨_, bind_some hentries (toInt32_eq_some.mpr ⟨by omega, rfl⟩)⟩

end

/-! ## Matrix summaries -/

/-- What a join of this type does: the summary is addressed in bounds, every run can return, and when it has,
    each cell of the summary holds the largest correlation of the compared cells in it that reach the
    threshold, and `-2` if there are none. A self-join compares the cells on and above the first diagonal
    that is no trivial match, an AB-join whose inputs are not aligned all cells. -/
structure SummaryReturned (J : Join ℝ) (bld : Build ℝ) (memory : ℕ → Tile ℝ) : Prop where
  addressed : SummaryAddressed bld.unrollWid J.info
  returns : ∀ s, J.Run bld memory s →
    ∃ s', Relation.ReflTransGen (OpStep (J.operation bld) J.numThreads) s s' ∧ J.Returned s'
  entries : ∀ s, J.Run bld memory s → J.Returned s → ∀ i < J.summaryHeight, ∀ j < J.summaryWidth,
    SummaryEntry J bld.unrollWid i j (s.shared.profileA.data.get (i * J.summaryWidth + j)).value
  selfJoin : J.args.hasB = false → ∀ r c, (r, c) ∈ comparedCells bld.unrollWid J.info ↔
    c < J.info.numCols ∧ r + exclusionZone J.info.mpWindow ≤ c
  abJoin : J.args.hasB = true → J.args.isAligned = false → ∀ r c,
    (r, c) ∈ comparedCells bld.unrollWid J.info ↔ r < J.info.numRows ∧ c < J.info.numCols

/-- **Matrix summaries.** Whatever the threshold, the tiles, the number of workers and the schedule, a join
    does what it should exactly when its summary has fewer than `2 ^ 31` cells. -/
theorem summary_returned (J : Join ℝ) (bld : Build ℝ) (hJ : SummaryJoin J)
    (hfp : cpuPrecision J.args.precisionType) (memory : ℕ → Tile ℝ) :
    SummaryReturned J bld memory ↔ J.args.matrixHeight * J.args.matrixWidth < 2 ^ 31 := by
  have hU := unrollWid_pos bld
  constructor
  · exact fun h => (summaryAddressed_iff hJ hU).mp h.addressed
  · intro hlt
    refine ⟨(summaryAddressed_iff hJ hU).mpr hlt, ?_, ?_, ?_, ?_⟩
    · exact fun s hrun => summary_runs_return hJ hfp (summaryInv_run hJ hrun)
    · intro s hrun hreturned i hi j hj
      exact summaryEntry_of_returned hJ (summaryInv_run hJ hrun) hreturned hi hj
    · exact fun hself r c => mem_comparedCells_selfJoin hU hself
    · exact fun hab haligned r c => mem_comparedCells_abJoin hU hab haligned

/-- A self-join of twelve samples with window `3`, summarised in two rows and three columns: ten rows and
    columns of cells, in six tiles. -/
noncomputable def sixTileSummaryJoin : Join ℝ where
  args := { selfJoinArgs .matrixSummary ⟨12, fun i => .finite (if i = 3 ∨ i = 8 then 1 else 0)⟩ 3 with
    matrixHeight := 2, matrixWidth := 3 }
  numThreads := 2
  threads_pos := Nat.two_pos
  valid := rfl
  columns := rfl
  rows_self := fun _ => rfl
  rows_ab := fun h => absurd h (by simp [selfJoinArgs])
  type_a := rfl
  type_b := fun _ => rfl

theorem summary_returned_sixTiles :
    (getTiles sixTileSummaryJoin.info).length = 6 ∧ SummaryJoin sixTileSummaryJoin ∧
      SummaryReturned sixTileSummaryJoin scanBuild fun _ => zeroTile :=
  ⟨by decide, ⟨rfl, by decide, by decide⟩,
    (summary_returned sixTileSummaryJoin scanBuild ⟨rfl, by decide, by decide⟩ (Or.inl rfl) _).mpr
      (show (2 : ℤ) * 3 < 2 ^ 31 by decide)⟩

/-- An AB-join of two series of 50002 samples with window `3`, with a summary cell for each of the
    `50000 * 50000` cells. -/
noncomputable def largeSummaryJoin : Join ℝ where
  args := { abJoinArgs .matrixSummary ⟨50002, fun _ => .finite 0⟩ ⟨50002, fun _ => .finite 0⟩ 3 with
    matrixHeight := 50000, matrixWidth := 50000 }
  numThreads := 1
  threads_pos := Nat.one_pos
  valid := rfl
  columns := rfl
  rows_self := fun h => absurd h (by simp [abJoinArgs])
  rows_ab := fun _ => rfl
  type_a := rfl
  type_b := fun h => absurd h (by simp [abJoinArgs, getDefaultSCAMPArgs])

/-- The last cell of that summary has number `2499999999`. -/
theorem largeSummary_unaddressed :
    ¬∀ (J : Join ℝ) (bld : Build ℝ), SummaryJoin J → cpuPrecision J.args.precisionType →
      ∀ memory, SummaryReturned J bld memory := by
  intro h
  have hall := (h largeSummaryJoin scanBuild ⟨rfl, by decide, by decide⟩ (Or.inl rfl)
    fun _ => zeroTile).addressed.updates
  have hmem : (49999, 49999) ∈ comparedCells 256 largeSummaryJoin.info :=
    (mem_comparedCells_abJoin (J := largeSummaryJoin) (by decide) rfl rfl).mpr
      ⟨show 49999 < 50002 - 3 + 1 by decide, show 49999 < 50002 - 3 + 1 by decide⟩
  have htype : largeSummaryJoin.args.profileType = .matrixSummary := rfl
  have hentries := (forall_comparedCells 256 largeSummaryJoin.info (EntryInBounds _)).mp
    fun t ht transpose hpass z hz => (updateInBounds_iff htype).mp (hall t ht transpose hpass z hz)
  obtain ⟨_, _, i, hi, _⟩ := hentries _ hmem
  obtain ⟨_, _, _, _, hfits, _⟩ := summaryEntryInt_eq_some.mp hi
  exact absurd hfits.2 (by decide)

end

end Scamp
