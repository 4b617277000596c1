import Scamp.Core.Correctness.TileRun
import Scamp.Lib.Run

/-!
# `Core.Correctness.Workers` — runs of the worker threads

What every interleaving of the workers keeps, whatever they compute: `workStep_cases` says what a step of
one worker can be, `stateOK_run` that in every run the profiles have their type, a worker that holds a tile
has prepared it, and no worker gives up while tiles are queued. From these and a measure on the work that
is left, `runs_return`: every run can be completed. What the profiles take in during a run is in
`Core.Correctness.Merging`.
-/

namespace Scamp

open Lib

section
variable {K : Type} [Field K] [LinearOrder K]

/-! ## What a merge does -/

/-- **A merge of two profiles of one type** merges the entries under the tile and leaves the others. -/
theorem mergeTileToProfile_ok (p tp : Profile K) (htype : entryType p.type = true)
    (hsame : p.type = tp.type) (position length indexStart : ℕ) :
    ∃ p', mergeTileToProfile p tp position length indexStart = .ok p' ∧ p'.type = p.type ∧
      ∀ k, p'.data.get k = if position ≤ k ∧ k < position + length then
        mergeEntry p.type indexStart (p.data.get k) (tp.data.get (k - position)) else p.data.get k := by
  unfold mergeTileToProfile
  rw [if_neg (not_not.mpr hsame)]
  cases htp : p.type with
  | oneNNIndex => exact ⟨_, rfl, rfl, fun k => get_elementwise _ _ _ _ k⟩
  | oneNN => exact ⟨_, rfl, rfl, fun k => get_elementwise _ _ _ _ k⟩
  | sumThresh => exact ⟨_, rfl, rfl, fun k => get_elementwise _ _ _ _ k⟩
  | _ => exact absurd (htp ▸ htype) (by decide)

/-- The profiles that tiles are merged into have the type of the operation. -/
def TypesOK (op : Operation K) (g : Shared K) : Prop :=
  ∀ side, side = .a ∨ Tile.mergeTargetB op.info = some side → (g.profile side).type = op.info.profileType

/-- The merge of a tile's column profile. -/
theorem mergeProfileA_ok {op : Operation K} (htype : entryType op.info.profileType = true) {g : Shared K}
    (hg : TypesOK op g) (t : Tile K) :
    ∃ p, t.mergeProfileA op.info g.profileA = .ok p ∧ p.type = op.info.profileType ∧
      ∀ k, p.data.get k =
        if t.dims.col ≤ k ∧ k < t.dims.col + (t.dims.width - op.info.mpWindow + 1) then
          mergeEntry op.info.profileType t.dims.row (g.profileA.data.get k)
            (t.profileATileDev (k - t.dims.col))
        else g.profileA.data.get k := by
  have hA : g.profileA.type = op.info.profileType := hg .a (Or.inl rfl)
  obtain ⟨p, hp, hty, hget⟩ := mergeTileToProfile_ok g.profileA
    ⟨op.info.profileType, copyFromDevice t.profileATileDev (t.dims.width - op.info.mpWindow + 1)⟩
    (hA ▸ htype) hA t.dims.col (t.dims.width - op.info.mpWindow + 1) t.dims.row
  refine ⟨p, ?_, hty.trans hA, ?_⟩
  · unfold Tile.mergeProfileA Tile.mergeWidth
    cases ht : op.info.profileType <;>
      first | exact absurd (ht ▸ htype) (by decide) | (rw [ht] at hp; exact hp)
  · rw [← hA]
    exact hget

/-- The merge of a tile's row profile. -/
theorem mergeProfileB_ok {op : Operation K} (htype : entryType op.info.profileType = true) {g : Shared K}
    (hg : TypesOK op g) (t : Tile K) {side : Side} (hside : Tile.mergeTargetB op.info = some side) :
    ∃ p, t.mergeProfileB op.info (g.profile side) = .ok p ∧ p.type = op.info.profileType ∧
      ∀ k, p.data.get k =
        if t.dims.row ≤ k ∧ k < t.dims.row + (t.dims.height - op.info.mpWindow + 1) then
          mergeEntry op.info.profileType t.dims.col ((g.profile side).data.get k)
            (t.profileBTileDev (k - t.dims.row))
        else (g.profile side).data.get k := by
  have htypes := hg side (Or.inr hside)
  have hheight : t.mergeHeight op.info = t.dims.height - op.info.mpWindow + 1 := by
    unfold Tile.mergeHeight
    cases ht : op.info.profileType <;> first | rfl | exact absurd (ht ▸ htype) (by decide)
  obtain ⟨p, hp, hty, hget⟩ := mergeTileToProfile_ok (g.profile side)
    ⟨op.info.profileType, copyFromDevice t.profileBTileDev (t.dims.height - op.info.mpWindow + 1)⟩
    (htypes ▸ htype) htypes t.dims.row (t.dims.height - op.info.mpWindow + 1) t.dims.col
  refine ⟨p, ?_, hty.trans htypes, ?_⟩
  · unfold Tile.mergeProfileB
    rw [hheight]
    exact hp
  · rw [← htypes]
    exact hget

/-! ## What a step of any worker can be -/

/-- A worker takes steps until it has finished or failed. -/
theorem workStep_enabled (op : Operation K) (g : Shared K) {w : Worker K} (hfinished : w.phase ≠ .finished)
    (hfailed : ∀ e, w.phase ≠ .failed e) : ∃ act g' w', workStep op act g w = some (g', w') := by
  unfold workStep
  cases hp : w.phase with
  | start =>
      refine ⟨.advance, ?_⟩
      dsimp only
      split <;> exact ⟨_, _, rfl⟩
  | presetting a b =>
      cases a with
      | cons k a => exact ⟨.copyA k, _, _, if_pos List.mem_cons_self⟩
      | nil =>
          cases b with
          | cons k b => exact ⟨.copyB k, _, _, if_pos List.mem_cons_self⟩
          | nil => exact ⟨.advance, _, _, rfl⟩
  | checking =>
      refine ⟨.advance, ?_⟩
      dsimp only
      split <;> exact ⟨_, _, rfl⟩
  | popping =>
      refine ⟨.advance, ?_⟩
      cases hq : g.workQueue with
      | nil => exact ⟨_, _, rfl⟩
      | cons t rest => exact ⟨_, _, rfl⟩
  | seeding a b =>
      cases a with
      | cons k a => exact ⟨.copyA k, _, _, if_pos List.mem_cons_self⟩
      | nil =>
          cases b with
          | cons k b => exact ⟨.copyB k, _, _, if_pos List.mem_cons_self⟩
          | nil =>
              -- an error of the tile is a step too
              refine ⟨.advance, ?_⟩
              dsimp only
              split <;> exact ⟨_, _, rfl⟩
  | mergingA last =>
      refine ⟨.advance, ?_⟩
      dsimp only
      split <;> exact ⟨_, _, rfl⟩
  | mergingB last =>
      refine ⟨.advance, ?_⟩
      dsimp only
      split
      · exact ⟨_, _, rfl⟩
      · split <;> exact ⟨_, _, rfl⟩
  | counting => exact ⟨.advance, _, _, rfl⟩
  | finished => exact absurd hp hfinished
  | failed e => exact absurd hp (hfailed e)

/-- Executing a tile, once its entries have been copied. -/
theorem workStep_execute {op : Operation K} {g g' : Shared K} {w w' : Worker K}
    (h : workStep op .advance g w = some (g', w')) {todoA todoB : List ℕ} (hw : w.phase = .seeding todoA todoB) :
    todoA = [] ∧ todoB = [] ∧ g' = g ∧
      ((∃ e, w.tile.execute op.build op.info (tileType op.info w.pos) = .error e ∧
          w' = { w with phase := .failed ("ERROR " ++ getSCAMPErrorString e ++ " executing tile") }) ∨
        ∃ tile, w.tile.execute op.build op.info (tileType op.info w.pos) = .ok tile ∧
          w' = { w with
            phase := if needsIntermittentMerge op.info.profileType then .mergingA false else .counting
            tile := tile }) := by
  unfold workStep at h
  rw [hw] at h
  cases todoA with
  | cons k todoA => simp at h
  | nil =>
      cases todoB with
      | cons k todoB => simp at h
      | nil =>
          dsimp only at h
          cases hrun : w.tile.execute op.build op.info (tileType op.info w.pos) with
          | error e =>
              rw [hrun] at h
              obtain ⟨rfl, rfl⟩ := Prod.mk.injEq .. ▸ Option.some.inj h
              exact ⟨rfl, rfl, rfl, Or.inl ⟨e, rfl, rfl⟩⟩
          | ok tile =>
              rw [hrun] at h
              obtain ⟨rfl, rfl⟩ := Prod.mk.injEq .. ▸ Option.some.inj h
              exact ⟨rfl, rfl, rfl, Or.inr ⟨tile, rfl, rfl⟩⟩

section
variable {op : Operation K} {act : Action} {g g' : Shared K} {w w' : Worker K}
  (h : workStep op act g w = some (g', w'))
include h

/-- The test of the loop over the tiles. -/
theorem workStep_checking (hw : w.phase = .checking) : act = .advance ∧ g' = g ∧
    (g.workQueue = [] ∧ w' = { w with phase := leaveLoop op.info } ∨
      g.workQueue ≠ [] ∧ w' = { w with phase := .popping }) := by
  unfold workStep at h
  rw [hw] at h
  cases act with
  | advance =>
      dsimp only at h
      split at h
      · next hq =>
          obtain ⟨rfl, rfl⟩ := Prod.mk.injEq .. ▸ Option.some.inj h
          exact ⟨rfl, rfl, Or.inl ⟨List.isEmpty_iff.mp hq, rfl⟩⟩
      · next hq =>
          obtain ⟨rfl, rfl⟩ := Prod.mk.injEq .. ▸ Option.some.inj h
          exact ⟨rfl, rfl, Or.inr ⟨fun hnil => hq (List.isEmpty_iff.mpr hnil), rfl⟩⟩
  | _ => simp at h

/-- Taking a tile from the queue, unless it has become empty. -/
theorem workStep_popping (hw : w.phase = .popping) : act = .advance ∧
    (g.workQueue = [] ∧ g' = g ∧ w' = { w with phase := leaveLoop op.info } ∨
      ∃ t rest, g.workQueue = t :: rest ∧ g' = { g with workQueue := rest } ∧
        ∃ init, init = (if needsIntermittentReset op.info.profileType then
            beginInitProfile op.info g.profileA.data.size (prepareTile op t w.tile)
          else (prepareTile op t w.tile, [], [])) ∧
          w' = { phase := .seeding init.2.1 init.2.2, pos := t, tile := init.1 }) := by
  unfold workStep at h
  rw [hw] at h
  cases act with
  | advance =>
      dsimp only at h
      cases hq : g.workQueue with
      | nil =>
          rw [hq] at h
          obtain ⟨rfl, rfl⟩ := Prod.mk.injEq .. ▸ Option.some.inj h
          exact ⟨rfl, Or.inl ⟨rfl, rfl, rfl⟩⟩
      | cons t rest =>
          rw [hq] at h
          obtain ⟨rfl, rfl⟩ := Prod.mk.injEq .. ▸ Option.some.inj h
          exact ⟨rfl, Or.inr ⟨t, rest, rfl, rfl, _, rfl, rfl⟩⟩
  | _ => simp at h

/-- Counting a tile. -/
theorem workStep_counting (hw : w.phase = .counting) : act = .advance ∧
    g' = { g with completedTiles := g.completedTiles + 1 } ∧ w' = { w with phase := .checking } := by
  unfold workStep at h
  rw [hw] at h
  cases act with
  | advance =>
      obtain ⟨rfl, rfl⟩ := Prod.mk.injEq .. ▸ Option.some.inj h
      exact ⟨rfl, rfl, rfl⟩
  | _ => simp at h

end

/-! ## What a worker's step can be -/

/-- A step of a worker, for the types with an entry for each subsequence. -/
inductive WorkerStep (op : Operation K) (g : Shared K) (w : Worker K) :
    Action → Shared K → Worker K → Prop
  | enter : w.phase = .start → WorkerStep op g w .advance g { w with phase := .checking }
  | look : w.phase = .checking → g.workQueue ≠ [] →
      WorkerStep op g w .advance g { w with phase := .popping }
  | leave : w.phase = .checking ∨ w.phase = .popping → g.workQueue = [] →
      WorkerStep op g w .advance g { w with phase := .finished }
  | pop {t rest} : w.phase = .popping → g.workQueue = t :: rest →
      WorkerStep op g w .advance { g with workQueue := rest }
        { phase := .seeding
            (beginInitProfile op.info g.profileA.data.size (prepareTile op t w.tile)).2.1
            (beginInitProfile op.info g.profileA.data.size (prepareTile op t w.tile)).2.2
          pos := t
          tile := (beginInitProfile op.info g.profileA.data.size (prepareTile op t w.tile)).1 }
  | copyA {a b k} : w.phase = .seeding a b → k ∈ a →
      WorkerStep op g w (.copyA k) g
        { w with phase := .seeding (a.erase k) b, tile := copyEntryA op.info g w.tile k }
  | copyB {a b k} : w.phase = .seeding a b → k ∈ b →
      WorkerStep op g w (.copyB k) g
        { w with phase := .seeding a (b.erase k), tile := copyEntryB op.info g w.tile k }
  | run {tile} : w.phase = .seeding [] [] →
      w.tile.execute op.build op.info (tileType op.info w.pos) = .ok tile →
      WorkerStep op g w .advance g { w with phase := .mergingA false, tile := tile }
  | runFails {e} : w.phase = .seeding [] [] →
      w.tile.execute op.build op.info (tileType op.info w.pos) = .error e →
      WorkerStep op g w .advance g
        { w with phase := .failed ("ERROR " ++ getSCAMPErrorString e ++ " executing tile") }
  | mergeA {last p} : w.phase = .mergingA last → w.tile.mergeProfileA op.info g.profileA = .ok p →
      WorkerStep op g w .advance { g with profileA := p }
        { w with
          phase := if (Tile.mergeTargetB op.info).isSome then .mergingB last else afterMerge last }
  | mergeB {last side p} : w.phase = .mergingB last → Tile.mergeTargetB op.info = some side →
      w.tile.mergeProfileB op.info (g.profile side) = .ok p →
      WorkerStep op g w .advance (g.setProfile side p) { w with phase := afterMerge last }
  | count : w.phase = .counting →
      WorkerStep op g w .advance { g with completedTiles := g.completedTiles + 1 }
        { w with phase := .checking }

/-- The phases a worker never enters, for the types with an entry for each subsequence. -/
def PhaseOK (op : Operation K) : Phase → Prop
  | .presetting _ _ => False
  | .mergingA last => last = false
  | .mergingB last => last = false ∧ (Tile.mergeTargetB op.info).isSome
  | _ => True

theorem workStep_cases {op : Operation K} (htype : entryType op.info.profileType = true) {g g' : Shared K}
    (hg : TypesOK op g) {w w' : Worker K} (hphase : PhaseOK op w.phase) {act : Action}
    (h : workStep op act g w = some (g', w')) : WorkerStep op g w act g' w' := by
  have hreset : needsIntermittentReset op.info.profileType = true := by
    cases ht : op.info.profileType <;> first | rfl | exact absurd (ht ▸ htype) (by decide)
  have hmerge : needsIntermittentMerge op.info.profileType = true := hreset
  have hleave : leaveLoop op.info = .finished := if_pos hmerge
  cases hw : w.phase with
  | start =>
      cases act with
      | advance =>
          unfold workStep at h
          rw [hw] at h
          dsimp only at h
          rw [if_pos hreset] at h
          obtain ⟨rfl, rfl⟩ := Prod.mk.injEq .. ▸ Option.some.inj h
          exact .enter hw
      | _ => simp [workStep, hw] at h
  | presetting a b =>
      rw [hw] at hphase
      exact hphase.elim
  | checking =>
      obtain ⟨rfl, rfl, ⟨hq, rfl⟩ | ⟨hq, rfl⟩⟩ := workStep_checking h hw
      · rw [hleave]
        exact .leave (Or.inl hw) hq
      · exact .look hw hq
  | popping =>
      obtain ⟨rfl, ⟨hq, rfl, rfl⟩ | ⟨t, rest, hq, rfl, init, hinit, rfl⟩⟩ := workStep_popping h hw
      · rw [hleave]
        exact .leave (Or.inr hw) hq
      · rw [hinit, if_pos hreset]
        exact .pop hw hq
  | seeding a b =>
      cases act with
      | advance =>
          obtain ⟨rfl, rfl, rfl, ⟨e, hrun, rfl⟩ | ⟨tile, hrun, rfl⟩⟩ := workStep_execute h hw
          · exact .runFails hw hrun
          · rw [if_pos hmerge]
            exact .run hw hrun
      | copyA k =>
          unfold workStep at h
          rw [hw] at h
          dsimp only at h
          split at h
          · next hk =>
              obtain ⟨rfl, rfl⟩ := Prod.mk.injEq .. ▸ Option.some.inj h
              exact .copyA hw hk
          · cases h
      | copyB k =>
          unfold workStep at h
          rw [hw] at h
          dsimp only at h
          split at h
          · next hk =>
              obtain ⟨rfl, rfl⟩ := Prod.mk.injEq .. ▸ Option.some.inj h
              exact .copyB hw hk
          · cases h
  | mergingA last =>
      cases act with
      | advance =>
          -- the profiles have the type of the join, so that no merge fails
          obtain ⟨p, hp, _⟩ := mergeProfileA_ok htype hg w.tile
          unfold workStep at h
          rw [hw] at h
          dsimp only at h
          rw [hp] at h
          obtain ⟨rfl, rfl⟩ := Prod.mk.injEq .. ▸ Option.some.inj h
          exact .mergeA hw hp
      | _ => simp [workStep, hw] at h
  | mergingB last =>
      cases act with
      | advance =>
          rw [hw] at hphase
          obtain ⟨side, hside⟩ := Option.isSome_iff_exists.mp hphase.2
          obtain ⟨p, hp, _⟩ := mergeProfileB_ok htype hg w.tile hside
          unfold workStep at h
          rw [hw] at h
          dsimp only at h
          rw [hside] at h
          dsimp only at h
          rw [hp] at h
          obtain ⟨rfl, rfl⟩ := Prod.mk.injEq .. ▸ Option.some.inj h
          exact .mergeB hw hside hp
      | _ => simp [workStep, hw] at h
  | counting =>
      obtain ⟨rfl, rfl, rfl⟩ := workStep_counting h hw
      exact .count hw
  | finished => simp [workStep, hw] at h
  | failed e => simp [workStep, hw] at h

end

/-! ## What holds in every run -/

section
variable {K : Type} [Field K] [LinearOrder K] [HasSqrt K] (J : Join K) (bld : Build K)

/-- The worker has popped a tile and not merged all of it. -/
def Phase.holding : Phase → Bool
  | .seeding _ _ | .mergingA _ | .mergingB _ => true
  | _ => false

/-- The precisions CPU workers compute in. -/
def cpuPrecision (type : SCAMPPrecisionType) : Prop := type = .double ∨ type = .ultra

/-- What holds of a worker in every run. -/
structure WorkerOK (w : Worker K) : Prop where
  phase : PhaseOK (J.operation bld) w.phase
  holds : w.phase.holding = true → w.pos ∈ getTiles J.info ∧ Prepared (J.operation bld) w.pos w.tile
  todo : ∀ a b, w.phase = .seeding a b → a.length ≤ J.info.maxTileWidth ∧ b.length ≤ J.info.maxTileWidth
  fails : ∀ e, w.phase = .failed e → ¬cpuPrecision J.info.fpType

/-- What holds of a state in every run. -/
structure StateOK (s : OpState K) : Prop where
  types : TypesOK (J.operation bld) s.shared
  queue : ∀ t ∈ s.shared.workQueue, t ∈ getTiles J.info
  worker : ∀ i < J.numThreads, WorkerOK J bld (s.workers i)
  drained : ∀ i < J.numThreads, (s.workers i).phase = .finished → s.shared.workQueue = []

variable {J bld} (htype : entryType J.info.profileType = true)

omit [LinearOrder K] [HasSqrt K] in
/-- `InitProfile` copies at most one entry for each column and row. -/
theorem beginInitProfile_todo {info : OpInfo K} (htype : entryType info.profileType = true) (size : ℕ)
    (tile : Tile K) :
    (beginInitProfile info size tile).2.1.length ≤ tile.dims.width - info.mpWindow + 1 ∧
      (beginInitProfile info size tile).2.2.length ≤ tile.dims.height - info.mpWindow + 1 := by
  unfold beginInitProfile initProfileA initProfileB
  dsimp only
  cases ht : info.profileType with
  | oneNNIndex =>
      dsimp only
      split_ifs <;> simp
  | oneNN =>
      dsimp only
      split_ifs <;> simp
  | sumThresh => simp
  | _ => exact absurd (ht ▸ htype) (by decide)

omit [HasSqrt K] in
/-- Every profile type with an entry for each subsequence has its way to take in correlations. -/
theorem exists_absorption (bld : Build K) {type : SCAMPProfileType} (h : entryType type = true)
    (threshold : K) : Nonempty (Absorption bld type threshold) := by
  cases type with
  | oneNNIndex => exact ⟨bestIndexAbsorption bld threshold⟩
  | oneNN => exact ⟨bestValueAbsorption bld threshold⟩
  | sumThresh => exact ⟨sumAbsorption bld threshold⟩
  | _ => exact absurd h (by decide)

include htype

/-- A tile just popped is prepared. -/
theorem workerOK_pop {t : TilePos} (ht : t ∈ getTiles J.info) (size : ℕ) (tile : Tile K) :
    WorkerOK J bld
      { phase := .seeding (beginInitProfile J.info size (prepareTile (J.operation bld) t tile)).2.1
          (beginInitProfile J.info size (prepareTile (J.operation bld) t tile)).2.2
        pos := t
        tile := (beginInitProfile J.info size (prepareTile (J.operation bld) t tile)).1 } where
  phase := trivial
  holds _ := ⟨ht, (prepareTile_prepared (J.operation bld) t tile).withMemory _ _ _⟩
  todo := by
    intro a b hab
    obtain ⟨rfl, rfl⟩ := Phase.seeding.inj hab
    obtain ⟨hA, hB⟩ := beginInitProfile_todo htype size (prepareTile (J.operation bld) t tile)
    obtain ⟨_, _, hwidth, hheight⟩ := prepared_dims ht (prepareTile_prepared (J.operation bld) t tile)
    have hcols : tileNumCols J.info t ≤ J.info.maxTileWidth := Nat.min_le_left _ _
    have hrows : tileNumRows J.info t ≤ J.info.maxTileWidth := Nat.min_le_left _ _
    rw [hwidth] at hA
    rw [hheight] at hB
    exact ⟨hA.trans hcols, hB.trans hrows⟩
  fails e he := by cases he

omit htype in
/-- Copying an entry keeps the tile prepared. -/
theorem workerOK_copy {w : Worker K} (h : WorkerOK J bld w) (hw : w.phase.holding = true) {a b : List ℕ}
    (ha : a.length ≤ J.info.maxTileWidth) (hb : b.length ≤ J.info.maxTileWidth)
    (memA memB : Buffer (MpEntry K)) :
    WorkerOK J bld { w with phase := .seeding a b, tile := { w.tile with
      profileATileDev := memA, profileBTileDev := memB } } where
  phase := trivial
  holds _ := ⟨(h.holds hw).1, (h.holds hw).2.withMemory _ _ _⟩
  todo := by
    intro a' b' hab
    obtain ⟨rfl, rfl⟩ := Phase.seeding.inj hab
    exact ⟨ha, hb⟩
  fails e he := by cases he

omit htype in
/-- A worker without a tile in hand. -/
theorem workerOK_idle (w : Worker K) {phase : Phase} (hidle : phase.holding = false)
    (hok : PhaseOK (J.operation bld) phase) (hfails : ∀ e, phase ≠ .failed e) :
    WorkerOK J bld { w with phase := phase } where
  phase := hok
  holds h := absurd (h.symm.trans hidle) Bool.noConfusion
  todo := by
    rintro a b rfl
    cases hidle
  fails e he := absurd he (hfails e)

/-- **One worker's step**, what any run keeps of it. -/
theorem workerStep_ok [IsStrictOrderedRing K] {g g' : Shared K} {w w' : Worker K} {act : Action}
    (hg : TypesOK (J.operation bld) g) (hq : ∀ t ∈ g.workQueue, t ∈ getTiles J.info)
    (h : WorkerOK J bld w) (hstep : WorkerStep (J.operation bld) g w act g' w') :
    TypesOK (J.operation bld) g' ∧ WorkerOK J bld w' ∧ g'.workQueue <:+ g.workQueue ∧
      (w'.phase = .finished → g'.workQueue = []) := by
  cases hstep with
  | enter hw => exact ⟨hg, workerOK_idle w rfl trivial nofun, List.suffix_refl _, nofun⟩
  | look hw _ => exact ⟨hg, workerOK_idle w rfl trivial nofun, List.suffix_refl _, nofun⟩
  | leave hw hnil => exact ⟨hg, workerOK_idle w rfl trivial nofun, List.suffix_refl _, fun _ => hnil⟩
  | @pop t rest hw hcons =>
      refine ⟨fun side => ?_, workerOK_pop htype (hq t (hcons ▸ List.mem_cons_self)) _ _, ?_, nofun⟩
      · cases side with
        | a => exact hg .a
        | b => exact hg .b
      · rw [hcons]
        exact List.suffix_cons t rest
  | @copyA a b k hw _ =>
      obtain ⟨ha, hb⟩ := h.todo a b hw
      exact ⟨hg, workerOK_copy h (by rw [hw]; rfl) ((List.length_erase_le).trans ha) hb _ _,
        List.suffix_refl _, nofun⟩
  | @copyB a b k hw _ =>
      obtain ⟨ha, hb⟩ := h.todo a b hw
      exact ⟨hg, workerOK_copy h (by rw [hw]; rfl) ha ((List.length_erase_le).trans hb) _ _,
        List.suffix_refl _, nofun⟩
  | run hw hrun =>
      obtain ⟨ht, hprep⟩ := h.holds (by rw [hw]; rfl)
      -- what was executed is still prepared, whatever it found
      obtain ⟨R⟩ := exists_absorption bld htype J.info.threshold
      have hprep' := (execute_effect (R := R) htype ht hprep hrun).prepared
      exact ⟨hg, ⟨rfl, fun _ => ⟨ht, hprep'⟩, nofun, nofun⟩, List.suffix_refl _, nofun⟩
  | runFails hw hrun =>
      obtain ⟨ht, hprep⟩ := h.holds (by rw [hw]; rfl)
      refine ⟨hg, ⟨trivial, nofun, nofun, fun e _ hfp => ?_⟩, List.suffix_refl _, nofun⟩
      -- on a precision of the CPU no tile fails
      obtain ⟨tile', htile'⟩ := execute_succeeds ht (Or.inl htype) hprep hfp
      exact absurd (htile'.symm.trans hrun) nofun
  | @mergeA last p hw hp =>
      obtain ⟨ht, hprep⟩ := h.holds (by rw [hw]; rfl)
      obtain ⟨p', hp', hty, _⟩ := mergeProfileA_ok htype hg w.tile
      obtain rfl : p' = p := Except.ok.inj (hp'.symm.trans hp)
      have hphase := h.phase
      rw [hw] at hphase
      obtain rfl : last = false := hphase
      refine ⟨fun side => ?_, ?_, List.suffix_refl _, ?_⟩
      · cases side with
        | a => exact fun _ => hty
        | b => exact hg .b
      · split
        · next hsome => exact ⟨⟨rfl, hsome⟩, fun _ => ⟨ht, hprep⟩, nofun, nofun⟩
        · exact workerOK_idle w rfl trivial nofun
      · dsimp only
        split <;> exact nofun
  | @mergeB last side p hw hside hp =>
      obtain ⟨p', hp', hty, _⟩ := mergeProfileB_ok htype hg w.tile hside
      obtain rfl : p' = p := Except.ok.inj (hp'.symm.trans hp)
      have hphase := h.phase
      rw [hw] at hphase
      obtain ⟨rfl, _⟩ := hphase
      refine ⟨fun other => ?_, workerOK_idle w rfl trivial nofun, ?_, nofun⟩
      · cases side <;> cases other <;> first | exact fun _ => hty | exact hg .a | exact hg .b
      · cases side <;> exact List.suffix_refl _
  | count hw =>
      refine ⟨fun side => ?_, workerOK_idle w rfl trivial nofun, List.suffix_refl _, nofun⟩
      cases side with
      | a => exact hg .a
      | b => exact hg .b

omit htype in
omit [Field K] [LinearOrder K] [HasSqrt K] in
/-- The workers after worker `i` has moved. -/
theorem workers_update (g : Shared K) (workers : ℕ → Worker K) (i : ℕ) (w : Worker K) (j : ℕ) :
    (OpState.mk g (Function.update workers i w)).workers j = if j = i then w else workers j :=
  Function.update_apply _ _ _ _

/-- A step of the operation, by the step of its worker. -/
theorem opStep_cases {s s' : OpState K} (hs : StateOK J bld s) {i : ℕ}
    (hi : i < J.numThreads) {act : Action} (h : opStep (J.operation bld) s i act = some s') :
    ∃ g w, s' = ⟨g, Function.update s.workers i w⟩ ∧
      WorkerStep (J.operation bld) s.shared (s.workers i) act g w := by
  unfold opStep at h
  split at h
  · next g w hstep =>
      exact ⟨g, w, (Option.some.inj h).symm, workStep_cases htype hs.types (hs.worker i hi).phase hstep⟩
  · cases h

/-- **Every step keeps `StateOK`.** -/
theorem stateOK_step [IsStrictOrderedRing K] {s s' : OpState K} (hs : StateOK J bld s)
    (h : OpStep (J.operation bld) J.numThreads s s') : StateOK J bld s' := by
  obtain ⟨i, hi, act, hstep⟩ := h
  obtain ⟨g, w, rfl, hw⟩ := opStep_cases htype hs hi hstep
  obtain ⟨htypes, hok, hsuffix, hfin⟩ := workerStep_ok htype hs.types hs.queue (hs.worker i hi) hw
  refine ⟨htypes, fun t ht => hs.queue t (hsuffix.subset ht), fun j hj => ?_, fun j hj => ?_⟩
  · rw [workers_update]
    split
    · exact hok
    · exact hs.worker j hj
  · rw [workers_update]
    split
    · exact hfin
    · intro hfinished
      have hnil := hs.drained j hj hfinished
      rw [hnil] at hsuffix
      exact List.suffix_nil.mp hsuffix

omit [HasSqrt K] in
/-- A profile with an entry for each subsequence, as `InitProfileMemory` leaves it. -/
theorem alloc_entries {p : Profile K} (hp : p.type = J.info.profileType) (size : ℕ) (h w : ℤ) :
    (p.alloc size h w).type = J.info.profileType ∧
      ∀ k, (p.alloc size h w).data.get k = allocEntry J.info.profileType := by
  unfold Profile.alloc
  rw [hp]
  cases ht : J.info.profileType with
  | oneNNIndex => exact ⟨rfl, fun _ => rfl⟩
  | oneNN => exact ⟨rfl, fun _ => rfl⟩
  | sumThresh => exact ⟨rfl, fun _ => rfl⟩
  | _ => exact absurd (ht ▸ htype) (by decide)

omit [HasSqrt K] in
/-- The rows are merged into `profile_b` only when it is kept. -/
theorem keepRows_of_target (h : Tile.mergeTargetB J.info = some .b) : J.args.keepRowsSeparate = true := by
  have hkeepInfo : J.info.keepRowsSeparate = J.args.keepRowsSeparate := if_neg (ne_matrixSummary htype)
  rw [← hkeepInfo]
  unfold Tile.mergeTargetB at h
  split at h
  · next hb => exact (Bool.and_eq_true_iff.mp hb).2
  · split at h <;> cases h

omit [HasSqrt K] in
/-- The profiles `do_join` starts with: of the type of the operation and with initial entries, where tiles
    are merged into them. -/
theorem initState_profile (memory : ℕ → Tile K) {side : Side}
    (hside : side = .a ∨ Tile.mergeTargetB J.info = some side) :
    ((J.initState memory).shared.profile side).type = J.info.profileType ∧
      ∀ k, ((J.initState memory).shared.profile side).data.get k = allocEntry J.info.profileType := by
  cases side with
  | a => exact alloc_entries htype J.type_a _ _ _
  | b =>
      have hkeep := keepRows_of_target htype (hside.resolve_left nofun)
      have halloc := alloc_entries htype (J.type_b hkeep) J.args.profileBSize J.args.matrixHeight
        J.args.matrixWidth
      show (if J.args.keepRowsSeparate then _ else _ : Profile K).type = _ ∧
        ∀ k, (if J.args.keepRowsSeparate then _ else _ : Profile K).data.get k = _
      rw [if_pos hkeep]
      exact halloc

theorem stateOK_init (memory : ℕ → Tile K) : StateOK J bld (J.initState memory) :=
  ⟨fun _ hside => (initState_profile htype memory hside).1, fun _ ht => ht,
    fun _ _ => ⟨trivial, nofun, nofun, nofun⟩, nofun⟩

/-- **Every run of an accepted join is in order**: no worker is in a wrong phase, holds a tile that is not
    prepared, or fails in double or ultra precision. -/
theorem stateOK_run [IsStrictOrderedRing K] {memory : ℕ → Tile K} {s : OpState K}
    (hrun : Relation.ReflTransGen (OpStep (J.operation bld) J.numThreads) (J.initState memory) s) :
    StateOK J bld s :=
  run_inv (I := StateOK J bld) (fun _ _ hs hstep => stateOK_step htype hs hstep) hrun
    (stateOK_init htype memory)

/-! ## Every run can return -/

omit htype in
/-- How much a worker has still to do with the tile it holds and to leave the loop. -/
def Phase.weight : Phase → ℕ
  | .start => 4
  | .checking => 3
  | .popping => 2
  | .counting => 4
  | .mergingB _ => 5
  | .mergingA _ => 6
  | .seeding a b => 7 + a.length + b.length
  | .presetting a b => 5 + a.length + b.length
  | .finished => 0
  | .failed _ => 0

omit htype in
/-- How much all workers have still to do. -/
def remaining (J : Join K) (s : OpState K) : ℕ :=
  s.shared.workQueue.length * (2 * J.info.maxTileWidth + 6) +
    ∑ i ∈ Finset.range J.numThreads, (s.workers i).phase.weight

/-- Each step of a worker leaves less to do. -/
theorem workerStep_weight {g g' : Shared K} {w w' : Worker K} {act : Action}
    (hq : ∀ t ∈ g.workQueue, t ∈ getTiles J.info) (hstep : WorkerStep (J.operation bld) g w act g' w') :
    g'.workQueue.length * (2 * J.info.maxTileWidth + 6) + w'.phase.weight <
      g.workQueue.length * (2 * J.info.maxTileWidth + 6) + w.phase.weight := by
  cases hstep with
  | enter hw => rw [hw]; simp [Phase.weight]
  | look hw _ => rw [hw]; simp [Phase.weight]
  | leave hw hnil => rcases hw with hw | hw <;> (rw [hw]; simp [Phase.weight])
  | @pop t rest hw hcons =>
      have hpop : WorkerOK J bld _ :=
        workerOK_pop htype (hq t (hcons ▸ List.mem_cons_self)) g.profileA.data.size w.tile
      obtain ⟨ha, hb⟩ := hpop.todo _ _ rfl
      rw [hw, hcons]
      simp only [List.length_cons, Phase.weight, Nat.add_mul, Nat.one_mul]
      have : (J.operation bld).info = J.info := rfl
      rw [this]
      omega
  | @copyA a b k hw hk =>
      rw [hw]
      have := List.length_erase_of_mem hk
      have := List.length_pos_of_mem hk
      simp only [Phase.weight]
      omega
  | @copyB a b k hw hk =>
      rw [hw]
      have := List.length_erase_of_mem hk
      have := List.length_pos_of_mem hk
      simp only [Phase.weight]
      omega
  | run hw _ => rw [hw]; simp [Phase.weight]
  | runFails hw _ => rw [hw]; simp [Phase.weight]
  | @mergeA last p hw _ =>
      rw [hw]
      dsimp only
      unfold afterMerge
      split_ifs <;> simp [Phase.weight]
  | @mergeB last side p hw _ _ =>
      rw [hw]
      unfold afterMerge
      cases side <;> (dsimp only [Shared.setProfile]; split_ifs <;> simp [Phase.weight])
  | count hw => rw [hw]; simp [Phase.weight]

theorem remaining_lt {s s' : OpState K} (hs : StateOK J bld s)
    (h : OpStep (J.operation bld) J.numThreads s s') : remaining J s' < remaining J s := by
  obtain ⟨i, hi, act, hstep⟩ := h
  obtain ⟨g, w, rfl, hw⟩ := opStep_cases htype hs hi hstep
  have hlt := workerStep_weight htype hs.queue hw
  have hsum := sum_update hi (fun w : Worker K => w.phase.weight) s.workers w
  unfold remaining
  dsimp only at hsum ⊢
  omega

/-- **Every run can return**: from any state in order, whatever the workers do next, some continuation ends
    with all of them finished. -/
theorem runs_return [IsStrictOrderedRing K] (hfp : cpuPrecision J.info.fpType) {s : OpState K}
    (hs : StateOK J bld s) :
    ∃ s', Relation.ReflTransGen (OpStep (J.operation bld) J.numThreads) s s' ∧ J.Returned s' := by
  refine reaches_final (I := StateOK J bld) (remaining J) (fun _ _ hs h => stateOK_step htype hs h)
    (fun _ _ hs h => remaining_lt htype hs h) ?_ hs
  intro s hs hnot
  simp only [Join.Returned, not_forall] at hnot
  obtain ⟨i, hi, hfinished⟩ := hnot
  obtain ⟨act, g, w, hstep⟩ := workStep_enabled (J.operation bld) s.shared hfinished
    fun e hfailed => absurd hfp ((hs.worker i hi).fails e hfailed)
  refine ⟨⟨g, Function.update s.workers i w⟩, i, hi, act, ?_⟩
  unfold opStep
  rw [hstep]

end

end Scamp
