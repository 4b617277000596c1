import Scamp.Gpu.Correctness.Starts

/-!
# `Gpu.Correctness.Uniqueness` — no match twice

In a run of any number of GPU workers, what the queue of a column holds, what is still to come from queued
tiles and what the workers are about to merge never exceeds what all tiles offer the column
(`GpuInv.account`). When the two passes over each tile share no cell, all tiles offer a column each row at
most once, so that no queue can hold two matches of one row. `neighbors_reportedOnce_iff` says when that
is: an AB-join that is not aligned compares the main diagonal of each tile twice. Thresholds below `-2` let
through what the registers of a kernel start with, which is no cell of the pass.
-/

namespace Scamp

open Lib

section
variable {K : Type} [LinearOrder K] {info : OpInfo K}

/-! ## What a tile offers a column -/

/-- The matches for a column in the two lists of a tile. -/
def matchOffers (info : OpInfo K) (t : TilePos) (ms : TileMatches K) (side : Side) (pos : ℕ) :
    Multiset (SCAMPmatch K) :=
  presentedByCalls (mergedLists info (tileDims info t) ms side) pos

/-- The part of them that the merge of the columns offers. -/
def offeredCols (info : OpInfo K) (t : TilePos) (ms : List (SCAMPmatch K)) (side : Side) (pos : ℕ) :
    Multiset (SCAMPmatch K) :=
  if side = .a then presentedMatches (tileDims info t).row (tileDims info t).col ms pos else 0

/-- The part of them that the merge of the rows offers. -/
def offeredRows (info : OpInfo K) (t : TilePos) (ms : List (SCAMPmatch K)) (side : Side) (pos : ℕ) :
    Multiset (SCAMPmatch K) :=
  if Tile.mergeTargetB info = some side then
    presentedMatches (tileDims info t).col (tileDims info t).row ms pos
  else 0

omit [LinearOrder K] in
theorem matchOffers_eq (t : TilePos) (ms : TileMatches K) (side : Side) (pos : ℕ) :
    matchOffers info t ms side pos = offeredCols info t ms.cols side pos + offeredRows info t ms.rows side pos := by
  unfold matchOffers offeredCols offeredRows mergedLists presentedByCalls
  rw [List.map_append, List.sum_append]
  congr 1
  · split
    · exact Multiset.add_zero _
    · rfl
  · split
    · exact Multiset.add_zero _
    · rfl

omit [LinearOrder K] in
/-- Fewer matches offer less. -/
theorem presentedMatches_mono {ms ms' : List (SCAMPmatch K)} (h : ms.Subperm ms') (startRow startCol pos : ℕ) :
    presentedMatches startRow startCol ms pos ≤ presentedMatches startRow startCol ms' pos :=
  Multiset.map_le_map (Multiset.coe_le.mpr (h.filter _))

omit [LinearOrder K] in
theorem offeredCols_mono {ms ms' : List (SCAMPmatch K)} (h : ms.Subperm ms') (t : TilePos) (side : Side)
    (pos : ℕ) : offeredCols info t ms side pos ≤ offeredCols info t ms' side pos := by
  unfold offeredCols
  split
  · exact presentedMatches_mono h _ _ _
  · exact le_refl _

omit [LinearOrder K] in
theorem offeredRows_mono {ms ms' : List (SCAMPmatch K)} (h : ms.Subperm ms') (t : TilePos) (side : Side)
    (pos : ℕ) : offeredRows info t ms side pos ≤ offeredRows info t ms' side pos := by
  unfold offeredRows
  split
  · exact presentedMatches_mono h _ _ _
  · exact le_refl _

/-- What is reported of a tile is some of what its passes may report. -/
theorem reported_subperm (s : NeighborState K) (ms : TileMatches K) :
    (s.reported info ms).cols.Subperm ms.cols ∧ (s.reported info ms).rows.Subperm ms.rows := by
  unfold NeighborState.reported writeBack
  dsimp only
  refine ⟨List.filter_sublist.subperm, ?_⟩
  split
  · exact List.filter_sublist.subperm
  · exact List.nil_subperm

/-! ## Steps -/

/-- The tile in the hands of a worker. -/
def GpuPhase.tile : GpuPhase K → Option TilePos
  | .popping => none
  | .seeding t => some t
  | .executing t => some t
  | .mergingRows t _ _ => some t

/-- What a worker may still merge for a column. A tile that has overflowed is run again as a whole. -/
def GpuPhase.held (info : OpInfo K) (matchesOf : TilePos → TileMatches K) (side : Side) (pos : ℕ) :
    GpuPhase K → Multiset (SCAMPmatch K)
  | .popping => 0
  | .seeding t => matchOffers info t (matchesOf t) side pos
  | .executing t => matchOffers info t (matchesOf t) side pos
  | .mergingRows t overflowed ms =>
      if overflowed then matchOffers info t (matchesOf t) side pos else offeredRows info t ms side pos

/-- The list of rows that a worker is about to merge is sorted. -/
def GpuPhase.Sorted : GpuPhase K → Prop
  | .mergingRows _ _ ms => SortedMatches ms
  | _ => True

/-- The matches in the queue of a column. -/
def GpuState.queueEntries (s : GpuState K) (side : Side) (pos : ℕ) : Multiset (SCAMPmatch K) :=
  ((s.profile side).matchValue.get pos).entries

/-- What the queued tiles offer a column. -/
def queuedOffers (info : OpInfo K) (matchesOf : TilePos → TileMatches K) (tiles : List TilePos) (side : Side)
    (pos : ℕ) : Multiset (SCAMPmatch K) :=
  (tiles.map fun t => matchOffers info t (matchesOf t) side pos).sum

variable (info) in
theorem entries_mergeTileMatches {ms : List (SCAMPmatch K)} (hsorted : SortedMatches ms)
    (p : NeighborProfile K) (position indexStart : ℕ) (overflowed : Bool) (pos : ℕ) :
    (((mergeTileMatches info p ms position indexStart overflowed).matchValue.get pos).entries :
        Multiset (SCAMPmatch K)) ≤
      (p.matchValue.get pos).entries +
        if overflowed then 0 else presentedMatches indexStart position ms pos := by
  unfold mergeTileMatches
  cases overflowed with
  | true =>
      have hslot := slot_thresholdMerge position info.maxMatchesPerColumn.toNat hsorted p pos
      have hqueue : (thresholdMerge position info.maxMatchesPerColumn.toNat p ms).matchValue.get pos =
          p.matchValue.get pos := congrArg Prod.fst hslot
      rw [if_pos rfl, if_pos rfl, hqueue, add_zero]
  | false =>
      rw [if_neg Bool.false_ne_true, if_neg Bool.false_ne_true]
      exact entries_matchMerge hsorted

/-- **What a step does**, as far as the matches are concerned: it changes one worker, takes nothing new into
    its hands but a queued tile, and what it merges it no longer holds. -/
structure StepMoves (info : OpInfo K) (matchesOf : TilePos → TileMatches K) (i : ℕ) (w : GpuWorker K)
    (s s' : GpuState K) : Prop where
  workers : s'.workers = Function.update s.workers i w
  queue : ∀ t ∈ s'.workQueue, t ∈ s.workQueue
  tile : ∀ t, w.phase.tile = some t → (s.workers i).phase.tile = some t ∨ t ∈ s.workQueue
  sorted : w.phase.Sorted
  account : ∀ side pos,
    s'.queueEntries side pos + (queuedOffers info matchesOf s'.workQueue side pos +
        w.phase.held info matchesOf side pos) ≤
      s.queueEntries side pos + (queuedOffers info matchesOf s.workQueue side pos +
        (s.workers i).phase.held info matchesOf side pos)

section
variable {matchesOf : TilePos → TileMatches K} {i : ℕ} {s s' : GpuState K}

omit [LinearOrder K] in
theorem held_afterAttempt (t : TilePos) (overflowed : Bool) (side : Side) (pos : ℕ) :
    (afterAttempt t overflowed : GpuPhase K).held info matchesOf side pos =
      if overflowed then matchOffers info t (matchesOf t) side pos else 0 := by
  unfold afterAttempt
  cases overflowed <;> rfl

omit [LinearOrder K] in
theorem tile_afterAttempt {t t' : TilePos} {overflowed : Bool}
    (h : (afterAttempt t overflowed : GpuPhase K).tile = some t') : t = t' := by
  unfold afterAttempt at h
  cases overflowed with
  | true => exact Option.some.inj h
  | false => exact absurd h (Option.some_ne_none t').symm

theorem sorted_afterAttempt (t : TilePos) (overflowed : Bool) : (afterAttempt t overflowed : GpuPhase K).Sorted := by
  unfold afterAttempt
  cases overflowed <;> exact trivial

omit [LinearOrder K] in
/-- What does not change is added to both sides. -/
theorem account_rest {x y x' y' : Multiset (SCAMPmatch K)} (q : Multiset (SCAMPmatch K)) (h : x' + y' ≤ x + y) :
    x' + (q + y') ≤ x + (q + y) := by
  rw [add_left_comm, add_left_comm x]
  exact add_le_add_right h q

variable (info s) in
/-- **The merge of the columns.** Afterwards the worker holds what its rows offer, or all of the tile again. -/
theorem account_mergeCols {t : TilePos} {ms reported : TileMatches K} (overflowed : Bool)
    (hcols : SortedMatches ms.cols) (hsub : ms.cols.Subperm reported.cols ∧ ms.rows.Subperm reported.rows)
    (hreported : reported.cols.Subperm (matchesOf t).cols ∧ reported.rows.Subperm (matchesOf t).rows)
    (side : Side) (pos : ℕ) :
    (s.setProfile .a (mergeTileMatches info s.profileA ms.cols (tileDims info t).col (tileDims info t).row
        overflowed)).queueEntries side pos +
        (if overflowed then matchOffers info t (matchesOf t) side pos else offeredRows info t ms.rows side pos) ≤
      s.queueEntries side pos + matchOffers info t (matchesOf t) side pos := by
  have hentries := entries_mergeTileMatches info hcols s.profileA (tileDims info t).col
    (tileDims info t).row overflowed pos
  have hqueue : (s.setProfile .a (mergeTileMatches info s.profileA ms.cols (tileDims info t).col
      (tileDims info t).row overflowed)).queueEntries side pos ≤
      s.queueEntries side pos + if overflowed then 0 else offeredCols info t ms.cols side pos := by
    cases side with
    | a =>
        unfold offeredCols
        rw [if_pos rfl]
        exact hentries
    | b => exact Multiset.le_add_right _ _
  cases overflowed with
  | true =>
      rw [if_pos rfl, add_zero] at hqueue
      rw [if_pos rfl]
      exact add_le_add_left hqueue _
  | false =>
      rw [if_neg Bool.false_ne_true] at hqueue
      rw [if_neg Bool.false_ne_true]
      calc _ ≤ s.queueEntries side pos + offeredCols info t ms.cols side pos +
            offeredRows info t ms.rows side pos := add_le_add_left hqueue _
        _ = s.queueEntries side pos + (offeredCols info t ms.cols side pos +
            offeredRows info t ms.rows side pos) := add_assoc _ _ _
        _ ≤ s.queueEntries side pos + matchOffers info t (matchesOf t) side pos := by
          rw [matchOffers_eq]
          apply add_le_add_right
          exact add_le_add (offeredCols_mono (hsub.1.trans hreported.1) t side pos)
            (offeredRows_mono (hsub.2.trans hreported.2) t side pos)

variable (matchesOf s) in
/-- **The merge of the rows.** -/
theorem account_mergeRows (t : TilePos) {ms : List (SCAMPmatch K)} (overflowed : Bool)
    (hrows : SortedMatches ms) {target : Side} (htarget : Tile.mergeTargetB info = some target)
    (side : Side) (pos : ℕ) :
    (s.setProfile target (mergeTileMatches info (s.profile target) ms (tileDims info t).row
        (tileDims info t).col overflowed)).queueEntries side pos +
        (if overflowed then matchOffers info t (matchesOf t) side pos else 0) ≤
      s.queueEntries side pos +
        if overflowed then matchOffers info t (matchesOf t) side pos else offeredRows info t ms side pos := by
  have hentries := entries_mergeTileMatches info hrows (s.profile target) (tileDims info t).row
    (tileDims info t).col overflowed pos
  have hqueue : (s.setProfile target (mergeTileMatches info (s.profile target) ms (tileDims info t).row
      (tileDims info t).col overflowed)).queueEntries side pos ≤
      s.queueEntries side pos + if overflowed then 0 else offeredRows info t ms side pos := by
    unfold offeredRows
    rw [htarget]
    cases target <;> cases side
    · rw [if_pos rfl]
      exact hentries
    · exact Multiset.le_add_right _ _
    · exact Multiset.le_add_right _ _
    · rw [if_pos rfl]
      exact hentries
  cases overflowed with
  | true =>
      rw [if_pos rfl, add_zero] at hqueue
      rw [if_pos rfl]
      exact add_le_add_left hqueue _
  | false =>
      rw [if_neg Bool.false_ne_true] at hqueue
      rw [if_neg Bool.false_ne_true, add_zero]
      exact hqueue

omit [LinearOrder K] in
/-- Without a profile for them, the rows offer nothing. -/
theorem offeredRows_of_none (h : Tile.mergeTargetB info = none) (t : TilePos) (ms : List (SCAMPmatch K))
    (side : Side) (pos : ℕ) : offeredRows info t ms side pos = 0 := by
  unfold offeredRows
  rw [h]
  rfl

variable (info matchesOf) in
/-- After the merge of the columns, the worker holds the rows, or all of the tile again. -/
theorem afterCols_phase (t : TilePos) (overflowed : Bool) {ms : List (SCAMPmatch K)} (hms : SortedMatches ms) :
    ∀ next : GpuPhase K, next = (if (Tile.mergeTargetB info).isSome then .mergingRows t overflowed ms
        else afterAttempt t overflowed) →
      (∀ t', next.tile = some t' → t = t') ∧ next.Sorted ∧
      ∀ side pos, next.held info matchesOf side pos =
        if overflowed then matchOffers info t (matchesOf t) side pos else offeredRows info t ms side pos := by
  rintro next rfl
  cases htarget : Tile.mergeTargetB info with
  | none =>
      refine ⟨fun t' => tile_afterAttempt, sorted_afterAttempt t overflowed, fun side pos => ?_⟩
      rw [offeredRows_of_none htarget]
      exact held_afterAttempt t overflowed side pos
  | some target => exact ⟨fun t' => Option.some.inj, hms, fun side pos => rfl⟩

/-- **Every step moves matches.** -/
theorem gpuStep_moves (hsorted : (s.workers i).phase.Sorted) {act : GpuAction K}
    (h : gpuStep info matchesOf i act s = some s') : ∃ w, StepMoves info matchesOf i w s s' := by
  unfold gpuStep at h
  split at h
  · -- a tile is taken from the queue
    next hphase =>
      split at h
      · exact absurd h (Option.some_ne_none s').symm
      · next t rest hqueue =>
          obtain rfl := Option.some.inj h
          refine ⟨_, rfl, fun t' ht' => ?_, fun t' ht' => ?_, trivial, fun side pos => ?_⟩
          · rw [hqueue]
            exact List.mem_cons_of_mem t ht'
          · obtain rfl := Option.some.inj ht'
            rw [hqueue]
            exact Or.inr List.mem_cons_self
          · rw [hqueue, hphase]
            show s.queueEntries side pos + (queuedOffers info matchesOf rest side pos +
              matchOffers info t (matchesOf t) side pos) ≤ _
            unfold queuedOffers
            rw [List.map_cons, List.sum_cons]
            show _ ≤ s.queueEntries side pos + (_ + 0)
            rw [add_zero]
            exact add_le_add_right (add_comm _ _).le _
  · -- the thresholds are copied
    next t hphase =>
      obtain rfl := Option.some.inj h
      refine ⟨_, rfl, fun t' ht' => ht', fun t' ht' => Or.inl ?_, trivial, fun side pos => ?_⟩
      · rw [hphase]
        exact ht'
      · rw [hphase]
        exact le_refl _
  · -- the matches of the columns are merged
    next t ms hphase =>
      dsimp only at h
      split at h
      · next hcopied =>
          obtain rfl := Option.some.inj h
          obtain ⟨hcols, hrows⟩ := hcopied
          have haccount := account_mergeCols info s (overflows info ((s.seenBy i).reported info (matchesOf t))) hcols.1
            ⟨hcols.2.1, hrows.2.1⟩ (reported_subperm (s.seenBy i) (matchesOf t))
          obtain ⟨htile, hsorted', hheld⟩ := afterCols_phase info matchesOf t
            (overflows info ((s.seenBy i).reported info (matchesOf t))) hrows.1 _ rfl
          refine ⟨_, rfl, fun t' ht' => ht', fun t' ht' => Or.inl ?_, hsorted', fun side pos => ?_⟩
          · rw [hphase]
            exact congrArg some (htile t' ht')
          · rw [hphase]
            exact account_rest _ ((hheld side pos).symm ▸ haccount side pos)
      · exact absurd h (Option.some_ne_none s').symm
  · -- the matches of the rows are merged
    next t overflowed ms hphase =>
      split at h
      · next target htarget =>
          obtain rfl := Option.some.inj h
          rw [hphase] at hsorted
          refine ⟨{ s.workers i with phase := afterAttempt t overflowed }, ?_, fun t' ht' => ?_,
            fun t' ht' => Or.inl ?_, sorted_afterAttempt t overflowed, fun side pos => ?_⟩
          · unfold GpuState.setPhase GpuState.setWorker
            dsimp only
            rw [GpuState.workers_setProfile]
          · exact (GpuState.workQueue_setProfile s target _) ▸ ht'
          · rw [hphase]
            exact congrArg some (tile_afterAttempt ht')
          · have haccount := account_mergeRows matchesOf s t overflowed hsorted htarget side pos
            rw [← held_afterAttempt] at haccount
            rw [hphase]
            show _ + (queuedOffers info matchesOf (s.setProfile target _).workQueue side pos + _) ≤ _
            rw [GpuState.workQueue_setProfile]
            exact account_rest _ haccount
      · exact absurd h (Option.some_ne_none s').symm
  · exact absurd h (Option.some_ne_none s').symm

end

/-! ## Runs -/

/-- **The invariant of a run**: the tiles are those of the work list, and what the queues hold, what is
    queued and what is in the hands of the workers is no more than all tiles offer. -/
structure GpuInv (info : OpInfo K) (matchesOf : TilePos → TileMatches K) (n : ℕ) (s : GpuState K) : Prop where
  queue : ∀ t ∈ s.workQueue, t ∈ getTiles info
  tiles : ∀ i t, (s.workers i).phase.tile = some t → t ∈ getTiles info
  sorted : ∀ i, (s.workers i).phase.Sorted
  account : ∀ side pos, s.queueEntries side pos + (queuedOffers info matchesOf s.workQueue side pos +
      ∑ i ∈ Finset.range n, (s.workers i).phase.held info matchesOf side pos) ≤
    queuedOffers info matchesOf (getTiles info) side pos

section
variable {matchesOf : TilePos → TileMatches K} {n : ℕ} {s s' : GpuState K}

theorem GpuInv.step (h : GpuInv info matchesOf n s) (hstep : GpuStep info matchesOf n s s') :
    GpuInv info matchesOf n s' := by
  obtain ⟨i, hi, act, hstep⟩ := hstep
  obtain ⟨w, hmoves⟩ := gpuStep_moves (h.sorted i) hstep
  have hworker : ∀ j, (s'.workers j).phase = if j = i then w.phase else (s.workers j).phase := by
    intro j
    rw [hmoves.workers, Function.update_apply]
    split <;> rfl
  constructor
  · intro t ht
    exact h.queue t (hmoves.queue t ht)
  · intro j t ht
    rw [hworker] at ht
    split at ht
    · rcases hmoves.tile t ht with hold | hnew
      · exact h.tiles i t hold
      · exact h.queue t hnew
    · exact h.tiles j t ht
  · intro j
    rw [hworker]
    split
    · exact hmoves.sorted
    · exact h.sorted j
  · intro side pos
    have hsum := sum_update hi (fun w => w.phase.held info matchesOf side pos) s.workers w
    rw [← hmoves.workers] at hsum
    exact (account_step_le (hmoves.account side pos) hsum).trans (h.account side pos)

variable (matchesOf n) in
theorem gpuInv_init (args : SCAMPArgs K) (memory : ℕ → Buffer K × Buffer K) :
    GpuInv info matchesOf n (.init info args memory) where
  queue t ht := ht
  tiles i t ht := absurd ht (Option.some_ne_none t).symm
  sorted i := trivial
  account side pos := by
    have hempty : (GpuState.init info args memory).queueEntries side pos = 0 := by
      cases side <;> rfl
    have hidle : ∑ i ∈ Finset.range n,
        ((GpuState.init info args memory).workers i).phase.held info matchesOf side pos = 0 :=
      Finset.sum_eq_zero fun i _ => rfl
    rw [hempty, hidle, zero_add, add_zero]
    exact le_refl _

theorem gpuInv_run {args : SCAMPArgs K} {memory : ℕ → Buffer K × Buffer K}
    (hrun : Relation.ReflTransGen (GpuStep info matchesOf n) (.init info args memory) s) :
    GpuInv info matchesOf n s :=
  run_inv (fun _ _ h hstep => h.step hstep) hrun (gpuInv_init matchesOf n args memory)

/-- **What a queue holds**, all tiles together have offered. -/
theorem GpuInv.entries_le (h : GpuInv info matchesOf n s) (side : Side) (pos : ℕ) :
    s.queueEntries side pos ≤ queuedOffers info matchesOf (getTiles info) side pos :=
  (Multiset.le_add_right _ _).trans (h.account side pos)

end

/-! ## The rows of a queue -/

omit [LinearOrder K] in
/-- The rows of what is offered, as words of 32 bits. -/
theorem map_row_presentedByCalls (calls : List (MatchMergeCall K)) (pos : ℕ) :
    (presentedByCalls calls pos).map SCAMPmatch.row =
      ((callRows calls pos).map (· % 2 ^ 32) : List ℕ) := by
  unfold presentedByCalls callRows
  induction calls with
  | nil => rfl
  | cons c calls ih =>
      rw [List.map_cons, List.sum_cons, Multiset.map_add, ih, List.flatMap_cons, List.map_append,
        ← Multiset.coe_add]
      congr 1
      unfold presentedMatches
      rw [Multiset.map_coe, List.map_map, List.map_map]
      rfl

omit [LinearOrder K] in
/-- A list that the passes report together offers the rows of each pass. -/
theorem callRows_flatMap (passes : List Bool) (ms : Bool → List (SCAMPmatch K)) (startRow startCol pos : ℕ) :
    callRows [⟨passes.flatMap ms, startRow, startCol⟩] pos =
      passes.flatMap fun p => callRows [⟨ms p, startRow, startCol⟩] pos := by
  unfold callRows columnMatches
  simp only [List.flatMap_singleton, List.filter_flatMap, List.map_flatMap]

variable [Field K]

/-- The rows of cells that the passes over a tile may report for a column. -/
def tileRows (cfg : KernelConfig) (info : OpInfo K) (corr : ℕ × ℕ → Dbl K) (side : Side) (pos : ℕ)
    (t : TilePos) : List ℕ :=
  (tilePasses info t).flatMap (passRows cfg info corr side pos t)

theorem callRows_tileMatches (cfg : KernelConfig) (corr : ℕ × ℕ → Dbl K) (side : Side) (pos : ℕ) (t : TilePos) :
    (callRows (mergedLists info (tileDims info t) (tileMatches cfg info corr noStarts t) side) pos).Perm
      (tileRows cfg info corr side pos t) := by
  have hparts : ∀ ms : TileMatches K, callRows (mergedLists info (tileDims info t) ms side) pos =
      (if side = .a then callRows [⟨ms.cols, (tileDims info t).row, (tileDims info t).col⟩] pos else []) ++
        if Tile.mergeTargetB info = some side then
          callRows [⟨ms.rows, (tileDims info t).col, (tileDims info t).row⟩] pos else [] := by
    intro ms
    unfold mergedLists
    rw [callRows_append]
    congr 1
    · split <;> rfl
    · split <;> rfl
  unfold tileRows passRows
  simp only [hparts]
  refine List.Perm.trans ?_ (List.flatMap_append_perm _ _ _)
  unfold tileMatches
  dsimp only
  rw [callRows_flatMap, callRows_flatMap]
  apply List.Perm.of_eq
  congr 1
  · split
    · rfl
    · exact (List.flatMap_eq_nil_iff.mpr fun _ _ => rfl).symm
  · split
    · rfl
    · exact (List.flatMap_eq_nil_iff.mpr fun _ _ => rfl).symm

/-- All rows that may be reported for a column. -/
def allRows (cfg : KernelConfig) (info : OpInfo K) (corr : ℕ × ℕ → Dbl K) (side : Side) (pos : ℕ) : List ℕ :=
  (getTiles info).flatMap (tileRows cfg info corr side pos)

theorem map_row_queuedOffers (cfg : KernelConfig) (corr : ℕ × ℕ → Dbl K) (side : Side) (pos : ℕ)
    (tiles : List TilePos) :
    (queuedOffers info (tileMatches cfg info corr noStarts) tiles side pos).map SCAMPmatch.row =
      ((tiles.flatMap (tileRows cfg info corr side pos)).map (· % 2 ^ 32) : List ℕ) := by
  unfold queuedOffers
  induction tiles with
  | nil => rfl
  | cons t tiles ih =>
      rw [List.map_cons, List.sum_cons, Multiset.map_add, ih, List.flatMap_cons, List.map_append,
        ← Multiset.coe_add]
      congr 1
      unfold matchOffers
      rw [map_row_presentedByCalls]
      exact Multiset.coe_eq_coe.mpr ((callRows_tileMatches cfg corr side pos t).map _)

end

/-! ## No row twice -/

section
variable {K : Type} [Field K] [LinearOrder K]

/-- The kernels that worker `i` has started report row `row` for column `pos`, from the given pass. -/
def Reports (cfg : KernelConfig) (info : OpInfo K) (corr : ℕ × ℕ → Dbl K) (starts : StartIndices) (s : GpuState K)
    (i : ℕ) (t : TilePos) (transpose : Bool) (side : Side) (pos row : ℕ) : Prop :=
  (s.workers i).phase = .executing t ∧ transpose ∈ tilePasses info t ∧
    row ∈ callRows (mergedLists info (tileDims info t)
      ((s.seenBy i).reported info (passMatches cfg info corr starts t transpose)) side) pos

/-- No two passes report the same row for a column. Running a tile again is no other pass. -/
def ReportedOnce (J : Join K) (cfg : KernelConfig) (corr : ℕ × ℕ → Dbl K) (starts : StartIndices)
    (memory : ℕ → Buffer K × Buffer K) : Prop :=
  ∀ s s', J.GpuRun cfg corr starts memory s → J.GpuRun cfg corr starts memory s' →
    ∀ i i' t t' transpose transpose' side pos row,
      Reports cfg J.info corr starts s i t transpose side pos row →
      Reports cfg J.info corr starts s' i' t' transpose' side pos row → t = t' ∧ transpose = transpose'

/-- The number of rows there are for a column of the profile. -/
def sideExtent (info : OpInfo K) : Side → ℕ
  | .a => info.numRows
  | .b => info.numCols

/-- The matches in a queue are of different rows, which are kept as words of 32 bits. -/
def DistinctRows (info : OpInfo K) (side : Side) (q : MatchQueue K) : Prop :=
  ∃ rows : List ℕ, rows.Nodup ∧ (∀ row ∈ rows, row < sideExtent info side) ∧
    (q.entries.map SCAMPmatch.row).Perm (rows.map (· % 2 ^ 32))

omit [Field K] in
/-- With rows that fit into 32 bits the stored rows are different. -/
theorem DistinctRows.nodup {info : OpInfo K} {side : Side} {q : MatchQueue K} (h : DistinctRows info side q)
    (hfit : sideExtent info side ≤ 2 ^ 32) : (q.entries.map SCAMPmatch.row).Nodup := by
  obtain ⟨rows, hnodup, hlt, hperm⟩ := h
  have hsame : rows.map (· % 2 ^ 32) = rows := by
    conv_rhs => rw [← List.map_id rows]
    refine List.map_congr_left fun row hrow => ?_
    exact Nat.mod_eq_of_lt ((hlt row hrow).trans_le hfit)
  rw [hsame] at hperm
  exact hperm.nodup_iff.mpr hnodup

/-- In every state of every run, the queues hold matches of different rows. -/
def DistinctQueues (J : Join K) (cfg : KernelConfig) (corr : ℕ × ℕ → Dbl K) (starts : StartIndices)
    (memory : ℕ → Buffer K × Buffer K) : Prop :=
  ∀ s, J.GpuRun cfg corr starts memory s → ∀ side pos,
    DistinctRows J.info side ((s.profile side).matchValue.get pos)

section
variable {J : Join K} {cfg : KernelConfig} {corr : ℕ × ℕ → Dbl K} {t : TilePos}

/-- What a pass over a tile compares lies in the tile. -/
theorem inTile_of_mem_passCells (ht : t ∈ getTiles J.info) {transpose : Bool}
    (hpass : transpose ∈ tilePasses J.info t) {z : ℕ × ℕ} (h : z ∈ passCells 1 J.info t transpose) :
    InTile J.info t z.1 z.2 :=
  inTile_of_mem_tileCells Nat.one_pos ht (List.mem_flatMap.mpr ⟨transpose, hpass, h⟩)

/-- The rows that may be reported for a column are rows of the matrix. -/
theorem lt_sideExtent (ht : t ∈ getTiles J.info) {transpose : Bool} (hpass : transpose ∈ tilePasses J.info t)
    {side : Side} {pos row : ℕ} (h : row ∈ passRows cfg J.info corr side pos t transpose) :
    row < sideExtent J.info side := by
  have hin := inTile_of_mem_passCells ht hpass (reportedCell_mem ht hpass h)
  obtain ⟨-, hr, hc⟩ := (inTile_iff J).mp hin
  cases side with
  | a =>
      unfold reportedCell at hr hc
      dsimp only at hr hc
      split at hr
      · next hself =>
          have hb : J.args.hasB = false := by simpa [Join.info, OpInfo.ofArgs] using hself.1
          rw [if_pos hself] at hc
          exact hc.trans_eq (numRows_eq_numCols J hb).symm
      · exact hr
  | b => exact hc

section
variable (hbest : addsUp J.args.profileType = false)
  (hno : ∀ t ∈ getTiles J.info, ¬SharesDiagonal J.info t)
include hbest hno

/-- **The pass of a cell.** When no tile has its main diagonal compared twice, a cell is compared by one pass
    over one tile. -/
theorem pass_unique {t' : TilePos} (ht : t ∈ getTiles J.info) (ht' : t' ∈ getTiles J.info)
    {transpose transpose' : Bool} (hpass : transpose ∈ tilePasses J.info t)
    (hpass' : transpose' ∈ tilePasses J.info t') {z : ℕ × ℕ} (h : z ∈ passCells 1 J.info t transpose)
    (h' : z ∈ passCells 1 J.info t' transpose') : t = t' ∧ transpose = transpose' := by
  obtain rfl := inTile_unique J (inTile_of_mem_passCells ht hpass h) (inTile_of_mem_passCells ht' hpass' h')
  refine ⟨rfl, ?_⟩
  have hboth : true ∈ tilePasses J.info t → tilePasses J.info t = [false, true] := by
    unfold tilePasses
    split
    · intro hmem
      exact absurd hmem (by decide)
    · intro _
      rfl
  have hdisjoint : true ∈ tilePasses J.info t → z ∈ passCells 1 J.info t false →
      z ∈ passCells 1 J.info t true → False := fun hmem hup hlo =>
    hno t ht ((sharesDiagonal_iff hbest ht).mpr ⟨hboth hmem, (exists_shared_iff ht).mp ⟨z, hup, hlo⟩⟩)
  cases transpose <;> cases transpose'
  · rfl
  · exact absurd h' (hdisjoint hpass' h)
  · exact absurd h (hdisjoint hpass h')
  · rfl

/-- **All tiles offer a column each row at most once.** -/
theorem nodup_allRows (side : Side) (pos : ℕ) : (allRows cfg J.info corr side pos).Nodup := by
  refine nodup_flatMap_of_inj (nodup_getTiles J) (fun t ht => ?_) ?_
  · refine nodup_flatMap_of_inj ?_ (fun p hp => nodup_passRows ht hp corr side pos) ?_
    · unfold tilePasses
      split <;> decide
    · intro p hp p' hp' row hrow hrow'
      exact (pass_unique hbest hno ht ht hp hp' (reportedCell_mem ht hp hrow) (reportedCell_mem ht hp' hrow')).2
  · intro t ht t' ht' row hrow hrow'
    obtain ⟨p, hp, hrow⟩ := List.mem_flatMap.mp hrow
    obtain ⟨p', hp', hrow'⟩ := List.mem_flatMap.mp hrow'
    exact (pass_unique hbest hno ht ht' hp hp' (reportedCell_mem ht hp hrow) (reportedCell_mem ht' hp' hrow')).1

section
variable (hthreshold : -2 ≤ J.args.distanceThreshold) (starts : StartIndices) (memory : ℕ → Buffer K × Buffer K)
include hthreshold

theorem distinctQueues_of_not_shared : DistinctQueues J cfg corr starts memory := by
  intro s hrun side pos
  have hle := Multiset.map_le_map (f := SCAMPmatch.row)
    ((gpuInv_run (run_noStarts hthreshold hrun)).entries_le side pos)
  rw [map_row_queuedOffers] at hle
  obtain ⟨rows, hperm, hsub⟩ := Multiset.coe_le.mp hle
  obtain ⟨rows', hsub', rfl⟩ := List.sublist_map_iff.mp hsub
  refine ⟨rows', (nodup_allRows hbest hno side pos).sublist hsub', fun row hrow => ?_, hperm.symm⟩
  obtain ⟨t, ht, hrow⟩ := List.mem_flatMap.mp (hsub'.subset hrow)
  obtain ⟨p, hp, hrow⟩ := List.mem_flatMap.mp hrow
  exact lt_sideExtent ht hp hrow

theorem reportedOnce_of_not_shared : ReportedOnce J cfg corr starts memory := by
  intro s s' hrun hrun' i i' t t' p p' side pos row h h'
  have ht := (gpuInv_run hrun).tiles i t (by rw [h.1]; rfl)
  have ht' := (gpuInv_run hrun').tiles i' t' (by rw [h'.1]; rfl)
  -- what is reported is above the start of a register, and so the match of a cell
  have hcell : ∀ {s : GpuState K} {i : ℕ} {t : TilePos} {p : Bool}, J.GpuRun cfg corr starts memory s →
      Reports cfg J.info corr starts s i t p side pos row → row ∈ passRows cfg J.info corr side pos t p := by
    intro s i t p hrun h
    obtain ⟨hphase, -, hrow⟩ := h
    rw [reported_congr (s := s.seenBy i) ((above_gpuRun hthreshold hrun).copied i t hphase)
      (agreeAbove_passMatches cfg J.info corr starts t p)] at hrow
    obtain ⟨hcols, hrows⟩ := reported_subperm (s.seenBy i) (passMatches cfg J.info corr noStarts t p)
    refine mem_callRows_mergedLists.mpr ((mem_callRows_mergedLists.mp hrow).imp ?_ ?_)
    · rintro ⟨hside, m, hm, hcell⟩
      exact ⟨hside, m, hcols.subset hm, hcell⟩
    · rintro ⟨htarget, m, hm, hcell⟩
      exact ⟨htarget, m, hrows.subset hm, hcell⟩
  exact pass_unique hbest hno ht ht' h.2.1 h'.2.1 (reportedCell_mem ht h.2.1 (hcell hrun h))
    (reportedCell_mem ht' h'.2.1 (hcell hrun' h'))

end

end

end

end

/-! ## Reaching a tile -/

section
variable {K : Type} [LinearOrder K] {info : OpInfo K} {matchesOf : TilePos → TileMatches K} {n : ℕ}
  {s : GpuState K} {t : TilePos}

variable (info matchesOf) in
/-- A worker takes the first tile of the queue and copies its thresholds. -/
theorem run_take (hn : 0 < n) {rest : List TilePos} (hqueue : s.workQueue = t :: rest)
    (hphase : (s.workers 0).phase = .popping) :
    ∃ s', Relation.ReflTransGen (GpuStep info matchesOf n) s s' ∧ s'.workQueue = rest ∧
      (s'.workers 0).phase = .executing t ∧ (∀ side, s'.profile side = s.profile side) ∧
      (s'.workers 0).thresholdsA = ((s.seenBy 0).initProfile info (tileDims info t)).thresholdsA := by
  have htake : gpuStep info matchesOf 0 .advance s = some ({ s with workQueue := rest }.setPhase 0 (.seeding t)) := by
    unfold gpuStep
    rw [hphase, hqueue]
  generalize hs₁ : { s with workQueue := rest }.setPhase 0 (.seeding t) = s₁ at htake
  have hworker : s₁.workers 0 = { s.workers 0 with phase := .seeding t } := by
    rw [← hs₁]
    exact GpuState.worker_setPhase ..
  have hseed : gpuStep info matchesOf 0 .advance s₁ = some (s₁.setWorker 0 ⟨.executing t,
      ((s₁.seenBy 0).initProfile info (tileDims info t)).thresholdsA,
      ((s₁.seenBy 0).initProfile info (tileDims info t)).thresholdsB⟩) := by
    unfold gpuStep
    rw [hworker]
  refine ⟨_, (Relation.ReflTransGen.single ⟨0, hn, _, htake⟩).tail ⟨0, hn, _, hseed⟩, ?_, ?_, fun side => ?_, ?_⟩
  · rw [← hs₁]
    rfl
  · rw [GpuState.worker_setWorker]
  · rw [← hs₁]
    cases side <;> rfl
  · rw [GpuState.worker_setWorker]
    show ((s₁.seenBy 0).initProfile info (tileDims info t)).thresholdsA = _
    unfold NeighborState.initProfile GpuState.seenBy
    rw [hworker, ← hs₁]
    rfl

theorem mergeTileMatches_nil (p : NeighborProfile K) (position indexStart : ℕ) (overflowed : Bool) :
    mergeTileMatches info p [] position indexStart overflowed = p := by
  unfold mergeTileMatches thresholdMerge matchMerge
  rw [foldGroups, foldGroups]
  exact ite_self p

/-- A tile of which nothing is reported leaves the profiles as they are. -/
theorem run_skip (hn : 0 < n) (hroom : 0 ≤ info.maxMatchesPerTile) {rest : List TilePos}
    (hqueue : s.workQueue = t :: rest) (hphase : (s.workers 0).phase = .popping) (hnone : matchesOf t = ⟨[], []⟩) :
    ∃ s', Relation.ReflTransGen (GpuStep info matchesOf n) s s' ∧ s'.workQueue = rest ∧
      (s'.workers 0).phase = .popping ∧ ∀ side, s'.profile side = s.profile side := by
  obtain ⟨s₁, hrun, hqueue₁, hphase₁, hprofile₁, -⟩ := run_take info matchesOf hn hqueue hphase
  have hreported : (s₁.seenBy 0).reported info (matchesOf t) = ⟨[], []⟩ := by
    rw [hnone]
    unfold NeighborState.reported
    exact congrArg (TileMatches.mk []) (ite_self [])
  have hroom' : (([] : List (SCAMPmatch K)).length : ℤ) ≤ info.maxMatchesPerTile := hroom
  have hnoMatch : CountFits info ([] : List (SCAMPmatch K)) := by
    unfold CountFits
    rw [min_eq_right hroom']
    exact (by decide : (0 : ℤ) < 2 ^ 31)
  have hcopied : Copied info ([] : List (SCAMPmatch K)) [] := by
    refine ⟨.nil, List.Subperm.refl [], ?_⟩
    rw [copyDim_of_fits hroom hnoMatch]
    exact (min_eq_right hroom').symm
  have hfits : overflows info (⟨[], []⟩ : TileMatches K) = false := by
    unfold overflows
    rw [mergeDim_of_fits hroom' hnoMatch]
    rfl
  -- nothing is copied, so that the merges of both sides are of no matches
  have hmerge : gpuStep info matchesOf 0 (.merge ⟨[], []⟩) s₁ = some ((s₁.setProfile .a s₁.profileA).setPhase 0
      (if (Tile.mergeTargetB info).isSome then .mergingRows t false [] else .popping)) := by
    unfold gpuStep
    rw [hphase₁]
    dsimp only
    rw [hreported, if_pos ⟨hcopied, hcopied⟩, hfits, mergeTileMatches_nil]
    rfl
  generalize hs₂ : (s₁.setProfile .a s₁.profileA).setPhase 0
    (if (Tile.mergeTargetB info).isSome then .mergingRows t false [] else .popping) = s₂ at hmerge
  have hqueue₂ : s₂.workQueue = rest := by
    rw [← hs₂]
    exact hqueue₁
  have hphase₂ : (s₂.workers 0).phase =
      if (Tile.mergeTargetB info).isSome then .mergingRows t false [] else .popping := by
    rw [← hs₂, GpuState.worker_setPhase]
  have hprofile₂ : ∀ side, s₂.profile side = s.profile side := by
    intro side
    rw [← hprofile₁, ← hs₂]
    cases side <;> rfl
  have hrun₂ := hrun.tail ⟨0, hn, _, hmerge⟩
  cases htarget : Tile.mergeTargetB info with
  | none =>
      rw [htarget] at hphase₂
      exact ⟨s₂, hrun₂, hqueue₂, hphase₂, hprofile₂⟩
  | some target =>
      rw [htarget] at hphase₂
      have hrows : gpuStep info matchesOf 0 .advance s₂ =
          some ((s₂.setProfile target (s₂.profile target)).setPhase 0 .popping) := by
        unfold gpuStep
        rw [hphase₂, Option.isSome_some, if_pos rfl]
        dsimp only
        rw [htarget]
        dsimp only
        rw [mergeTileMatches_nil]
        rfl
      refine ⟨_, hrun₂.tail ⟨0, hn, _, hrows⟩, ?_, ?_, fun side => ?_⟩
      · exact (GpuState.workQueue_setProfile s₂ target _).trans hqueue₂
      · rw [GpuState.worker_setPhase]
      · rw [← hprofile₂]
        cases target <;> cases side <;> rfl

/-- **Any tile is reached**: the worker skips the tiles before it, when nothing is reported of them. -/
theorem run_reach (hn : 0 < n) (hroom : 0 ≤ info.maxMatchesPerTile) (before : List TilePos) {rest : List TilePos}
    (hnone : ∀ t ∈ before, matchesOf t = ⟨[], []⟩) :
    ∀ s : GpuState K, s.workQueue = before ++ rest → (s.workers 0).phase = .popping →
      ∃ s', Relation.ReflTransGen (GpuStep info matchesOf n) s s' ∧ s'.workQueue = rest ∧
        (s'.workers 0).phase = .popping ∧ ∀ side, s'.profile side = s.profile side := by
  induction before with
  | nil => exact fun s hqueue hphase => ⟨s, .refl, hqueue, hphase, fun side => rfl⟩
  | cons t before ih =>
      intro s hqueue hphase
      obtain ⟨s₁, hrun, hqueue₁, hphase₁, hprofile₁⟩ :=
        run_skip hn hroom hqueue hphase (hnone t List.mem_cons_self)
      obtain ⟨s₂, hrun', hqueue₂, hphase₂, hprofile₂⟩ :=
        ih (fun t' ht' => hnone t' (List.mem_cons_of_mem t ht')) s₁ hqueue₁ hphase₁
      exact ⟨s₂, hrun.trans hrun', hqueue₂, hphase₂, fun side => (hprofile₂ side).trans (hprofile₁ side)⟩

end

/-! ## When a cell is reported twice -/

section
variable {K : Type} [Field K] [LinearOrder K]

/-- There is room for some matches. -/
theorem Join.room_nonneg (J : Join K) : 0 ≤ J.info.maxMatchesPerTile := by
  have hbudget : 0 ≤ profileMemoryBudget / J.numThreads / sizeofSCAMPmatch := by
    apply Int.ediv_nonneg
    · exact Int.ediv_nonneg (by decide) (Int.natCast_nonneg _)
    · decide
  show 0 ≤ if _ < profileMemoryBudget / J.numThreads / sizeofSCAMPmatch then _ else _
  split
  · exact hbudget
  · next h => exact hbudget.trans (Int.not_lt.mp h)

variable {J : Join K} {cfg : KernelConfig} {t : TilePos}

/-- When no pass over a tile reports anything, the tile offers nothing. -/
theorem tileMatches_of_none {corr : ℕ × ℕ → Dbl K} {starts : StartIndices}
    (h : ∀ p ∈ tilePasses J.info t, passMatches cfg J.info corr starts t p = ⟨[], []⟩) :
    tileMatches cfg J.info corr starts t = ⟨[], []⟩ := by
  unfold tileMatches
  congr 1
  · rw [List.flatMap_eq_nil_iff]
    intro p hp
    rw [h p hp]
  · rw [List.flatMap_eq_nil_iff]
    intro p hp
    rw [h p hp]

variable (cfg) in
/-- When the first cell of a tile is the only one with a correlation, nothing is reported of other tiles. -/
theorem tileMatches_of_other {t' : TilePos} (ht : t ∈ getTiles J.info) (ht' : t' ∈ getTiles J.info)
    (hne : t' ≠ t) (x : K) : tileMatches cfg J.info (lonelyCorr (firstCell J.info t) x) noStarts t' = ⟨[], []⟩ := by
  have hfirst : InTile J.info t (firstCell J.info t).1 (firstCell J.info t).2 := by
    obtain ⟨hrows, hcols⟩ := tile_nonempty ht
    exact ⟨⟨Nat.le_refl _, Nat.lt_add_of_pos_right hrows⟩, Nat.le_refl _, Nat.lt_add_of_pos_right hcols⟩
  refine tileMatches_of_none fun p hp => passMatches_of_nan fun z hz => if_neg ?_
  rintro rfl
  exact hne (inTile_unique J (inTile_of_mem_passCells ht' hp hz) hfirst)

variable (J) in
/-- The kernels of a tile are reached with the user's threshold, when nothing is reported of the others. -/
theorem run_to_tile {matchesOf : TilePos → TileMatches K} (ht : t ∈ getTiles J.info)
    (hnone : ∀ t' ∈ getTiles J.info, t' ≠ t → matchesOf t' = ⟨[], []⟩) (memory : ℕ → Buffer K × Buffer K) :
    ∃ s, Relation.ReflTransGen (GpuStep J.info matchesOf J.numThreads) (.init J.info J.args memory) s ∧
      (s.workers 0).phase = .executing t ∧ (s.workers 0).thresholdsA 0 = J.args.distanceThreshold := by
  obtain ⟨before, rest, htiles⟩ := List.append_of_mem ht
  have hfirst : t ∉ before := by
    have hnodup := nodup_getTiles J
    rw [htiles] at hnodup
    intro hmem
    exact (List.nodup_append.mp hnodup).2.2 t hmem t List.mem_cons_self rfl
  have hbefore : ∀ t' ∈ before, matchesOf t' = ⟨[], []⟩ := by
    intro t' ht'
    refine hnone t' ?_ fun heq => hfirst (heq ▸ ht')
    rw [htiles]
    exact List.mem_append_left _ ht'
  obtain ⟨s, hrun, hqueue, hphase, hprofile⟩ := run_reach J.threads_pos J.room_nonneg before hbefore
    (GpuState.init J.info J.args memory) htiles rfl
  obtain ⟨s', hrun', -, hphase', -, hthresholds⟩ := run_take J.info matchesOf J.threads_pos hqueue hphase
  refine ⟨s', hrun.trans hrun', hphase', ?_⟩
  have hprofileA : s.profileA = (GpuState.init J.info J.args memory).profileA := hprofile .a
  rw [hthresholds]
  unfold NeighborState.initProfile GpuState.seenBy
  dsimp only
  rw [memcopy_lt (Nat.succ_pos _), hprofileA]
  rfl

/-- A match of the first column that is above the threshold is reported. -/
theorem reports_first {corr : ℕ × ℕ → Dbl K} {starts : StartIndices} {s : GpuState K} {transpose : Bool} {x : K}
    (hphase : (s.workers 0).phase = .executing t) (hpass : transpose ∈ tilePasses J.info t)
    (habove : (s.workers 0).thresholdsA 0 < x)
    (hm : (⟨x, 0, 0⟩ : SCAMPmatch K) ∈ (passMatches cfg J.info corr starts t transpose).cols) :
    Reports cfg J.info corr starts s 0 t transpose .a (tileDims J.info t).col (tileDims J.info t).row := by
  refine ⟨hphase, hpass, mem_callRows_mergedLists.mpr (Or.inl ⟨rfl, ⟨x, 0, 0⟩, ?_, ?_⟩)⟩
  · exact List.mem_filter.mpr ⟨hm, decide_eq_true habove⟩
  · unfold colsCell
    rw [Nat.zero_add, Nat.zero_add]

variable (cfg) in
/-- **A shared diagonal is reported twice**, when its first cell is a match and nothing else is. -/
theorem reports_twice_of_shared (hbest : addsUp J.args.profileType = false) (ht : t ∈ getTiles J.info)
    (hshared : SharesDiagonal J.info t) {x : K} (hx : J.args.distanceThreshold < x)
    (memory : ℕ → Buffer K × Buffer K) :
    ∃ s, J.GpuRun cfg (lonelyCorr (firstCell J.info t) x) noStarts memory s ∧ ∀ transpose,
      Reports cfg J.info (lonelyCorr (firstCell J.info t) x) noStarts s 0 t transpose .a (tileDims J.info t).col
        (tileDims J.info t).row := by
  obtain ⟨hpasses, hup, hlo⟩ := (sharesDiagonal_iff hbest ht).mp hshared
  obtain ⟨s, hrun, hphase, hthreshold⟩ := run_to_tile J ht
    (fun t' ht' hne => tileMatches_of_other cfg ht ht' hne x) memory
  refine ⟨s, hrun, fun transpose => reports_first hphase ?_ (hthreshold.trans_lt hx) ?_⟩
  · rw [hpasses]
    cases transpose <;> decide
  · cases transpose with
    | false => exact first_mem_passMatches hup.1 hup.2 x
    | true => exact first_mem_passMatches hlo.1 hlo.2 x

/-! ## When the start of a register is reported -/

/-- The pass over the tile is launched. -/
def Launched (info : OpInfo K) (t : TilePos) (transpose : Bool) : Prop :=
  (kernelDims info (tileDims info t) transpose (!info.selfJoin)).exclusionLower +
    (kernelDims info (tileDims info t) transpose (!info.selfJoin)).exclusionUpper <
      (kernelDims info (tileDims info t) transpose (!info.selfJoin)).nX

/-- Registers that start at index `0`, of which only those of the first column of one tile are merged as they
    have started. -/
def lonelyStart (t₀ : TilePos) : StartIndices := fun t transpose side block k i =>
  if t = t₀ ∧ side = (if transpose then .b else .a) ∧ block = 0 ∧ k = 0 ∧ i = 0 then some 0 else none

variable {transpose : Bool}

theorem start_mem_sideMatches {a : KernelDims} {start : ℕ → ℕ → ℕ → Option ℕ} {pos other : ℕ × ℕ → ℕ}
    (hlaunched : a.exclusionLower + a.exclusionUpper < a.nX) {extent : ℕ} (hextent : 0 < extent)
    (hstart : start 0 0 0 = some 0) :
    (⟨-2, 0, 0⟩ : SCAMPmatch K) ∈ sideMatches cfg a (fun _ => .nan) start pos other extent := by
  refine List.mem_flatMap.mpr ⟨0, List.mem_range.mpr ?_, List.mem_flatMap.mpr
    ⟨0, List.mem_range.mpr (Nat.succ_pos _), List.mem_filterMap.mpr ⟨0, List.mem_range.mpr hextent, ?_⟩⟩⟩
  · rw [lt_numBlocks_iff]
    omega
  · -- no cell has a correlation
    cases hbest : ((blockTileCells cfg a 0 0).filter fun z => pos z = 0).foldl (mergeBest fun _ => .nan)
      (none : Option (K × ℕ × ℕ)) with
    | none =>
        rw [hstart]
        rfl
    | some b =>
        obtain ⟨-, hcorr⟩ := (foldl_mergeBest_mem _ none hbest).resolve_left (Option.some_ne_none b).symm
        nomatch hcorr

theorem start_mem_passMatches (hlaunched : Launched J.info t transpose) :
    (⟨-2, 0, 0⟩ : SCAMPmatch K) ∈
      (passMatches cfg J.info (fun _ => .nan) (lonelyStart t) t transpose).cols := by
  unfold passMatches
  dsimp only
  rw [if_neg (Nat.not_le.mpr hlaunched)]
  cases transpose with
  | false => exact start_mem_sideMatches hlaunched (Nat.succ_pos _) (if_pos ⟨rfl, rfl, rfl, rfl, rfl⟩)
  | true => exact start_mem_sideMatches hlaunched (Nat.succ_pos _) (if_pos ⟨rfl, rfl, rfl, rfl, rfl⟩)

variable (cfg) in
/-- Nothing is reported of the other tiles. -/
theorem tileMatches_lonelyStart {t' : TilePos} (hne : t' ≠ t) :
    tileMatches cfg J.info (fun _ => (.nan : Dbl K)) (lonelyStart t) t' = ⟨[], []⟩ := by
  have hstart : ∀ p side, lonelyStart t t' p side = fun _ _ _ => none := fun p side =>
    funext fun block => funext fun k => funext fun i => if_neg fun h => hne h.1
  refine tileMatches_of_none fun p _ => ?_
  have hnothing : passMatches cfg J.info (fun _ => (.nan : Dbl K)) noStarts t' p = ⟨[], []⟩ :=
    passMatches_of_nan fun _ _ => rfl
  refine Eq.trans ?_ hnothing
  unfold passMatches
  rw [hstart, hstart]

variable (cfg) in
/-- **A threshold below `-2`** lets two passes over a tile report the same row, although no cell has a
    correlation. -/
theorem reports_twice_of_low (ht : t ∈ getTiles J.info) (hpasses : tilePasses J.info t = [false, true])
    (hlaunched : ∀ transpose, Launched J.info t transpose) (hlow : J.args.distanceThreshold < -2)
    (memory : ℕ → Buffer K × Buffer K) :
    ∃ s, J.GpuRun cfg (fun _ => .nan) (lonelyStart t) memory s ∧ ∀ transpose,
      Reports cfg J.info (fun _ => .nan) (lonelyStart t) s 0 t transpose .a (tileDims J.info t).col
        (tileDims J.info t).row := by
  obtain ⟨s, hrun, hphase, hthreshold⟩ := run_to_tile J ht
    (fun t' _ hne => tileMatches_lonelyStart cfg hne) memory
  refine ⟨s, hrun, fun transpose => reports_first hphase ?_ (hthreshold.trans_lt hlow)
    (start_mem_passMatches (hlaunched transpose))⟩
  rw [hpasses]
  cases transpose <;> decide

/-- **When every match is reported once.** In all runs of the GPU workers of a join that keeps several
    neighbours with a threshold of at least `-2`, for all correlations and whatever the registers of the kernels
    start with, no two passes report the same row for a column and no queue holds two matches of one row, exactly
    when no tile has its main diagonal compared by both passes. An AB-join that is not aligned has it compared
    twice in every tile, and a self-join in every tile off the diagonal. With a lower threshold two passes over a
    tile may report the same row, although they share no cell. -/
theorem neighbors_reportedOnce_iff [IsStrictOrderedRing K] (J : Join K)
    (hneighbors : J.args.profileType = .approxAllNeighbors) (cfg : KernelConfig) :
    (-2 ≤ J.args.distanceThreshold →
      ((∀ corr starts memory, ReportedOnce J cfg corr starts memory ∧ DistinctQueues J cfg corr starts memory) ↔
        ∀ t ∈ getTiles J.info, ¬SharesDiagonal J.info t)) ∧
      (J.args.distanceThreshold < -2 → ∀ t ∈ getTiles J.info, tilePasses J.info t = [false, true] →
        (∀ transpose, Launched J.info t transpose) →
        ¬∀ corr starts memory, ReportedOnce J cfg corr starts memory) := by
  have hbest : addsUp J.args.profileType = false := by
    rw [hneighbors]
    rfl
  constructor
  · intro hthreshold
    constructor
    · intro h t ht hshared
      obtain ⟨s, hrun, hreports⟩ := reports_twice_of_shared cfg hbest ht hshared
        (lt_add_one J.args.distanceThreshold) fun _ => (fun _ => 0, fun _ => 0)
      exact Bool.false_ne_true ((h _ _ _).1 s s hrun hrun _ _ _ _ _ _ _ _ _ (hreports false) (hreports true)).2
    · intro hno corr starts memory
      exact ⟨reportedOnce_of_not_shared hbest hno hthreshold starts memory,
        distinctQueues_of_not_shared hbest hno hthreshold starts memory⟩
  · intro hlow t ht hpasses hlaunched h
    obtain ⟨s, hrun, hreports⟩ := reports_twice_of_low cfg ht hpasses hlaunched hlow fun _ => (fun _ => 0, fun _ => 0)
    exact Bool.false_ne_true (h _ _ _ s s hrun hrun _ _ _ _ _ _ _ _ _ (hreports false) (hreports true)).2

/-- An aligned AB-join of series of eight and nine windows, which are one tile with two passes. -/
def alignedNeighbors : Join ℚ where
  args := { abJoinArgs .approxAllNeighbors (.replicate 10 (.finite 0)) (.replicate 11 (.finite 0)) 3 with
    isAligned := true }
  numThreads := 1
  threads_pos := Nat.one_pos
  valid := rfl
  columns := rfl
  rows_self := fun h => absurd h (by decide)
  rows_ab := fun _ => rfl
  type_a := rfl
  type_b := fun _ => rfl

/-- Shuffle kernels all of whose registers are merged. -/
theorem neighbors_reportedOnce_iff_aligned :
    ReportedOnce alignedNeighbors bigTileConfig (fun _ => .num 1) (fun _ _ _ _ _ _ => some 0)
        (fun _ => (fun _ => 0, fun _ => 0)) ∧
      DistinctQueues alignedNeighbors bigTileConfig (fun _ => .num 1) (fun _ _ _ _ _ _ => some 0)
        fun _ => (fun _ => 0, fun _ => 0) := by
  refine ((neighbors_reportedOnce_iff alignedNeighbors rfl bigTileConfig).1 (by decide +kernel)).mpr
    (fun t ht hshared => ?_) _ _ _
  have htiles : getTiles alignedNeighbors.info = [(0, 0)] := by decide +kernel
  rw [htiles] at ht
  obtain rfl := List.mem_singleton.mp ht
  rcases hshared (by decide) with ⟨hband, -⟩ | ⟨hband, -⟩
  · exact absurd hband (by decide +kernel)
  · exact absurd hband (by decide +kernel)

/-- An AB-join of two series of one window each. -/
def oneCellNeighbors : Join ℚ where
  args := abJoinArgs .approxAllNeighbors (.replicate 3 (.finite 0)) (.replicate 3 (.finite 0)) 3
  numThreads := 1
  threads_pos := Nat.one_pos
  valid := rfl
  columns := rfl
  rows_self := fun h => absurd h (by decide)
  rows_ab := fun _ => rfl
  type_a := rfl
  type_b := fun _ => rfl

theorem oneCell_tiles : getTiles oneCellNeighbors.info = [(0, 0)] := by decide +kernel

/-- A list with a match, of which all have the same place, but no two, is that match. -/
theorem eq_singleton_of_place {K : Type} {l : List (SCAMPmatch K)} {m : SCAMPmatch K} (hm : m ∈ l)
    (hnodup : (l.map fun m => (m.row, m.col)).Nodup) (hall : ∀ m' ∈ l, (m'.row, m'.col) = (m.row, m.col)) :
    l = [m] := by
  have hsame : ∀ m' ∈ l, m' = m := fun m' hm' => List.inj_on_of_nodup_map hnodup hm' hm (hall m' hm')
  match l, hnodup with
  | [m'], _ => rw [hsame m' List.mem_cons_self]
  | m' :: m'' :: rest, hnodup =>
      have heq := (hsame m' List.mem_cons_self).trans
        (hsame m'' (List.mem_cons_of_mem _ List.mem_cons_self)).symm
      subst heq
      exact absurd List.mem_cons_self (List.nodup_cons.mp hnodup).1

/-- Both passes report the cell. -/
theorem oneCell_passMatches (transpose : Bool) :
    (passMatches bigTileConfig oneCellNeighbors.info (lonelyCorr (0, 0) (1 / 2)) noStarts (0, 0) transpose).cols =
      [⟨1 / 2, 0, 0⟩] := by
  have ht : (0, 0) ∈ getTiles oneCellNeighbors.info := by
    rw [oneCell_tiles]
    exact List.mem_cons_self
  have hpass : transpose ∈ tilePasses oneCellNeighbors.info (0, 0) := by
    cases transpose <;> decide
  refine eq_singleton_of_place ?_ (nodup_passMatches _ _ _ _ _).1 fun m hm => ?_
  · cases transpose with
    | false => exact first_mem_passMatches (by decide) (by decide) (1 / 2)
    | true => exact first_mem_passMatches (by decide) (by decide) (1 / 2)
  · have hin := inTile_of_mem_passCells ht hpass ((cell_mem_passCells _ _ _ _ _).1 m hm)
    obtain ⟨-, hr, hc⟩ := (inTile_iff oneCellNeighbors).mp hin
    have hrows : oneCellNeighbors.info.numRows = 1 := by decide
    have hcols : oneCellNeighbors.info.numCols = 1 := by decide
    unfold colsCell at hr hc
    dsimp only at hr hc
    rw [hrows] at hr
    rw [hcols] at hc
    simp only [Prod.mk.injEq]
    omega

/-- **A match twice.** Both passes over the only tile report its only cell, and the queue of the column holds
    row `0` twice when the join is done. -/
theorem oneCell_held_twice :
    ¬ReportedOnce oneCellNeighbors bigTileConfig (lonelyCorr (0, 0) (1 / 2)) noStarts (fun _ => (fun _ => 0, fun _ => 0)) ∧
      ∃ s, oneCellNeighbors.GpuRun bigTileConfig (lonelyCorr (0, 0) (1 / 2)) noStarts (fun _ => (fun _ => 0, fun _ => 0)) s ∧
        s.workQueue = [] ∧ (s.workers 0).phase = .popping ∧
        (((s.profile .a).matchValue.get 0).entries.map SCAMPmatch.row) = [0, 0] := by
  have ht : (0, 0) ∈ getTiles oneCellNeighbors.info := by
    rw [oneCell_tiles]
    exact List.mem_cons_self
  constructor
  · intro h
    obtain ⟨s, hrun, hreports⟩ := reports_twice_of_shared bigTileConfig rfl ht (fun haligned => absurd haligned (by decide))
      (show oneCellNeighbors.args.distanceThreshold < 1 / 2 by decide +kernel) fun _ => (fun _ => 0, fun _ => 0)
    exact Bool.false_ne_true (h s s hrun hrun _ _ _ _ _ _ _ _ _ (hreports false) (hreports true)).2
  · obtain ⟨s, hrun, hqueue, hphase, hprofile, hthresholds⟩ := run_take oneCellNeighbors.info
      (tileMatches bigTileConfig oneCellNeighbors.info (lonelyCorr (0, 0) (1 / 2)) noStarts) oneCellNeighbors.threads_pos
      (show (GpuState.init oneCellNeighbors.info oneCellNeighbors.args
        fun _ => (fun _ => 0, fun _ => 0)).workQueue = _ from oneCell_tiles) rfl
    -- the passes report the same match, and both copies are above the threshold
    have hreported : (s.seenBy 0).reported oneCellNeighbors.info
        (tileMatches bigTileConfig oneCellNeighbors.info (lonelyCorr (0, 0) (1 / 2)) noStarts (0, 0)) =
          ⟨[⟨1 / 2, 0, 0⟩, ⟨1 / 2, 0, 0⟩], []⟩ := by
      have hcols : (tileMatches bigTileConfig oneCellNeighbors.info (lonelyCorr (0, 0) (1 / 2)) noStarts (0, 0)).cols =
          [⟨1 / 2, 0, 0⟩, ⟨1 / 2, 0, 0⟩] := by
        show (passMatches _ _ _ _ _ false).cols ++ ((passMatches _ _ _ _ _ true).cols ++ []) = _
        rw [oneCell_passMatches, oneCell_passMatches]
        rfl
      have hthreshold : (s.seenBy 0).thresholdsA 0 < (1 / 2 : ℚ) := by
        show (s.workers 0).thresholdsA 0 < _
        rw [hthresholds]
        decide +kernel
      unfold NeighborState.reported writeBack
      rw [hcols]
      simp only [List.filter_cons, hthreshold, decide_true, if_true, List.filter_nil]
      rfl
    -- there is room for both
    have hmerge : gpuStep oneCellNeighbors.info
        (tileMatches bigTileConfig oneCellNeighbors.info (lonelyCorr (0, 0) (1 / 2)) noStarts) 0
        (.merge ⟨[⟨1 / 2, 0, 0⟩, ⟨1 / 2, 0, 0⟩], []⟩) s =
          some ((s.setProfile .a (mergeTileMatches oneCellNeighbors.info s.profileA
            [⟨1 / 2, 0, 0⟩, ⟨1 / 2, 0, 0⟩] 0 0 false)).setPhase 0 .popping) := by
      have hcopied : Copied oneCellNeighbors.info [(⟨1 / 2, 0, 0⟩ : SCAMPmatch ℚ), ⟨1 / 2, 0, 0⟩]
          [⟨1 / 2, 0, 0⟩, ⟨1 / 2, 0, 0⟩] := by decide +kernel
      have hnone : Copied oneCellNeighbors.info ([] : List (SCAMPmatch ℚ)) [] := by decide +kernel
      unfold gpuStep
      rw [hphase]
      dsimp only
      rw [hreported, if_pos ⟨hcopied, hnone⟩]
      rfl
    refine ⟨_, hrun.tail ⟨0, oneCellNeighbors.threads_pos, _, hmerge⟩, hqueue, ?_, ?_⟩
    · rw [GpuState.worker_setPhase]
    · have hprofileA : s.profileA = .alloc 1 0 := hprofile .a
      show (((mergeTileMatches oneCellNeighbors.info s.profileA _ 0 0 false).matchValue.get 0).entries.map
        SCAMPmatch.row) = _
      rw [hprofileA]
      decide +kernel

end

end Scamp
