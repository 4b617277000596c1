import Scamp.Gpu.Workers
import Scamp.Gpu.Correctness.Reports
import Scamp.Lib.Run

/-!
# `Gpu.Correctness.Starts` — matches without a cell

The registers of a kernel start with a correlation of `-2`. A position for which no cell is better is left
with it, and with whatever index is in the register. As long as no threshold is below `-2` it is not reported.
Thresholds only rise, to correlations of reported matches, so that it is enough that the user's threshold is
at least `-2` (`GpuState.Above`): then a run is one in which no register was merged as it has started
(`run_noStarts`).
-/

namespace Scamp

open Lib

section
variable {K : Type} [LinearOrder K] {floor : K}

/-! ## Profiles above a floor -/

/-- The thresholds and the matches of the profile are not below `floor`. -/
structure NeighborProfile.Above (floor : K) (p : NeighborProfile K) : Prop where
  thresholds : ∀ pos, floor ≤ p.thresholds.get pos
  queues : ∀ pos, ∀ m ∈ (p.matchValue.get pos).entries, floor ≤ m.corr

theorem MatchQueue.above_emplace {q : MatchQueue K} (hq : ∀ m ∈ q.entries, floor ≤ m.corr) {x : K}
    (hx : floor ≤ x) (row col : ℕ) : ∀ m ∈ (q.emplace x row col).entries, floor ≤ m.corr := by
  intro m hm
  rcases (List.mem_orderedInsert _).mp hm with rfl | hm
  · exact hx
  · exact hq m hm

/-- A queue into which matches above the floor are merged, and the last correlation that has left it. -/
theorem above_mergeMatches (startRow startCol maxMatches col : ℕ) {ms : List (SCAMPmatch K)}
    (hms : ∀ m ∈ ms, floor ≤ m.corr) :
    ∀ (count : ℕ) (q : MatchQueue K) (oldVal : Option K), (∀ m ∈ q.entries, floor ≤ m.corr) →
      (∀ x ∈ oldVal, floor ≤ x) →
      (∀ m ∈ (mergeMatches startRow startCol maxMatches col ms count q oldVal).1.entries, floor ≤ m.corr) ∧
        ∀ x ∈ (mergeMatches startRow startCol maxMatches col ms count q oldVal).2, floor ≤ x := by
  induction ms with
  | nil => exact fun count q oldVal hq hold => ⟨hq, hold⟩
  | cons m ms ih =>
      intro count q oldVal hq hold
      have hm := hms m List.mem_cons_self
      have hrest := ih fun m' hm' => hms m' (List.mem_cons_of_mem m hm')
      unfold mergeMatches
      split
      · split
        · split
          · next worst hworst =>
              have hworst := hq worst (List.mem_of_mem_head? hworst)
              split
              · exact ⟨hq, hold⟩
              · refine hrest _ _ _ (MatchQueue.above_emplace (fun m' hm' => hq m' ?_) hm _ _) fun x hx => ?_
                · exact List.mem_of_mem_tail hm'
                · obtain rfl := Option.some.inj hx
                  exact hworst
          · exact ⟨hq, hold⟩
        · exact hrest _ _ _ (MatchQueue.above_emplace hq hm _ _) hold
      · exact ⟨hq, hold⟩

namespace NeighborProfile.Above

variable {p : NeighborProfile K} {ms : List (SCAMPmatch K)}

theorem thresholdMergeColumn (hp : p.Above floor) (hms : ∀ m ∈ ms, floor ≤ m.corr) (startCol maxMatches : ℕ) :
    (thresholdMergeColumn startCol maxMatches p ms).Above floor := by
  unfold Scamp.thresholdMergeColumn
  split
  · exact hp
  · next m rest =>
      dsimp only
      split
      · next x hx =>
          split
          · refine ⟨fun pos => ?_, hp.queues⟩
            dsimp only
            rw [Vec.get_set]
            split
            · exact hms x (List.mem_of_getElem? hx)
            · exact hp.thresholds pos
          · exact hp
      · exact hp

theorem matchMergeColumn (hp : p.Above floor) (hms : ∀ m ∈ ms, floor ≤ m.corr)
    (startRow startCol maxMatches : ℕ) : (matchMergeColumn startRow startCol maxMatches p ms).Above floor := by
  unfold Scamp.matchMergeColumn
  split
  · exact hp
  · next m rest =>
      obtain ⟨hqueue, hold⟩ := above_mergeMatches startRow startCol maxMatches m.col hms 0 _ none
        (hp.queues (m.col + startCol)) fun x hx => absurd hx (Option.not_mem_none x)
      constructor
      · intro pos
        dsimp only
        split
        · next x hx =>
            rw [Vec.get_set]
            split
            · exact hold x hx
            · exact hp.thresholds pos
        · exact hp.thresholds pos
      · intro pos
        dsimp only
        rw [Vec.get_set]
        split
        · exact hqueue
        · exact hp.queues pos

/-- **A merge** of matches above the floor. -/
theorem mergeTileMatches (hp : p.Above floor) (hms : ∀ m ∈ ms, floor ≤ m.corr) (info : OpInfo K)
    (position indexStart : ℕ) (overflowed : Bool) :
    (mergeTileMatches info p ms position indexStart overflowed).Above floor := by
  unfold Scamp.mergeTileMatches
  split
  · exact foldGroups_inv (fun _ _ hp hms => hp.thresholdMergeColumn hms _ _) hms hp
  · exact foldGroups_inv (fun _ _ hp hms => hp.matchMergeColumn hms _ _ _) hms hp

end NeighborProfile.Above

/-! ## Matches that differ below the floor -/

variable {info : OpInfo K} {t : TilePos}

/-- Two lists of matches of the first `extent` positions that are the same above the floor. -/
structure SameAbove (floor : K) (extent : ℕ) (ms ms' : List (SCAMPmatch K)) : Prop where
  same : (ms.filter fun m => floor < m.corr) = ms'.filter fun m => floor < m.corr
  lt : ∀ m ∈ ms, m.col < extent
  lt' : ∀ m ∈ ms', m.col < extent

theorem writeBack_filter {thresholds : Buffer K} {ms : List (SCAMPmatch K)}
    (h : ∀ m ∈ ms, floor ≤ thresholds m.col) :
    writeBack thresholds (ms.filter fun m => floor < m.corr) = writeBack thresholds ms := by
  unfold writeBack
  rw [List.filter_filter]
  refine List.filter_congr fun m hm => ?_
  rw [Bool.and_eq_left_iff_imp]
  exact fun habove => decide_eq_true ((h m hm).trans_lt (of_decide_eq_true habove))

/-- Thresholds above the floor report the same of both. -/
theorem SameAbove.writeBack_eq {extent : ℕ} {ms ms' : List (SCAMPmatch K)} (h : SameAbove floor extent ms ms')
    {thresholds : Buffer K} (hthresholds : ∀ j < extent, floor ≤ thresholds j) :
    writeBack thresholds ms = writeBack thresholds ms' := by
  rw [← writeBack_filter fun m hm => hthresholds _ (h.lt m hm), h.same,
    writeBack_filter fun m hm => hthresholds _ (h.lt' m hm)]

theorem SameAbove.flatMap {extent : ℕ} {passes : List Bool} {ms ms' : Bool → List (SCAMPmatch K)}
    (h : ∀ p, SameAbove floor extent (ms p) (ms' p)) : SameAbove floor extent (passes.flatMap ms) (passes.flatMap ms') where
  same := by
    rw [List.filter_flatMap, List.filter_flatMap]
    exact List.flatMap_congr fun p _ => (h p).same
  lt m hm := by
    obtain ⟨p, -, hm⟩ := List.mem_flatMap.mp hm
    exact (h p).lt m hm
  lt' m hm := by
    obtain ⟨p, -, hm⟩ := List.mem_flatMap.mp hm
    exact (h p).lt' m hm

/-- What two families of matches offer the columns, and the rows, of a tile is the same above the floor. -/
def AgreeAbove (info : OpInfo K) (floor : K) (t : TilePos) (ms ms' : TileMatches K) : Prop :=
  SameAbove floor ((tileDims info t).width - info.mpWindow + 1) ms.cols ms'.cols ∧
    SameAbove floor ((tileDims info t).height - info.mpWindow + 1) ms.rows ms'.rows

theorem AgreeAbove.left {ms ms' : TileMatches K} (h : AgreeAbove info floor t ms ms') :
    AgreeAbove info floor t ms ms :=
  ⟨⟨rfl, h.1.lt, h.1.lt⟩, ⟨rfl, h.2.lt, h.2.lt⟩⟩

/-- The thresholds that have been copied for a tile are not below the floor. -/
def ThresholdsAbove (info : OpInfo K) (floor : K) (t : TilePos) (thresholdsA thresholdsB : Buffer K) : Prop :=
  (∀ j < (tileDims info t).width - info.mpWindow + 1, floor ≤ thresholdsA j) ∧
    (info.computingRows = true → ∀ j < (tileDims info t).height - info.mpWindow + 1, floor ≤ thresholdsB j)

theorem reported_congr {s : NeighborState K} (h : ThresholdsAbove info floor t s.thresholdsA s.thresholdsB)
    {ms ms' : TileMatches K} (hms : AgreeAbove info floor t ms ms') : s.reported info ms = s.reported info ms' := by
  unfold NeighborState.reported
  rw [hms.1.writeBack_eq h.1]
  split
  · next hrows => rw [hms.2.writeBack_eq (h.2 hrows)]
  · rfl

/-! ## Workers above a floor -/

/-- No threshold, no match in a queue and no match that is about to be merged is below the floor. -/
structure GpuState.Above (info : OpInfo K) (floor : K) (s : GpuState K) : Prop where
  profiles : ∀ side, (s.profile side).Above floor
  copied : ∀ i t, (s.workers i).phase = .executing t →
    ThresholdsAbove info floor t (s.workers i).thresholdsA (s.workers i).thresholdsB
  rows : ∀ i t overflowed ms, (s.workers i).phase = .mergingRows t overflowed ms → ∀ m ∈ ms, floor ≤ m.corr

namespace GpuState.Above

variable {s s' : GpuState K} {i : ℕ} {matchesOf matchesOf' : TilePos → TileMatches K}

/-- A step that changes one worker, and profiles only to others above the floor. -/
theorem update (h : s.Above info floor) {w : GpuWorker K} (hprofiles : ∀ side, (s'.profile side).Above floor)
    (hworkers : s'.workers = Function.update s.workers i w)
    (hcopied : ∀ t, w.phase = .executing t → ThresholdsAbove info floor t w.thresholdsA w.thresholdsB)
    (hrows : ∀ t overflowed ms, w.phase = .mergingRows t overflowed ms → ∀ m ∈ ms, floor ≤ m.corr) :
    s'.Above info floor := by
  refine ⟨hprofiles, fun j t hphase => ?_, fun j t overflowed ms hphase => ?_⟩
  · rw [hworkers] at hphase ⊢
    by_cases hj : j = i
    · subst hj
      rw [Function.update_self] at hphase ⊢
      exact hcopied t hphase
    · rw [Function.update_of_ne hj] at hphase ⊢
      exact h.copied j t hphase
  · rw [hworkers] at hphase
    by_cases hj : j = i
    · subst hj
      rw [Function.update_self] at hphase
      exact hrows t overflowed ms hphase
    · rw [Function.update_of_ne hj] at hphase
      exact h.rows j t overflowed ms hphase

theorem setProfile (h : ∀ side, (s.profile side).Above floor) {side : Side} {p : NeighborProfile K}
    (hp : p.Above floor) (phase : GpuPhase K) : ∀ side', (((s.setProfile side p).setPhase i phase).profile side').Above
      floor := by
  intro side'
  cases side <;> cases side'
  · exact hp
  · exact h .b
  · exact h .a
  · exact hp

/-- `InitProfile` copies thresholds of a profile. -/
theorem initProfile (h : s.Above info floor) (hnoRows : Tile.mergeTargetB info = none → info.computingRows = false)
    (t : TilePos) :
    ThresholdsAbove info floor t ((s.seenBy i).initProfile info (tileDims info t)).thresholdsA
      ((s.seenBy i).initProfile info (tileDims info t)).thresholdsB := by
  constructor
  · intro j hj
    unfold NeighborState.initProfile
    dsimp only
    rw [memcopy_lt hj]
    exact (h.profiles .a).thresholds _
  · intro hrows j hj
    cases htarget : Tile.mergeTargetB info with
    | none => exact absurd hrows (by rw [hnoRows htarget]; decide)
    | some side =>
        rw [(thresholdsB_of_target htarget (s.seenBy i) (tileDims info t)).2, memcopy_lt hj]
        cases thresholdSource info side with
        | a => exact (h.profiles .a).thresholds _
        | b => exact (h.profiles .b).thresholds _

/-- What is reported is above the floor. -/
theorem reported (h : s.Above info floor) {t : TilePos} (hphase : (s.workers i).phase = .executing t)
    (hms : AgreeAbove info floor t (matchesOf t) (matchesOf t)) :
    (∀ m ∈ ((s.seenBy i).reported info (matchesOf t)).cols, floor ≤ m.corr) ∧
      ∀ m ∈ ((s.seenBy i).reported info (matchesOf t)).rows, floor ≤ m.corr := by
  obtain ⟨hA, hB⟩ := h.copied i t hphase
  constructor
  · intro m hm
    obtain ⟨hmem, habove⟩ := List.mem_filter.mp hm
    exact (hA _ (hms.1.lt m hmem)).trans (of_decide_eq_true habove).le
  · intro m hm
    unfold NeighborState.reported at hm
    dsimp only at hm
    split at hm
    · next hrows =>
        obtain ⟨hmem, habove⟩ := List.mem_filter.mp hm
        exact (hB hrows _ (hms.2.lt m hmem)).trans (of_decide_eq_true habove).le
    · exact absurd hm List.not_mem_nil

omit [LinearOrder K] in
theorem afterAttempt_ne (t : TilePos) (overflowed : Bool) :
    (∀ t', afterAttempt t overflowed ≠ (.executing t' : GpuPhase K)) ∧
      ∀ t' o ms, afterAttempt t overflowed ≠ (.mergingRows t' o ms : GpuPhase K) := by
  unfold afterAttempt
  cases overflowed <;> exact ⟨nofun, nofun⟩

/-- **Every step** leaves the state above the floor. -/
theorem gpuStep (h : s.Above info floor) (hnoRows : Tile.mergeTargetB info = none → info.computingRows = false)
    (hms : ∀ t, AgreeAbove info floor t (matchesOf t) (matchesOf t)) {act : GpuAction K}
    (hstep : gpuStep info matchesOf i act s = some s') : s'.Above info floor := by
  unfold Scamp.gpuStep at hstep
  split at hstep
  · -- a tile is taken
    split at hstep
    · exact absurd hstep (Option.some_ne_none s').symm
    · next t rest hqueue =>
        obtain rfl := Option.some.inj hstep
        exact h.update h.profiles rfl (fun t' hphase => nomatch hphase) fun t' o ms hphase => nomatch hphase
  · -- the thresholds are copied
    next t hphase =>
      obtain rfl := Option.some.inj hstep
      refine h.update h.profiles rfl (fun t' hphase' => ?_) fun t' o ms hphase' => nomatch hphase'
      obtain rfl := GpuPhase.executing.inj hphase'
      exact h.initProfile hnoRows t
  · -- the matches of the columns are merged
    next t ms hphase =>
      dsimp only at hstep
      split at hstep
      · next hcopied =>
          obtain rfl := Option.some.inj hstep
          obtain ⟨hcols, hrows⟩ := h.reported hphase (hms t)
          have hcols' : ∀ m ∈ ms.cols, floor ≤ m.corr := fun m hm => hcols m (hcopied.1.2.1.subset hm)
          have hrows' : ∀ m ∈ ms.rows, floor ≤ m.corr := fun m hm => hrows m (hcopied.2.2.1.subset hm)
          refine h.update (setProfile h.profiles ((h.profiles .a).mergeTileMatches hcols' info _ _ _) _) rfl
            (fun t' hphase' => ?_) fun t' o rows hphase' => ?_
          · dsimp only at hphase'
            split at hphase'
            · nomatch hphase'
            · exact absurd hphase' ((afterAttempt_ne t _).1 t')
          · dsimp only at hphase'
            split at hphase'
            · obtain ⟨-, -, rfl⟩ := GpuPhase.mergingRows.inj hphase'
              exact hrows'
            · exact absurd hphase' ((afterAttempt_ne t _).2 t' o rows)
      · exact absurd hstep (Option.some_ne_none s').symm
  · -- the matches of the rows are merged
    next t overflowed ms hphase =>
      split at hstep
      · next side htarget =>
          obtain rfl := Option.some.inj hstep
          have hrows := h.rows i t overflowed ms hphase
          refine h.update (setProfile h.profiles ((h.profiles side).mergeTileMatches hrows info _ _ _) _)
            (i := i) (w := { s.workers i with phase := afterAttempt t overflowed }) ?_
            (fun t' hphase' => absurd hphase' ((afterAttempt_ne t _).1 t'))
            fun t' o rows hphase' => absurd hphase' ((afterAttempt_ne t _).2 t' o rows)
          unfold GpuState.setPhase GpuState.setWorker
          dsimp only
          rw [GpuState.workers_setProfile]
      · exact absurd hstep (Option.some_ne_none s').symm
  · exact absurd hstep (Option.some_ne_none s').symm

/-- Matches below the floor make no difference to a step. -/
theorem gpuStep_congr (h : s.Above info floor) (hms : ∀ t, AgreeAbove info floor t (matchesOf t) (matchesOf' t))
    (act : GpuAction K) : Scamp.gpuStep info matchesOf i act s = Scamp.gpuStep info matchesOf' i act s := by
  unfold Scamp.gpuStep
  split
  · rfl
  · rfl
  · next t ms hphase => rw [reported_congr (s := s.seenBy i) (h.copied i t hphase) (hms t)]
  · rfl
  · rfl

end GpuState.Above

end

/-! ## What registers start with -/

section
variable {K : Type} [Field K] [LinearOrder K] {cfg : KernelConfig} {info : OpInfo K} {corr : ℕ × ℕ → Dbl K}
  {starts : StartIndices} {t : TilePos} {transpose : Bool}

/-- The start of a register is not above `-2`. -/
theorem filter_entryMatch (other : ℕ × ℕ → ℕ) (i : ℕ) (best : Option (K × ℕ × ℕ)) (start : Option ℕ) :
    ((entryMatch other i best start).filter fun m => -2 < m.corr) =
      (entryMatch other i best none).filter fun m => -2 < m.corr := by
  cases start with
  | none => rfl
  | some index =>
      cases best with
      | none => exact Option.filter_some_neg (by simp)
      | some b =>
          unfold entryMatch
          dsimp only
          split
          · rfl
          · next hbelow =>
              rw [Option.map_some, Option.filter_some_neg (by simp), Option.filter_some_neg (by simpa using hbelow)]

theorem col_lt_of_mem_sideMatches {a : KernelDims} {start : ℕ → ℕ → ℕ → Option ℕ} {pos other : ℕ × ℕ → ℕ}
    {extent : ℕ} {m : SCAMPmatch K} (h : m ∈ sideMatches cfg a corr start pos other extent) : m.col < extent := by
  obtain ⟨block, -, h⟩ := List.mem_flatMap.mp h
  obtain ⟨k, -, h⟩ := List.mem_flatMap.mp h
  obtain ⟨i, hi, h⟩ := List.mem_filterMap.mp h
  have hcol : m.col = i := by
    unfold entryMatch at h
    split at h
    · obtain ⟨b, -, rfl⟩ := Option.map_eq_some_iff.mp h
      rfl
    · split at h
      · split at h <;> (obtain rfl := Option.some.inj h; rfl)
      · obtain rfl := Option.some.inj h
        rfl
  rw [hcol]
  exact List.mem_range.mp hi

/-- **One side of a pass** reports the same above `-2`, whatever its registers start with. -/
theorem sameAbove_sideMatches (a : KernelDims) (start : ℕ → ℕ → ℕ → Option ℕ) (pos other : ℕ × ℕ → ℕ) (extent : ℕ) :
    SameAbove (-2) extent (sideMatches cfg a corr start pos other extent)
      (sideMatches cfg a corr (fun _ _ _ => none) pos other extent) where
  same := by
    unfold sideMatches
    rw [List.filter_flatMap, List.filter_flatMap]
    refine List.flatMap_congr fun block _ => ?_
    rw [List.filter_flatMap, List.filter_flatMap]
    refine List.flatMap_congr fun k _ => ?_
    rw [List.filter_filterMap, List.filter_filterMap]
    exact List.filterMap_congr fun i _ => filter_entryMatch other i _ _
  lt m hm := col_lt_of_mem_sideMatches hm
  lt' m hm := col_lt_of_mem_sideMatches hm

theorem sameAbove_nil (extent : ℕ) : SameAbove (-2 : K) extent [] [] where
  same := rfl
  lt _ hm := absurd hm List.not_mem_nil
  lt' _ hm := absurd hm List.not_mem_nil

variable (cfg info corr starts t transpose) in
theorem agreeAbove_passMatches :
    AgreeAbove info (-2) t (passMatches cfg info corr starts t transpose)
      (passMatches cfg info corr noStarts t transpose) := by
  unfold passMatches
  dsimp only
  split
  · exact ⟨sameAbove_nil _, sameAbove_nil _⟩
  · -- the columns of a transposed pass are the rows of the tile
    cases transpose with
    | false => exact ⟨sameAbove_sideMatches _ _ _ _ _, sameAbove_sideMatches _ _ _ _ _⟩
    | true => exact ⟨sameAbove_sideMatches _ _ _ _ _, sameAbove_sideMatches _ _ _ _ _⟩

variable (cfg info corr starts t) in
theorem agreeAbove_tileMatches :
    AgreeAbove info (-2) t (tileMatches cfg info corr starts t) (tileMatches cfg info corr noStarts t) :=
  ⟨SameAbove.flatMap fun p => (agreeAbove_passMatches cfg info corr starts t p).1,
    SameAbove.flatMap fun p => (agreeAbove_passMatches cfg info corr starts t p).2⟩

omit [Field K] in
theorem above_init (info : OpInfo K) {args : SCAMPArgs K} {floor : K} (h : floor ≤ args.distanceThreshold)
    (memory : ℕ → Buffer K × Buffer K) : (GpuState.init info args memory).Above info floor := by
  refine ⟨fun side => ?_, nofun, nofun⟩
  cases side <;> exact ⟨fun _ => h, fun _ m hm => absurd hm List.not_mem_nil⟩

end

/-! ## Whole runs -/

section
variable {K : Type} [Field K] [LinearOrder K]

/-- The rows of a join are computed only for a profile. -/
theorem Join.noRows (J : Join K) (htarget : Tile.mergeTargetB J.info = none) : J.info.computingRows = false := by
  by_contra hrows
  rw [Bool.not_eq_false] at hrows
  unfold Tile.mergeTargetB at htarget
  rw [hrows] at htarget
  cases hB : J.args.hasB with
  | false =>
      rw [J.selfJoin_of_self hB] at htarget
      split at htarget <;> exact absurd htarget (Option.some_ne_none _)
  | true =>
      have hsame : J.info.keepRowsSeparate = J.info.computingRows := by
        show (if _ then false else J.args.keepRowsSeparate) = if _ then false else J.args.computingRows
        rw [J.rows_ab hB]
      rw [hsame, hrows] at htarget
      exact absurd htarget (Option.some_ne_none _)

/-- A run of the GPU workers of a join brings it to the state. -/
def Join.GpuRun (J : Join K) (cfg : KernelConfig) (corr : ℕ × ℕ → Dbl K) (starts : StartIndices)
    (memory : ℕ → Buffer K × Buffer K) (s : GpuState K) : Prop :=
  Relation.ReflTransGen (GpuStep J.info (tileMatches cfg J.info corr starts) J.numThreads)
    (.init J.info J.args memory) s

section
variable {J : Join K} {cfg : KernelConfig} {corr : ℕ × ℕ → Dbl K} {starts : StartIndices}
  {memory : ℕ → Buffer K × Buffer K} {s s' : GpuState K} (hthreshold : -2 ≤ J.args.distanceThreshold)

theorem above_gpuStep (hs : s.Above J.info (-2))
    (hstep : GpuStep J.info (tileMatches cfg J.info corr starts) J.numThreads s s') : s'.Above J.info (-2) := by
  obtain ⟨i, -, act, hstep⟩ := hstep
  exact hs.gpuStep J.noRows (fun t => (agreeAbove_tileMatches cfg J.info corr starts t).left) hstep

include hthreshold

theorem above_gpuRun (hrun : J.GpuRun cfg corr starts memory s) : s.Above J.info (-2) :=
  run_inv (I := GpuState.Above J.info (-2)) (fun _ _ => above_gpuStep) hrun (above_init J.info hthreshold memory)

/-- **What registers start with makes no difference** to a run with a threshold of at least `-2`. -/
theorem run_noStarts (hrun : J.GpuRun cfg corr starts memory s) : J.GpuRun cfg corr noStarts memory s := by
  refine run_congr (I := GpuState.Above J.info (-2)) (fun _ _ => above_gpuStep) (fun s s' hs hstep => ?_) hrun
    (above_init J.info hthreshold memory)
  obtain ⟨i, hi, act, hstep⟩ := hstep
  rw [hs.gpuStep_congr fun t => agreeAbove_tileMatches cfg J.info corr starts t] at hstep
  exact ⟨i, hi, act, hstep⟩

end

end

end Scamp
