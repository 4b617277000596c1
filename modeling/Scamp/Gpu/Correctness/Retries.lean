import Scamp.Gpu.Correctness.Uniqueness
import Scamp.Lib.Capped

/-!
# `Gpu.Correctness.Retries` — when running a tile again ends

A tile that has reported too many matches is run again after `threshold_merge`, which raises the threshold of
a column with more than `max_matches_per_column + 1` stored matches. The matches that are stored fill the room
there is for them. Whether they must include so many of one column is a question of how many of the reported
matches are left when each column keeps at most `max_matches_per_column + 1` (`FewEnough`): if those fill the
room too, an execution may raise nothing, and the next one reports the same. The room is
`max_matches_per_tile` as the `int` that `MergeProfile` makes of it: where that is negative, nothing can be
copied and no threshold is raised.

The workers share the thresholds, so that one may already have been raised by another worker when a tile's
matches are merged. `raises_iff` is the result for one execution in any state, `retries_end` for whole runs.
-/

namespace Scamp

open Lib

section
variable {K : Type} [LinearOrder K]

/-! ## What a raise does -/

section
variable {maxMatches : ℕ}

theorem raisedThreshold_of_few {t : K} {ms : List (SCAMPmatch K)} (h : ms.length ≤ maxMatches + 1) :
    raisedThreshold maxMatches t ms = t := by
  unfold raisedThreshold
  split
  · exact if_neg fun hraise => by omega
  · rfl

/-- The threshold of a column with enough matches is raised to one of them. -/
theorem exists_le_raisedThreshold (t : K) {ms : List (SCAMPmatch K)} (h : maxMatches + 1 < ms.length) :
    ∃ m ∈ ms, m.corr ≤ raisedThreshold maxMatches t ms := by
  have hlt : maxMatches < ms.length := by omega
  refine ⟨ms[maxMatches], List.getElem_mem hlt, ?_⟩
  unfold raisedThreshold
  rw [List.getElem?_eq_getElem hlt]
  dsimp only
  split
  · exact le_refl _
  · next hraise =>
      rw [not_and, not_lt] at hraise
      exact hraise (by omega)

theorem raisedThreshold_mono {t t' : K} (ms : List (SCAMPmatch K)) (h : t ≤ t') :
    raisedThreshold maxMatches t ms ≤ raisedThreshold maxMatches t' ms := by
  by_cases hraised : raisedThreshold maxMatches t' ms = t'
  · rw [hraised]
    unfold raisedThreshold at hraised ⊢
    split
    · next x hx =>
        rw [hx] at hraised
        dsimp only at hraised
        split
        · next hif =>
            split at hraised
            · exact hraised.le
            · next hnot => exact not_lt.mp fun hlt => hnot ⟨hif.1, hlt⟩
        · exact h
    · exact h
  · exact (raisedThreshold_of_le h hraised).2.le

theorem threshold_thresholdMerge {ms : List (SCAMPmatch K)} (hsorted : SortedMatches ms) (start : ℕ)
    (p : NeighborProfile K) (pos : ℕ) :
    (thresholdMerge start maxMatches p ms).thresholds.get pos =
      raisedThreshold maxMatches (p.thresholds.get pos) (columnMatches start pos ms) :=
  congrArg Prod.snd (slot_thresholdMerge start maxMatches hsorted p pos)

omit [LinearOrder K] in
theorem length_columnMatches (start j : ℕ) (ms : List (SCAMPmatch K)) :
    (columnMatches start (start + j) ms).length = keyCount SCAMPmatch.col ms j := by
  unfold columnMatches keyCount
  rw [List.countP_eq_length_filter]
  congr 2
  funext m
  exact decide_eq_decide.mpr ⟨fun h => by omega, fun h => by omega⟩

/-- Of more than `max_matches + 1` matches of a column one is reached. -/
theorem exists_reached {ms : List (SCAMPmatch K)} (hsorted : SortedMatches ms) (start : ℕ) (p : NeighborProfile K)
    {j : ℕ} (hmany : maxMatches + 1 < (columnMatches start (start + j) ms).length) :
    ∃ m ∈ ms, m.corr ≤ (thresholdMerge start maxMatches p ms).thresholds.get (start + m.col) := by
  obtain ⟨m, hm, hle⟩ := exists_le_raisedThreshold (p.thresholds.get (start + j)) hmany
  obtain ⟨hmem, hcol⟩ := List.mem_filter.mp hm
  have hj : start + m.col = start + j := by
    have := of_decide_eq_true hcol
    omega
  refine ⟨m, hmem, ?_⟩
  rw [threshold_thresholdMerge hsorted, hj]
  exact hle

end

/-! ## Progress of one side -/

/-- The thresholds have reached one of the reported matches, which is not reported by them. -/
def Reaches (thresholds : Buffer K) (reported : List (SCAMPmatch K)) : Prop :=
  ∃ m ∈ reported, m.corr ≤ thresholds m.col

/-- The room for matches of a side that has too many: `max_matches_per_tile` as an `int`. -/
def storedRoom (info : OpInfo K) : ℤ := narrowInt info.maxMatchesPerTile

/-- There is more room than the reported matches take when each of the `extent` columns keeps at most
    `max_matches_per_column + 1` of them. -/
def FewEnough (info : OpInfo K) (extent : ℕ) (reported : List (SCAMPmatch K)) : Prop :=
  ((∑ j ∈ Finset.range extent, min (keyCount SCAMPmatch.col reported j) (info.queueSize + 1) : ℕ) : ℤ) <
    storedRoom info

omit [LinearOrder K] in
/-- With room for `max_matches_per_column + 1` matches of each column and one more, there are always few enough. -/
theorem fewEnough_of_room {info : OpInfo K} {extent : ℕ}
    (hroom : (((info.queueSize + 1) * extent : ℕ) : ℤ) < storedRoom info) (reported : List (SCAMPmatch K)) :
    FewEnough info extent reported :=
  (Int.ofNat_le.mpr (sum_min_le _ extent (info.queueSize + 1))).trans_lt hroom

omit [LinearOrder K] in
/-- Of too many matches those are copied that there is room for. -/
theorem copyDim_of_many {reported : List (SCAMPmatch K)} (hdim : mergeDim info reported < 0) :
    copyDim info reported = storedRoom info := if_pos hdim

/-- **One side of an attempt.** Whatever is stored of too many reported matches, raising the thresholds with it
    reaches one of them, exactly when one is reached before or there are few enough. -/
theorem reached_thresholdMerge_iff {info : OpInfo K} {extent start : ℕ} {reported : List (SCAMPmatch K)}
    (hlt : ∀ m ∈ reported, m.col < extent) (hstored : 0 ≤ storedRoom info)
    (hdim : mergeDim info reported < 0) (p : NeighborProfile K) :
    (∀ ms, Copied info reported ms →
        Reaches (fun j => (thresholdMerge start info.queueSize p ms).thresholds.get (start + j)) reported) ↔
      Reaches (fun j => p.thresholds.get (start + j)) reported ∨ FewEnough info extent reported := by
  constructor
  · intro h
    by_contra hnot
    obtain ⟨hunreached, hfew⟩ := not_or.mp hnot
    -- the room can be filled without more than `max_matches_per_column + 1` of a column
    have hfill : (storedRoom info).toNat ≤
        ∑ j ∈ Finset.range extent, min (keyCount SCAMPmatch.col reported j) (info.queueSize + 1) :=
      Int.toNat_le.mpr (not_lt.mp hfew)
    obtain ⟨ms, hsub, hlength, hcap⟩ := (exists_capped_iff hlt).mpr hfill
    obtain ⟨stored, hcopied, hperm⟩ : ∃ stored, Copied info reported stored ∧ stored.Perm ms :=
      exists_copied hsub (by rw [copyDim_of_many hdim, hlength, Int.toNat_of_nonneg hstored])
    obtain ⟨m, hm, hle⟩ := h stored hcopied
    refine hunreached ⟨m, hm, ?_⟩
    dsimp only at hle ⊢
    rwa [threshold_thresholdMerge hcopied.1, raisedThreshold_of_few] at hle
    rw [length_columnMatches]
    exact (hperm.countP_eq _).trans_le (hcap m.col)
  · rintro (⟨m, hm, hle⟩ | hfew) ms hcopied
    · refine ⟨m, hm, hle.trans ?_⟩
      dsimp only
      rw [threshold_thresholdMerge hcopied.1]
      exact le_raisedThreshold ..
    · have hlong : (ms.length : ℤ) = storedRoom info := hcopied.2.2.trans (copyDim_of_many hdim)
      obtain ⟨j, hj⟩ := exists_lt_keyCount hlt hcopied.2.1 (Int.ofNat_lt.mp (lt_of_lt_of_eq hfew hlong.symm))
      rw [← length_columnMatches start] at hj
      obtain ⟨m, hm, hle⟩ := exists_reached hcopied.1 start p hj
      exact ⟨m, hcopied.2.1.subset hm, hle⟩

/-- **Reached is strictly raised**, when the matches have been reported by the thresholds that are raised. -/
theorem reached_iff_raised {info : OpInfo K} {extent start : ℕ} {reported ms : List (SCAMPmatch K)}
    (hlt : ∀ m ∈ reported, m.col < extent) (hcopied : Copied info reported ms) {p : NeighborProfile K}
    (habove : ∀ m ∈ reported, p.thresholds.get (start + m.col) < m.corr) :
    Reaches (fun j => (thresholdMerge start info.queueSize p ms).thresholds.get (start + j)) reported ↔
      ∃ j < extent, p.thresholds.get (start + j) <
        (thresholdMerge start info.queueSize p ms).thresholds.get (start + j) := by
  constructor
  · rintro ⟨m, hm, hle⟩
    exact ⟨m.col, hlt m hm, (habove m hm).trans_le hle⟩
  · rintro ⟨j, -, hraised⟩
    rw [threshold_thresholdMerge hcopied.1] at hraised
    -- a threshold is raised to a match of its column
    have hmany : info.queueSize + 1 < (columnMatches start (start + j) ms).length := by
      by_contra hfew
      rw [raisedThreshold_of_few (Nat.le_of_not_lt hfew)] at hraised
      exact absurd hraised (lt_irrefl _)
    obtain ⟨m, hm, hle⟩ := exists_reached hcopied.1 start p hmany
    exact ⟨m, hcopied.2.1.subset hm, hle⟩

/-! ## An execution of a tile -/

section
variable {info : OpInfo K} (candidates : Candidates info)

/-- What the kernels that worker `i` has started on tile `t` report. -/
def GpuState.reportedBy (s : GpuState K) (i : ℕ) (t : TilePos) : TileMatches K :=
  (s.seenBy i).reported info (candidates.ofTile t)

variable (info) in
/-- The thresholds by which the columns of a tile will be reported next. -/
def GpuState.columnThresholds (s : GpuState K) (t : TilePos) : Buffer K :=
  fun j => (s.profile .a).thresholds.get ((tileDims info t).col + j)

variable (info) in
/-- The thresholds by which the rows of a tile will be reported next: in a self-join those of the columns. -/
def GpuState.rowThresholds (s : GpuState K) (t : TilePos) : Buffer K :=
  fun j => (s.profile (thresholdSource info .b)).thresholds.get ((tileDims info t).row + j)

/-- **Progress of an execution.** When there are too many matches of the columns, or of the rows, some of them
    can be stored, and their merge leaves a threshold of that side that has reached one of them, whichever are
    stored. -/
def Raises (s : GpuState K) (i : ℕ) : Prop :=
  match (s.workers i).phase with
  | .executing t =>
      overflows info (s.reportedBy candidates i t) = true →
        (∃ ms s', gpuStep info candidates.ofTile i (.merge ms) s = some s') ∧
          (mergeDim info (s.reportedBy candidates i t).cols < 0 → ∀ ms s',
            gpuStep info candidates.ofTile i (.merge ms) s = some s' →
            Reaches (s'.columnThresholds info t) (s.reportedBy candidates i t).cols)
  | .mergingRows t true _ =>
      mergeDim info (s.reportedBy candidates i t).rows < 0 →
        (∃ ms, Copied info (s.reportedBy candidates i t).rows ms) ∧
          ∀ ms s', Copied info (s.reportedBy candidates i t).rows ms →
            gpuStep info candidates.ofTile i .advance (s.setPhase i (.mergingRows t true ms)) = some s' →
            Reaches (s'.rowThresholds info t) (s.reportedBy candidates i t).rows
  | _ => True

/-- **The condition for it.** The room is not negative as an `int`. Of too many matches of a side, one is no
    longer above its threshold, which another worker has raised; or they are few enough, and for rows their
    thresholds are those that are raised. -/
def RoomToRaise (s : GpuState K) (i : ℕ) : Prop :=
  match (s.workers i).phase with
  | .executing t =>
      overflows info (s.reportedBy candidates i t) = true → 0 ≤ storedRoom info ∧
        (mergeDim info (s.reportedBy candidates i t).cols < 0 →
          Reaches (s.columnThresholds info t) (s.reportedBy candidates i t).cols ∨
            FewEnough info ((tileDims info t).width - info.mpWindow + 1) (s.reportedBy candidates i t).cols)
  | .mergingRows t true _ =>
      mergeDim info (s.reportedBy candidates i t).rows < 0 → 0 ≤ storedRoom info ∧
        ∀ side, Tile.mergeTargetB info = some side →
          Reaches (s.rowThresholds info t) (s.reportedBy candidates i t).rows ∨
            OwnThresholds info side ∧
              FewEnough info ((tileDims info t).height - info.mpWindow + 1) (s.reportedBy candidates i t).rows
  | _ => True

section
variable {candidates} {s s' : GpuState K} {i : ℕ} {t : TilePos}

variable (candidates s i t) in
theorem cols_reportedBy :
    (s.reportedBy candidates i t).cols = writeBack (s.workers i).thresholdsA (candidates.ofTile t).cols := rfl

theorem cols_lt_of_reportedBy : ∀ m ∈ (s.reportedBy candidates i t).cols,
    m.col < (tileDims info t).width - info.mpWindow + 1 := by
  intro m hm
  exact candidates.cols_lt t m (List.mem_of_mem_filter hm)

theorem rows_lt_of_reportedBy : ∀ m ∈ (s.reportedBy candidates i t).rows,
    m.col < (tileDims info t).height - info.mpWindow + 1 := by
  intro m hm
  unfold GpuState.reportedBy NeighborState.reported at hm
  dsimp only at hm
  split at hm
  · exact candidates.rows_lt t m (List.mem_of_mem_filter hm)
  · exact absurd hm List.not_mem_nil

omit [LinearOrder K] in
/-- An execution with too many matches overflows. -/
theorem overflows_of_cols {reported : TileMatches K} (h : mergeDim info reported.cols < 0) :
    overflows info reported = true := by
  unfold overflows
  rw [decide_eq_true h, Bool.true_or]

variable (info candidates s i t) in
/-- The merge of the columns of an execution that overflows. -/
def mergedCols (ms : TileMatches K) : GpuState K :=
  (s.setProfile .a (thresholdMerge (tileDims info t).col info.queueSize s.profileA ms.cols)).setPhase i
    (if (Tile.mergeTargetB info).isSome then .mergingRows t true ms.rows else .seeding t)

theorem gpuStep_overflow (hphase : (s.workers i).phase = .executing t)
    (hover : overflows info (s.reportedBy candidates i t) = true) {ms : TileMatches K}
    (hcols : Copied info (s.reportedBy candidates i t).cols ms.cols)
    (hrows : Copied info (s.reportedBy candidates i t).rows ms.rows) :
    gpuStep info candidates.ofTile i (.merge ms) s = some (mergedCols info s i t ms) := by
  unfold gpuStep
  rw [hphase]
  dsimp only
  unfold GpuState.reportedBy at hover hcols hrows
  rw [if_pos ⟨hcols, hrows⟩, hover]
  rfl

omit [LinearOrder K] in
/-- The rows of a tile are reported by the thresholds of the source of the profile they are merged into. -/
theorem thresholdSource_of_target {side : Side} (htarget : Tile.mergeTargetB info = some side) :
    thresholdSource info .b = thresholdSource info side := by
  unfold Tile.mergeTargetB at htarget
  unfold thresholdSource
  split at htarget
  · obtain rfl := Option.some.inj htarget
    rfl
  · split at htarget
    · next hself => rw [if_pos (Bool.and_eq_true_iff.mp hself).1, if_pos (Bool.and_eq_true_iff.mp hself).1]
    · exact absurd htarget (Option.some_ne_none side).symm

variable (info s i t) in
/-- The merge of the rows of an execution that has overflowed. -/
def mergedRows (side : Side) (ms : List (SCAMPmatch K)) : GpuState K :=
  (s.setProfile side (thresholdMerge (tileDims info t).row info.queueSize (s.profile side) ms)).setPhase i
    (.seeding t)

theorem gpuStep_overflowRows {side : Side} (htarget : Tile.mergeTargetB info = some side)
    {ms : List (SCAMPmatch K)} (hphase : (s.workers i).phase = .mergingRows t true ms) :
    gpuStep info candidates.ofTile i .advance s = some (mergedRows info s i t side ms) := by
  unfold gpuStep
  rw [hphase]
  dsimp only
  rw [htarget]
  rfl

/-- The thresholds of the rows are raised when they are those of the profile. -/
theorem rowThresholds_mergedRows {side : Side} (htarget : Tile.mergeTargetB info = some side)
    (hown : OwnThresholds info side) (ms : List (SCAMPmatch K)) :
    (mergedRows info s i t side ms).rowThresholds info t = fun j =>
      (thresholdMerge (tileDims info t).row info.queueSize (s.profile side) ms).thresholds.get
        ((tileDims info t).row + j) := by
  unfold GpuState.rowThresholds
  rw [thresholdSource_of_target htarget, hown]
  cases side <;> rfl

/-- Otherwise they stay. -/
theorem rowThresholds_mergedRows_of_foreign {side : Side} (hforeign : ¬OwnThresholds info side)
    (ms : List (SCAMPmatch K)) :
    (mergedRows info s i t side ms).rowThresholds info t = s.rowThresholds info t := by
  unfold GpuState.rowThresholds
  cases side with
  | a => exact absurd (ite_self _) hforeign
  | b =>
      cases hsource : thresholdSource info .b with
      | a => rfl
      | b => exact absurd hsource hforeign

variable (info s i t) in
/-- It does not matter where the worker was before. -/
theorem rowThresholds_mergedRows_setPhase (phase : GpuPhase K) (side : Side) (ms : List (SCAMPmatch K)) :
    (mergedRows info (s.setPhase i phase) i t side ms).rowThresholds info t =
      (mergedRows info s i t side ms).rowThresholds info t := by
  unfold GpuState.rowThresholds
  cases side <;> cases thresholdSource info .b <;> rfl

/-- The merge of too many rows, whichever of them are stored. -/
theorem reached_mergedRows_iff {side : Side} (htarget : Tile.mergeTargetB info = some side)
    (hroom : 0 ≤ info.maxMatchesPerTile) (hstored : 0 ≤ storedRoom info)
    (hdim : mergeDim info (s.reportedBy candidates i t).rows < 0) :
    (∀ ms, Copied info (s.reportedBy candidates i t).rows ms →
        Reaches ((mergedRows info s i t side ms).rowThresholds info t) (s.reportedBy candidates i t).rows) ↔
      Reaches (s.rowThresholds info t) (s.reportedBy candidates i t).rows ∨
        OwnThresholds info side ∧
          FewEnough info ((tileDims info t).height - info.mpWindow + 1) (s.reportedBy candidates i t).rows := by
  by_cases hown : OwnThresholds info side
  · have hthresholds : s.rowThresholds info t =
        fun j => (s.profile side).thresholds.get ((tileDims info t).row + j) := by
      unfold GpuState.rowThresholds
      rw [thresholdSource_of_target htarget, hown]
    simp only [rowThresholds_mergedRows htarget hown, hthresholds, hown, true_and]
    exact reached_thresholdMerge_iff rows_lt_of_reportedBy hstored hdim (s.profile side)
  · simp only [rowThresholds_mergedRows_of_foreign hown, hown, false_and, or_false]
    obtain ⟨stored, hcopied⟩ :=
      copied_nonempty (s.reportedBy candidates i t).rows hroom (copyDim_nonneg hstored)
    exact ⟨fun h => h stored hcopied, fun h ms _ => h⟩

omit [LinearOrder K] in
theorem lt_zero_of_overflows {reported : TileMatches K} (h : overflows info reported = true) :
    mergeDim info reported.cols < 0 ∨ mergeDim info reported.rows < 0 := by
  unfold overflows at h
  rwa [Bool.or_eq_true_iff, decide_eq_true_eq, decide_eq_true_eq] at h

/-- What can be merged has been copied. -/
theorem copied_of_gpuStep (hphase : (s.workers i).phase = .executing t) {ms : TileMatches K}
    (h : gpuStep info candidates.ofTile i (.merge ms) s = some s') :
    Copied info (s.reportedBy candidates i t).cols ms.cols ∧ Copied info (s.reportedBy candidates i t).rows ms.rows := by
  by_contra hcopied
  unfold gpuStep at h
  rw [hphase] at h
  dsimp only at h
  unfold GpuState.reportedBy at hcopied
  rw [if_neg hcopied] at h
  exact absurd h (Option.some_ne_none s').symm

/-- **When an execution can be merged.** One that overflows can where the room is not negative as an `int`. -/
theorem exists_merge_iff (hroom : 0 ≤ info.maxMatchesPerTile) (hphase : (s.workers i).phase = .executing t)
    (hover : overflows info (s.reportedBy candidates i t) = true) :
    (∃ ms s', gpuStep info candidates.ofTile i (.merge ms) s = some s') ↔ 0 ≤ storedRoom info := by
  constructor
  · rintro ⟨ms, s', hstep⟩
    obtain ⟨hcols, hrows⟩ := copied_of_gpuStep hphase hstep
    rcases lt_zero_of_overflows hover with hdim | hdim
    · exact (copied_nonneg hcols).trans_eq (copyDim_of_many hdim)
    · exact (copied_nonneg hrows).trans_eq (copyDim_of_many hdim)
  · intro hstored
    obtain ⟨cols, hcols⟩ :=
      copied_nonempty (s.reportedBy candidates i t).cols hroom (copyDim_nonneg hstored)
    obtain ⟨rows, hrows⟩ :=
      copied_nonempty (s.reportedBy candidates i t).rows hroom (copyDim_nonneg hstored)
    exact ⟨⟨cols, rows⟩, _, gpuStep_overflow hphase hover hcols hrows⟩

/-- **When an execution makes progress**, in any state. -/
theorem raises_iff (hroom : 0 ≤ info.maxMatchesPerTile) : Raises candidates s i ↔ RoomToRaise candidates s i := by
  unfold Raises RoomToRaise
  cases hphase : (s.workers i).phase with
  | popping => exact Iff.rfl
  | seeding t => exact Iff.rfl
  | executing t =>
      refine forall_congr' fun hover => ?_
      rw [exists_merge_iff hroom hphase hover]
      refine and_congr_right fun hstored => forall_congr' fun hdim => ?_
      refine Iff.trans ?_ (reached_thresholdMerge_iff cols_lt_of_reportedBy hstored hdim s.profileA)
      constructor
      · intro h ms hcopied
        obtain ⟨rows, hrows⟩ :=
          copied_nonempty (s.reportedBy candidates i t).rows hroom (copyDim_nonneg hstored)
        exact h ⟨ms, rows⟩ _ (gpuStep_overflow hphase hover hcopied hrows)
      · intro h ms s' hstep
        obtain ⟨hcols, hrows⟩ := copied_of_gpuStep hphase hstep
        rw [gpuStep_overflow hphase hover hcols hrows] at hstep
        obtain rfl := Option.some.inj hstep
        exact h ms.cols hcols
  | mergingRows t overflowed ms =>
      cases overflowed with
      | false => exact Iff.rfl
      | true =>
          refine forall_congr' fun hdim => ?_
          have hcan : (∃ ms, Copied info (s.reportedBy candidates i t).rows ms) ↔ 0 ≤ storedRoom info := by
            rw [← copyDim_of_many hdim]
            exact ⟨fun ⟨_, hcopied⟩ => copied_nonneg hcopied, copied_nonempty _ hroom⟩
          rw [hcan]
          refine and_congr_right fun hstored => ?_
          have hphase' : ∀ stored, ((s.setPhase i (.mergingRows t true stored)).workers i).phase =
              .mergingRows t true stored := fun stored => congrArg GpuWorker.phase (GpuState.worker_setPhase ..)
          constructor
          · intro h side htarget
            refine (reached_mergedRows_iff htarget hroom hstored hdim).mp fun stored hcopied => ?_
            rw [← rowThresholds_mergedRows_setPhase info s i t (.mergingRows t true stored)]
            exact h stored _ hcopied (gpuStep_overflowRows htarget (hphase' stored))
          · intro h stored s' hcopied hstep
            cases htarget : Tile.mergeTargetB info with
            | none =>
                unfold gpuStep at hstep
                rw [hphase', htarget] at hstep
                exact absurd hstep (Option.some_ne_none s').symm
            | some side =>
                rw [gpuStep_overflowRows htarget (hphase' stored)] at hstep
                obtain rfl := Option.some.inj hstep
                rw [rowThresholds_mergedRows_setPhase]
                exact (reached_mergedRows_iff htarget hroom hstored hdim).mpr (h side htarget) stored hcopied

end

end

/-! ## What is left to do -/

section
variable {info : OpInfo K}

variable (info) in
/-- The matches of a tile that are above the thresholds. -/
def aboveCount (ms : TileMatches K) (thresholdsA thresholdsB : Buffer K) : ℕ :=
  (writeBack thresholdsA ms.cols).length +
    if info.computingRows then (writeBack thresholdsB ms.rows).length else 0

theorem length_writeBack_le {thresholds thresholds' : Buffer K} {ms : List (SCAMPmatch K)}
    (hle : ∀ m ∈ ms, thresholds m.col ≤ thresholds' m.col) :
    (writeBack thresholds' ms).length ≤ (writeBack thresholds ms).length := by
  unfold writeBack
  rw [← List.countP_eq_length_filter, ← List.countP_eq_length_filter]
  refine List.countP_mono_left fun m hm hlt => ?_
  exact decide_eq_true ((hle m hm).trans_lt (of_decide_eq_true hlt))

/-- A match that the higher thresholds have reached is reported by the lower ones only. -/
theorem length_writeBack_lt {thresholds thresholds' : Buffer K} {ms : List (SCAMPmatch K)}
    (hle : ∀ m ∈ ms, thresholds m.col ≤ thresholds' m.col) {m : SCAMPmatch K} (hm : m ∈ ms)
    (habove : thresholds m.col < m.corr) (hreached : m.corr ≤ thresholds' m.col) :
    (writeBack thresholds' ms).length < (writeBack thresholds ms).length := by
  obtain ⟨before, after, rfl⟩ := List.append_of_mem hm
  have hbefore := length_writeBack_le fun x hx => hle x (List.mem_append_left _ hx)
  have hafter := length_writeBack_le fun x hx => hle x (List.mem_append_right _ (List.mem_cons_of_mem m hx))
  unfold writeBack at hbefore hafter ⊢
  rw [List.filter_append, List.filter_append, List.filter_cons_of_neg (by simpa using hreached),
    List.filter_cons_of_pos (by simpa using habove), List.length_append, List.length_append, List.length_cons]
  omega

section
variable {ms : TileMatches K} {read thA thA' thB thB' : Buffer K}
  (hA : ∀ m ∈ ms.cols, thA m.col ≤ thA' m.col)
  (hB : info.computingRows = true → ∀ m ∈ ms.rows, thB m.col ≤ thB' m.col)

include hB in
theorem length_rows_le : (if info.computingRows then (writeBack thB' ms.rows).length else 0) ≤
    if info.computingRows then (writeBack thB ms.rows).length else 0 := by
  split
  · next hcomputed => exact length_writeBack_le (hB hcomputed)
  · exact Nat.le_refl 0

include hA hB

theorem aboveCount_le : aboveCount info ms thA' thB' ≤ aboveCount info ms thA thB :=
  Nat.add_le_add (length_writeBack_le hA) (length_rows_le hB)

/-- A reported match of the columns that is reached no longer remains. -/
theorem aboveCount_lt_of_cols (hread : ∀ j, thA j ≤ read j) (h : Reaches thA' (writeBack read ms.cols)) :
    aboveCount info ms thA' thB' < aboveCount info ms thA thB := by
  obtain ⟨m, hm, hreached⟩ := h
  obtain ⟨hmem, habove⟩ := List.mem_filter.mp hm
  apply Nat.add_lt_add_of_lt_of_le _ (length_rows_le hB)
  exact length_writeBack_lt hA hmem ((hread m.col).trans_lt (of_decide_eq_true habove)) hreached

/-- A reported match of the rows that is reached no longer remains. -/
theorem aboveCount_lt_of_rows (hcomputed : info.computingRows = true) (hread : ∀ j, thB j ≤ read j)
    (h : Reaches thB' (writeBack read ms.rows)) : aboveCount info ms thA' thB' < aboveCount info ms thA thB := by
  obtain ⟨m, hm, hreached⟩ := h
  obtain ⟨hmem, habove⟩ := List.mem_filter.mp hm
  unfold aboveCount
  rw [if_pos hcomputed, if_pos hcomputed]
  apply Nat.add_lt_add_of_le_of_lt (length_writeBack_le hA)
  exact length_writeBack_lt (hB hcomputed) hmem ((hread m.col).trans_lt (of_decide_eq_true habove)) hreached

end

/-! ## Steps that raise thresholds -/

/-- No threshold is lower in the second state. -/
def Raised (s s' : GpuState K) : Prop :=
  ∀ side pos, (s.profile side).thresholds.get pos ≤ (s'.profile side).thresholds.get pos

variable {s s' : GpuState K} {i : ℕ} {t : TilePos}

variable (info) in
theorem Raised.columnThresholds (h : Raised s s') (t : TilePos) (j : ℕ) :
    s.columnThresholds info t j ≤ s'.columnThresholds info t j := h _ _

variable (info) in
theorem Raised.rowThresholds (h : Raised s s') (t : TilePos) (j : ℕ) :
    s.rowThresholds info t j ≤ s'.rowThresholds info t j := h _ _

theorem Raised.trans {s'' : GpuState K} (h : Raised s s') (h' : Raised s' s'') : Raised s s'' :=
  fun side pos => (h side pos).trans (h' side pos)

theorem thresholds_setProfile (side side' : Side) (p : NeighborProfile K) (phase : GpuPhase K) :
    (((s.setProfile side p).setPhase i phase).profile side').thresholds =
      if side' = side then p.thresholds else (s.profile side').thresholds := by
  cases side <;> cases side' <;> rfl

/-- A raise of one profile. -/
theorem raised_thresholdMerge {ms : List (SCAMPmatch K)} (hsorted : SortedMatches ms) (start maxMatches : ℕ)
    (side : Side) (phase : GpuPhase K) :
    Raised s ((s.setProfile side (thresholdMerge start maxMatches (s.profile side) ms)).setPhase i phase) := by
  intro side' pos
  rw [thresholds_setProfile]
  split
  · next hside =>
      rw [hside, threshold_thresholdMerge hsorted]
      exact le_raisedThreshold ..
  · exact le_refl _

variable (info i t) in
/-- Higher thresholds are raised to higher ones. -/
theorem Raised.mergedRows (h : Raised s s') {ms : List (SCAMPmatch K)} (hsorted : SortedMatches ms) (side : Side) :
    Raised (mergedRows info s i t side ms) (mergedRows info s' i t side ms) := by
  intro side' pos
  unfold Scamp.mergedRows
  rw [thresholds_setProfile, thresholds_setProfile]
  split
  · rw [threshold_thresholdMerge hsorted, threshold_thresholdMerge hsorted]
    exact raisedThreshold_mono _ (h side pos)
  · exact h side' pos

/-! ## The measure -/

/-- How far a worker is from having merged its tile. Running the tile again is no step back. -/
def GpuPhase.stage : GpuPhase K → ℕ
  | .popping => 0
  | .seeding _ => 2
  | .executing _ => 2
  | .mergingRows _ overflowed _ => if overflowed then 2 else 1

/-- The steps that merge a tile for good, those ahead of the first `n` workers. -/
def GpuState.unmerged (s : GpuState K) (n : ℕ) : ℕ :=
  3 * s.workQueue.length + ∑ j ∈ Finset.range n, (s.workers j).phase.stage

variable (candidates : Candidates info)

/-- The executions of its tile that are ahead of worker `i` as long as no tile is merged: each time fewer
    matches remain. While a tile is executing, those count that are reported now or would be reported next. -/
def GpuState.todo (s : GpuState K) (i : ℕ) : ℕ :=
  match (s.workers i).phase with
  | .popping => 0
  | .seeding t =>
      3 * aboveCount info (candidates.ofTile t) (s.columnThresholds info t) (s.rowThresholds info t) + 2
  | .executing t =>
      3 * aboveCount info (candidates.ofTile t)
        (fun j => min ((s.workers i).thresholdsA j) (s.columnThresholds info t j))
        (fun j => min ((s.workers i).thresholdsB j) (s.rowThresholds info t j)) + 1
  | .mergingRows t true ms =>
      match Tile.mergeTargetB info with
      | some side =>
          3 * aboveCount info (candidates.ofTile t) ((mergedRows info s i t side ms).columnThresholds info t)
            ((mergedRows info s i t side ms).rowThresholds info t) + 3
      | none => 0
  | .mergingRows _ false _ => 0

variable {candidates}

/-- Raising thresholds makes no work for another worker. -/
theorem todo_le_of_raised {j : ℕ} (hraised : Raised s s') (hworker : s'.workers j = s.workers j)
    (hsorted : (s.workers j).phase.Sorted) : s'.todo candidates j ≤ s.todo candidates j := by
  unfold GpuState.todo
  rw [hworker]
  cases hphase : (s.workers j).phase with
  | popping => exact Nat.le_refl 0
  | seeding t =>
      refine Nat.add_le_add_right (Nat.mul_le_mul_left 3 (aboveCount_le (fun m _ => ?_) fun _ m _ => ?_)) 2
      · exact hraised.columnThresholds info t m.col
      · exact hraised.rowThresholds info t m.col
  | executing t =>
      refine Nat.add_le_add_right (Nat.mul_le_mul_left 3 (aboveCount_le (fun m _ => ?_) fun _ m _ => ?_)) 1
      · exact min_le_min_left _ (hraised.columnThresholds info t m.col)
      · exact min_le_min_left _ (hraised.rowThresholds info t m.col)
  | mergingRows t overflowed ms =>
      rw [hphase] at hsorted
      cases overflowed with
      | false => exact Nat.le_refl 0
      | true =>
          dsimp only
          split
          · next side _ =>
              have hmerged := hraised.mergedRows info j t hsorted side
              refine Nat.add_le_add_right (Nat.mul_le_mul_left 3 (aboveCount_le (fun m _ => ?_) fun _ m _ => ?_)) 3
              · exact hmerged.columnThresholds info t m.col
              · exact hmerged.rowThresholds info t m.col
          · exact Nat.le_refl 0

/-- **What a step does.** -/
theorem gpuStep_cases {act : GpuAction K} (h : gpuStep info candidates.ofTile i act s = some s') :
    (∃ t rest, (s.workers i).phase = .popping ∧ s.workQueue = t :: rest ∧
      s' = { s with workQueue := rest }.setPhase i (.seeding t)) ∨
    (∃ t, (s.workers i).phase = .seeding t ∧
      s' = s.setWorker i ⟨.executing t, ((s.seenBy i).initProfile info (tileDims info t)).thresholdsA,
        ((s.seenBy i).initProfile info (tileDims info t)).thresholdsB⟩) ∨
    (∃ t ms, (s.workers i).phase = .executing t ∧ Copied info (s.reportedBy candidates i t).cols ms.cols ∧
      Copied info (s.reportedBy candidates i t).rows ms.rows ∧
      ((overflows info (s.reportedBy candidates i t) = true ∧ s' = mergedCols info s i t ms) ∨
        ∃ p, s' = (s.setProfile .a p).setPhase i
          (if (Tile.mergeTargetB info).isSome then .mergingRows t false ms.rows else .popping))) ∨
    ∃ t overflowed ms side, (s.workers i).phase = .mergingRows t overflowed ms ∧
      Tile.mergeTargetB info = some side ∧
      ((overflowed = true ∧ s' = mergedRows info s i t side ms) ∨
        (overflowed = false ∧ ∃ p, s' = (s.setProfile side p).setPhase i .popping)) := by
  unfold gpuStep at h
  split at h
  · next hphase =>
      split at h
      · exact absurd h (Option.some_ne_none s').symm
      · next t rest hqueue => exact Or.inl ⟨t, rest, hphase, hqueue, (Option.some.inj h).symm⟩
  · next t hphase => exact Or.inr (Or.inl ⟨t, hphase, (Option.some.inj h).symm⟩)
  · next t ms hphase =>
      dsimp only at h
      split at h
      · next hcopied =>
          refine Or.inr (Or.inr (Or.inl ⟨t, ms, hphase, hcopied.1, hcopied.2, ?_⟩))
          have hs' := (Option.some.inj h).symm
          cases hover : overflows info ((s.seenBy i).reported info (candidates.ofTile t)) with
          | true =>
              rw [hover] at hs'
              exact Or.inl ⟨hover, hs'⟩
          | false =>
              rw [hover] at hs'
              exact Or.inr ⟨_, hs'⟩
      · exact absurd h (Option.some_ne_none s').symm
  · next t overflowed ms hphase =>
      split at h
      · next side htarget =>
          refine Or.inr (Or.inr (Or.inr ⟨t, overflowed, ms, side, hphase, htarget, ?_⟩))
          have hs' := (Option.some.inj h).symm
          cases overflowed with
          | true => exact Or.inl ⟨rfl, hs'⟩
          | false => exact Or.inr ⟨rfl, _, hs'⟩
      · exact absurd h (Option.some_ne_none s').symm
  · exact absurd h (Option.some_ne_none s').symm

theorem workers_setProfile_setPhase (side : Side) (p : NeighborProfile K) (phase : GpuPhase K) :
    ((s.setProfile side p).setPhase i phase).workers =
      Function.update s.workers i { s.workers i with phase := phase } := by
  cases side <;> rfl

theorem reportedBy_mergedCols (ms : TileMatches K) :
    (mergedCols info s i t ms).reportedBy candidates i t = s.reportedBy candidates i t := by
  unfold GpuState.reportedBy GpuState.seenBy mergedCols
  rw [workers_setProfile_setPhase, Function.update_self]
  rfl

/-- Only rows that are computed are too many. -/
theorem computingRows_of_mergeDim (hroom : 0 ≤ info.maxMatchesPerTile)
    (h : mergeDim info (s.reportedBy candidates i t).rows < 0) : info.computingRows = true := by
  by_contra hnot
  have hnone : (s.reportedBy candidates i t).rows = [] := if_neg hnot
  rw [hnone] at h
  unfold mergeDim profileDim at h
  rw [if_neg (not_lt.mpr (show (([] : List (SCAMPmatch K)).length : ℤ) ≤ _ from hroom))] at h
  exact absurd h (by decide : ¬narrowInt 0 < 0)

/-- Once the thresholds have risen to a column match of an execution, fewer matches remain than it reported or
    the next one would. -/
theorem aboveCount_lt_of_reached_cols (hraised : Raised s s')
    (hreached : Reaches (s'.columnThresholds info t) (s.reportedBy candidates i t).cols) :
    aboveCount info (candidates.ofTile t) (s'.columnThresholds info t) (s'.rowThresholds info t) <
      aboveCount info (candidates.ofTile t)
        (fun j => min ((s.workers i).thresholdsA j) (s.columnThresholds info t j))
        (fun j => min ((s.workers i).thresholdsB j) (s.rowThresholds info t j)) :=
  aboveCount_lt_of_cols (fun m _ => (min_le_right _ _).trans (hraised.columnThresholds info t m.col))
    (fun _ m _ => (min_le_right _ _).trans (hraised.rowThresholds info t m.col)) (fun _ => min_le_left _ _) hreached

theorem aboveCount_lt_of_reached_rows (hraised : Raised s s') (hcomputed : info.computingRows = true)
    (hreached : Reaches (s'.rowThresholds info t) (s.reportedBy candidates i t).rows) :
    aboveCount info (candidates.ofTile t) (s'.columnThresholds info t) (s'.rowThresholds info t) <
      aboveCount info (candidates.ofTile t)
        (fun j => min ((s.workers i).thresholdsA j) (s.columnThresholds info t j))
        (fun j => min ((s.workers i).thresholdsB j) (s.rowThresholds info t j)) := by
  have hreported : (s.reportedBy candidates i t).rows =
      writeBack (s.workers i).thresholdsB (candidates.ofTile t).rows := if_pos hcomputed
  rw [hreported] at hreached
  exact aboveCount_lt_of_rows (fun m _ => (min_le_right _ _).trans (hraised.columnThresholds info t m.col))
    (fun _ m _ => (min_le_right _ _).trans (hraised.rowThresholds info t m.col)) hcomputed
    (fun _ => min_le_left _ _) hreached

/-- Where there is room, the merge of too many columns reaches one of them. -/
theorem mergedCols_reaches (hroom : 0 ≤ info.maxMatchesPerTile) (hphase : (s.workers i).phase = .executing t)
    (hdim : mergeDim info (s.reportedBy candidates i t).cols < 0) {ms : TileMatches K}
    (hcols : Copied info (s.reportedBy candidates i t).cols ms.cols)
    (hrows : Copied info (s.reportedBy candidates i t).rows ms.rows) (hcan : RoomToRaise candidates s i) :
    Reaches ((mergedCols info s i t ms).columnThresholds info t) (s.reportedBy candidates i t).cols := by
  have hraises := (raises_iff hroom).mpr hcan
  unfold Raises at hraises
  rw [hphase] at hraises
  exact (hraises (overflows_of_cols hdim)).2 hdim ms _ (gpuStep_overflow hphase (overflows_of_cols hdim) hcols hrows)

/-- Where there is room, the merge of too many rows reaches one of them. -/
theorem mergedRows_reaches (hroom : 0 ≤ info.maxMatchesPerTile) {side : Side}
    (htarget : Tile.mergeTargetB info = some side) {stored : List (SCAMPmatch K)}
    (hphase : (s.workers i).phase = .mergingRows t true stored)
    (hdim : mergeDim info (s.reportedBy candidates i t).rows < 0)
    (hrows : Copied info (s.reportedBy candidates i t).rows stored) (hcan : RoomToRaise candidates s i) :
    Reaches ((mergedRows info s i t side stored).rowThresholds info t) (s.reportedBy candidates i t).rows := by
  unfold RoomToRaise at hcan
  rw [hphase] at hcan
  obtain ⟨hstored, hcan⟩ := hcan hdim
  exact (reached_mergedRows_iff htarget hroom hstored hdim).mpr (hcan side htarget) stored hrows

/-- **An attempt that overflows** leaves less to do, when the merges of both its sides make progress. -/
theorem todo_mergedCols_lt (hroom : 0 ≤ info.maxMatchesPerTile)
    (hnoRows : Tile.mergeTargetB info = none → info.computingRows = false)
    (hphase : (s.workers i).phase = .executing t) (hover : overflows info (s.reportedBy candidates i t) = true)
    {ms : TileMatches K} (hcols : Copied info (s.reportedBy candidates i t).cols ms.cols)
    (hrows : Copied info (s.reportedBy candidates i t).rows ms.rows) (hcan : RoomToRaise candidates s i)
    (hcan' : RoomToRaise candidates (mergedCols info s i t ms) i) :
    (mergedCols info s i t ms).todo candidates i < s.todo candidates i := by
  have hraised : Raised s (mergedCols info s i t ms) := raised_thresholdMerge hcols.1 _ _ .a _
  have htodo : s.todo candidates i = 3 * aboveCount info (candidates.ofTile t)
      (fun j => min ((s.workers i).thresholdsA j) (s.columnThresholds info t j))
      (fun j => min ((s.workers i).thresholdsB j) (s.rowThresholds info t j)) + 1 := by
    unfold GpuState.todo
    rw [hphase]
  have hworker : ((mergedCols info s i t ms).workers i).phase =
      if (Tile.mergeTargetB info).isSome then .mergingRows t true ms.rows else .seeding t := by
    unfold mergedCols
    rw [workers_setProfile_setPhase, Function.update_self]
  rw [htodo]
  cases htarget : Tile.mergeTargetB info with
  | none =>
      -- without rows it is the columns that are too many, and the tile is run again
      rw [htarget] at hworker
      have hdim : mergeDim info (s.reportedBy candidates i t).cols < 0 := by
        rcases lt_zero_of_overflows hover with hdim | hdim
        · exact hdim
        · exact absurd (computingRows_of_mergeDim hroom hdim) (by rw [hnoRows htarget]; decide)
      have hless := aboveCount_lt_of_reached_cols hraised (mergedCols_reaches hroom hphase hdim hcols hrows hcan)
      unfold GpuState.todo
      rw [hworker]
      simp only [Option.isSome_none, Bool.false_eq_true, if_false]
      omega
  | some side =>
      -- the rows are merged next: what remains is counted after that merge
      rw [htarget, Option.isSome_some, if_pos rfl] at hworker
      have hraised' : Raised (mergedCols info s i t ms)
          (mergedRows info (mergedCols info s i t ms) i t side ms.rows) := raised_thresholdMerge hrows.1 _ _ side _
      have hless : aboveCount info (candidates.ofTile t)
          ((mergedRows info (mergedCols info s i t ms) i t side ms.rows).columnThresholds info t)
          ((mergedRows info (mergedCols info s i t ms) i t side ms.rows).rowThresholds info t) <
          aboveCount info (candidates.ofTile t)
            (fun j => min ((s.workers i).thresholdsA j) (s.columnThresholds info t j))
            (fun j => min ((s.workers i).thresholdsB j) (s.rowThresholds info t j)) := by
        rcases lt_zero_of_overflows hover with hdim | hdim
        · obtain ⟨m, hm, hreached⟩ := mergedCols_reaches hroom hphase hdim hcols hrows hcan
          exact aboveCount_lt_of_reached_cols (hraised.trans hraised')
            ⟨m, hm, hreached.trans (hraised'.columnThresholds info t m.col)⟩
        · rw [← reportedBy_mergedCols ms] at hrows
          have hreached := mergedRows_reaches hroom htarget hworker
            (by rw [reportedBy_mergedCols]; exact hdim) hrows hcan'
          rw [reportedBy_mergedCols] at hreached
          exact aboveCount_lt_of_reached_rows (hraised.trans hraised') (computingRows_of_mergeDim hroom hdim) hreached
      unfold GpuState.todo
      rw [hworker]
      dsimp only
      rw [htarget]
      dsimp only
      omega

/-- A worker that has just copied the thresholds of its tile reports by those that were next. -/
theorem todo_seeded_lt (hnoRows : Tile.mergeTargetB info = none → info.computingRows = false)
    (hphase : (s.workers i).phase = .seeding t) :
    (s.setWorker i ⟨.executing t, ((s.seenBy i).initProfile info (tileDims info t)).thresholdsA,
      ((s.seenBy i).initProfile info (tileDims info t)).thresholdsB⟩).todo candidates i < s.todo candidates i := by
  generalize hs' : s.setWorker i ⟨.executing t, _, _⟩ = s'
  have hworker : s'.workers i = ⟨.executing t, ((s.seenBy i).initProfile info (tileDims info t)).thresholdsA,
      ((s.seenBy i).initProfile info (tileDims info t)).thresholdsB⟩ := by
    rw [← hs', GpuState.worker_setWorker]
  have hprofile : ∀ side, s'.profile side = s.profile side := by
    intro side
    rw [← hs']
    cases side <;> rfl
  -- what was copied is what would be read next
  have hA : ∀ m ∈ (candidates.ofTile t).cols, s.columnThresholds info t m.col ≤
      min ((s'.workers i).thresholdsA m.col) (s'.columnThresholds info t m.col) := by
    intro m hm
    have hnext : s'.columnThresholds info t m.col = s.columnThresholds info t m.col := by
      unfold GpuState.columnThresholds
      rw [hprofile]
    have hread : (s'.workers i).thresholdsA m.col = s.columnThresholds info t m.col := by
      rw [hworker]
      exact memcopy_lt (candidates.cols_lt t m hm)
    rw [hnext, hread, min_self]
  have hB : info.computingRows = true → ∀ m ∈ (candidates.ofTile t).rows, s.rowThresholds info t m.col ≤
      min ((s'.workers i).thresholdsB m.col) (s'.rowThresholds info t m.col) := by
    intro hcomputed m hm
    have hnext : s'.rowThresholds info t m.col = s.rowThresholds info t m.col := by
      unfold GpuState.rowThresholds
      rw [hprofile]
    cases htarget : Tile.mergeTargetB info with
    | none => exact absurd hcomputed (by rw [hnoRows htarget]; decide)
    | some side =>
        have hread : (s'.workers i).thresholdsB m.col = s.rowThresholds info t m.col := by
          rw [hworker]
          dsimp only
          rw [(thresholdsB_of_target htarget (s.seenBy i) (tileDims info t)).2,
            memcopy_lt (candidates.rows_lt t m hm), ← thresholdSource_of_target htarget]
          unfold GpuState.rowThresholds
          cases thresholdSource info .b <;> rfl
        rw [hnext, hread, min_self]
  have hle : aboveCount info (candidates.ofTile t)
      (fun j => min ((s'.workers i).thresholdsA j) (s'.columnThresholds info t j))
      (fun j => min ((s'.workers i).thresholdsB j) (s'.rowThresholds info t j)) ≤
        aboveCount info (candidates.ofTile t) (s.columnThresholds info t) (s.rowThresholds info t) :=
    aboveCount_le hA hB
  unfold GpuState.todo
  rw [hphase, hworker]
  rw [hworker] at hle
  dsimp only at hle ⊢
  omega

/-- A worker whose rows have been merged is left with what it had foreseen. -/
theorem todo_mergedRows_lt {side : Side} (htarget : Tile.mergeTargetB info = some side) {ms : List (SCAMPmatch K)}
    (hphase : (s.workers i).phase = .mergingRows t true ms) :
    (mergedRows info s i t side ms).todo candidates i < s.todo candidates i := by
  have hworker : ((mergedRows info s i t side ms).workers i).phase = .seeding t := by
    unfold mergedRows
    rw [workers_setProfile_setPhase, Function.update_self]
  unfold GpuState.todo
  rw [hphase, hworker]
  dsimp only
  rw [htarget]
  exact Nat.lt_succ_self _

/-- When thresholds are raised and the worker that does it is left with less, all workers are. -/
theorem sum_todo_lt {n : ℕ} (hi : i < n) {w : GpuWorker K} (hworkers : s'.workers = Function.update s.workers i w)
    (hraised : Raised s s') (hsorted : ∀ j, (s.workers j).phase.Sorted)
    (hless : s'.todo candidates i < s.todo candidates i) :
    ∑ j ∈ Finset.range n, s'.todo candidates j < ∑ j ∈ Finset.range n, s.todo candidates j := by
  refine Finset.sum_lt_sum (fun j _ => ?_) ⟨i, Finset.mem_range.mpr hi, hless⟩
  by_cases hj : j = i
  · rw [hj]
    exact hless.le
  · exact todo_le_of_raised hraised (by rw [hworkers, Function.update_of_ne hj]) (hsorted j)

section
variable {n : ℕ} {w : GpuWorker K}

/-- When one worker changes, what is not merged changes by its stage. -/
theorem unmerged_update (hi : i < n) (hworkers : s'.workers = Function.update s.workers i w) :
    s'.unmerged n + (s.workers i).phase.stage + 3 * s.workQueue.length =
      s.unmerged n + w.phase.stage + 3 * s'.workQueue.length := by
  have hsum := sum_update hi (fun w => w.phase.stage) s.workers w
  unfold GpuState.unmerged
  rw [hworkers]
  omega

theorem unmerged_eq (hi : i < n) (hworkers : s'.workers = Function.update s.workers i w)
    (hqueue : s'.workQueue = s.workQueue) (hstage : w.phase.stage = (s.workers i).phase.stage) :
    s'.unmerged n = s.unmerged n := by
  have := unmerged_update hi hworkers
  rw [hqueue, hstage] at this
  omega

theorem unmerged_lt (hi : i < n) (hworkers : s'.workers = Function.update s.workers i w)
    (hqueue : s'.workQueue = s.workQueue) (hstage : w.phase.stage < (s.workers i).phase.stage) :
    s'.unmerged n < s.unmerged n := by
  have := unmerged_update hi hworkers
  rw [hqueue] at this
  omega

end

/-- **Every step gets on**: it merges a tile for good, or leaves less to do. -/
theorem step_smaller {n : ℕ} (hroom : 0 ≤ info.maxMatchesPerTile)
    (hnoRows : Tile.mergeTargetB info = none → info.computingRows = false)
    (hsorted : ∀ j, (s.workers j).phase.Sorted) (hcan : ∀ j < n, RoomToRaise candidates s j)
    (hcan' : ∀ j < n, RoomToRaise candidates s' j) (h : GpuStep info candidates.ofTile n s s') :
    s'.unmerged n < s.unmerged n ∨ s'.unmerged n = s.unmerged n ∧
      ∑ j ∈ Finset.range n, s'.todo candidates j < ∑ j ∈ Finset.range n, s.todo candidates j := by
  obtain ⟨i, hi, act, h⟩ := h
  rcases gpuStep_cases h with ⟨t, rest, hphase, hqueue, rfl⟩ | ⟨t, hphase, rfl⟩ |
    ⟨t, ms, hphase, hcols, hrows, ⟨hover, rfl⟩ | ⟨p, rfl⟩⟩ |
    ⟨t, overflowed, ms, side, hphase, htarget, ⟨rfl, rfl⟩ | ⟨rfl, p, rfl⟩⟩
  · -- a tile is taken
    have hworkers : ({ s with workQueue := rest }.setPhase i (.seeding t)).workers =
        Function.update s.workers i { s.workers i with phase := .seeding t } := rfl
    have hunmerged := unmerged_update hi hworkers
    rw [hphase, hqueue, List.length_cons] at hunmerged
    simp only [GpuPhase.stage] at hunmerged
    have hrest : ({ s with workQueue := rest }.setPhase i (.seeding t)).workQueue.length = rest.length := rfl
    omega
  · -- thresholds are copied
    refine Or.inr ⟨unmerged_eq hi rfl rfl (by rw [hphase]; rfl), ?_⟩
    refine sum_todo_lt hi rfl (fun side pos => ?_) hsorted (todo_seeded_lt hnoRows hphase)
    cases side <;> exact le_refl _
  · -- the columns of an execution that overflows are merged
    refine Or.inr ⟨unmerged_eq hi (workers_setProfile_setPhase ..) (GpuState.workQueue_setProfile ..) ?_, ?_⟩
    · rw [hphase]
      cases (Tile.mergeTargetB info).isSome <;> rfl
    · exact sum_todo_lt hi (workers_setProfile_setPhase ..) (raised_thresholdMerge hcols.1 _ _ .a _) hsorted
        (todo_mergedCols_lt hroom hnoRows hphase hover hcols hrows (hcan i hi) (hcan' i hi))
  · -- there is room for all matches
    refine Or.inl (unmerged_lt hi (workers_setProfile_setPhase ..) (GpuState.workQueue_setProfile ..) ?_)
    rw [hphase]
    cases (Tile.mergeTargetB info).isSome with
    | false => exact Nat.zero_lt_two
    | true => exact Nat.one_lt_two
  · -- the rows of an execution that has overflowed are merged
    have hms : SortedMatches ms := by
      have hworker := hsorted i
      rw [hphase] at hworker
      exact hworker
    refine Or.inr ⟨unmerged_eq hi (workers_setProfile_setPhase ..) (GpuState.workQueue_setProfile ..) ?_, ?_⟩
    · rw [hphase]
      rfl
    · exact sum_todo_lt hi (workers_setProfile_setPhase ..) (raised_thresholdMerge hms _ _ side _) hsorted
        (todo_mergedRows_lt htarget hphase)
  · -- a tile is done
    refine Or.inl (unmerged_lt hi (workers_setProfile_setPhase ..) (GpuState.workQueue_setProfile ..) ?_)
    rw [hphase]
    exact Nat.zero_lt_one

end

end

/-! ## Whole runs -/

section
variable {K : Type} [Field K] [LinearOrder K]

/-- **When running tiles again ends.** In every state, the merge of an execution that overflows raises a
    threshold of each side that has too many matches to one of these, whichever of them are stored, exactly
    when it meets the condition. A run of the workers in which all executions meet it is not endless. -/
theorem retries_end (J : Join K) (candidates : Candidates J.info) (memory : ℕ → Buffer K × Buffer K) :
    (∀ s i, Raises candidates s i ↔ RoomToRaise candidates s i) ∧
      ¬∃ run : ℕ → GpuState K, run 0 = .init J.info J.args memory ∧
        (∀ k, GpuStep J.info candidates.ofTile J.numThreads (run k) (run (k + 1))) ∧
        ∀ k, ∀ i < J.numThreads, RoomToRaise candidates (run k) i := by
  refine ⟨fun s i => raises_iff J.room_nonneg, ?_⟩
  rintro ⟨run, hstart, hsteps, hcan⟩
  have hinv : ∀ k, GpuInv J.info candidates.ofTile J.numThreads (run k) := by
    intro k
    induction k with
    | zero =>
        rw [hstart]
        exact gpuInv_init ..
    | succ k ih => exact ih.step (hsteps k)
  obtain ⟨k, hk⟩ := WellFounded.not_rel_apply_succ (r := (· < ·)) fun k =>
    toLex ((run k).unmerged J.numThreads, ∑ j ∈ Finset.range J.numThreads, (run k).todo candidates j)
  exact hk (Prod.Lex.toLex_lt_toLex.mpr
    (step_smaller J.room_nonneg J.noRows (hinv k).sorted (hcan k) (hcan (k + 1)) (hsteps k)))

/-- With room for `max_matches_per_column + 1` matches of each column of a tile and one more, all executions
    meet the condition, unless the rows of a self-join are kept separate. -/
theorem roomToRaise_of_budget (J : Join K) (candidates : Candidates J.info)
    (hroom : (((J.info.queueSize + 1) * J.info.maxTileWidth : ℕ) : ℤ) < storedRoom J.info)
    (hjoin : J.info.selfJoin = true → Tile.mergeTargetB J.info ≠ some .b) (s : GpuState K) (i : ℕ) :
    RoomToRaise candidates s i := by
  have hside : ∀ extent reported, extent ≤ J.info.maxTileWidth → FewEnough J.info extent reported := by
    intro extent reported hextent
    exact fewEnough_of_room ((Int.ofNat_le.mpr (Nat.mul_le_mul_left _ hextent)).trans_lt hroom) reported
  have hwidth : ∀ length, min J.info.maxTileTsSize length - J.info.mpWindow + 1 ≤ J.info.maxTileWidth := by
    intro length
    rw [J.tileWidth_eq]
    have := Nat.min_le_left J.info.maxTileTsSize length
    omega
  have hown : ∀ side, Tile.mergeTargetB J.info = some side → OwnThresholds J.info side := by
    intro side htarget
    unfold OwnThresholds thresholdSource
    split
    · next hself =>
        cases side with
        | a => rfl
        | b => exact absurd htarget (hjoin hself)
    · rfl
  have hstored : 0 ≤ storedRoom J.info := (Int.natCast_nonneg _).trans hroom.le
  unfold RoomToRaise
  split
  · exact fun _ => ⟨hstored, fun _ => Or.inr (hside _ _ (hwidth _))⟩
  · exact fun _ => ⟨hstored, fun side htarget => Or.inr ⟨hown side htarget, hside _ _ (hwidth _)⟩⟩
  · trivial

/-! ## An execution without progress -/

/-- `k` matches for each of `n` columns, all equally good. -/
def evenMatches (k n : ℕ) : List (SCAMPmatch ℚ) :=
  (List.range n).flatMap fun j => (List.range k).map fun r => ⟨1, r, j⟩

theorem mem_evenMatches {k n : ℕ} {m : SCAMPmatch ℚ} (h : m ∈ evenMatches k n) : m.corr = 1 ∧ m.col < n := by
  obtain ⟨j, hj, hm⟩ := List.mem_flatMap.mp h
  obtain ⟨r, -, rfl⟩ := List.mem_map.mp hm
  exact ⟨rfl, List.mem_range.mp hj⟩

theorem length_evenMatches (k n : ℕ) : (evenMatches k n).length = n * k := by
  simp [evenMatches]

theorem keyCount_evenMatches (k n j : ℕ) :
    keyCount SCAMPmatch.col (evenMatches k n) j = if j < n then k else 0 := by
  induction n with
  | zero => rfl
  | succ n ih =>
      have hsplit : evenMatches k (n + 1) =
          evenMatches k n ++ (List.range k).map fun r => (⟨1, r, n⟩ : SCAMPmatch ℚ) := by
        unfold evenMatches
        rw [List.range_succ, List.flatMap_append, List.flatMap_singleton]
      unfold keyCount at ih ⊢
      rw [hsplit, List.countP_append, ih, List.countP_map]
      by_cases hj : j = n
      · subst hj
        simp [Function.comp_def]
      · have hcount : List.countP ((fun m : SCAMPmatch ℚ => decide (m.col = j)) ∘ fun r => ⟨1, r, n⟩)
            (List.range k) = 0 := List.countP_eq_zero.mpr fun r _ => by simpa using Ne.symm hj
        rw [hcount]
        split <;> split <;> omega

/-- An AB-join in which the room for a tile is `400` matches for each of its `127998` columns. -/
def wideJoin : Join ℚ where
  args := { abJoinArgs .approxAllNeighbors (.replicate 128000 (.finite 0)) (.replicate 128000 (.finite 0)) 3 with
    maxMatchesPerColumn := 400 }
  numThreads := 1
  threads_pos := Nat.one_pos
  valid := rfl
  columns := rfl
  rows_self := fun h => absurd h (by decide)
  rows_ab := fun _ => rfl
  type_a := rfl
  type_b := fun _ => rfl

theorem wideJoin_width : (tileDims wideJoin.info (0, 0)).width - wideJoin.info.mpWindow + 1 = 127998 := by
  decide +kernel

/-- Its only tile reports `401` matches for each column. -/
def wideCandidates : Candidates wideJoin.info where
  ofTile t := if t = (0, 0) then ⟨evenMatches 401 127998, []⟩ else ⟨[], []⟩
  cols_lt t m hm := by
    split at hm
    · next ht =>
        rw [ht, wideJoin_width]
        dsimp only at hm
        exact (mem_evenMatches hm).2
    · exact absurd hm List.not_mem_nil
  rows_lt t m hm := by
    split at hm <;> exact absurd hm List.not_mem_nil

theorem cols_wideCandidates : (wideCandidates.ofTile (0, 0)).cols = evenMatches 401 127998 := by
  unfold wideCandidates
  dsimp only
  rw [if_pos rfl]

/-- **A tile that is run again in vain.** There is room for `max_matches_per_column` matches of each column,
    and one more of each column is reported. What is stored may be `max_matches_per_column` of each column, which
    raises nothing. -/
theorem wideJoin_stalls :
    wideJoin.args.profileType = .approxAllNeighbors ∧ 1 ≤ wideJoin.args.maxMatchesPerColumn ∧
      wideJoin.args.maxMatchesPerColumn * wideJoin.info.maxTileWidth ≤ wideJoin.info.maxMatchesPerTile ∧
      ∃ s, Relation.ReflTransGen (GpuStep wideJoin.info wideCandidates.ofTile wideJoin.numThreads)
          (.init wideJoin.info wideJoin.args fun _ => (fun _ => 0, fun _ => 0)) s ∧
        ¬Raises wideCandidates s 0 := by
  refine ⟨rfl, by decide, by decide +kernel, ?_⟩
  have htiles : getTiles wideJoin.info = [(0, 0)] := by decide +kernel
  obtain ⟨s, hrun, -, hphase, hprofile, hthresholds⟩ := run_take wideJoin.info wideCandidates.ofTile
    (n := wideJoin.numThreads) wideJoin.threads_pos
    (s := .init wideJoin.info wideJoin.args fun _ => (fun _ => 0, fun _ => 0)) htiles rfl
  refine ⟨s, hrun, fun hraises => ?_⟩
  have hcan := (raises_iff wideJoin.room_nonneg).mp hraises
  -- all matches are reported
  have habove : ∀ j, s.columnThresholds wideJoin.info (0, 0) j = 0 := by
    intro j
    unfold GpuState.columnThresholds
    rw [hprofile]
    rfl
  have hread : ∀ m ∈ evenMatches 401 127998, (s.workers 0).thresholdsA m.col = 0 := by
    intro m hm
    have hlt := (mem_evenMatches hm).2
    rw [hthresholds]
    unfold NeighborState.initProfile
    dsimp only
    rw [memcopy_lt (by rw [wideJoin_width]; exact hlt)]
    rfl
  have hreported : (s.reportedBy wideCandidates 0 (0, 0)).cols = evenMatches 401 127998 := by
    rw [cols_reportedBy, cols_wideCandidates]
    refine List.filter_eq_self.mpr fun m hm => decide_eq_true ?_
    rw [hread m hm, (mem_evenMatches hm).1]
    exact one_pos
  have hroom : wideJoin.info.maxMatchesPerTile = 400 * 127998 := by decide +kernel
  have hqueue : wideJoin.info.queueSize = 400 := by decide +kernel
  unfold RoomToRaise at hcan
  rw [hphase] at hcan
  dsimp only at hcan
  rw [hreported, wideJoin_width] at hcan
  have hdim : mergeDim wideJoin.info (evenMatches 401 127998) < 0 := by
    unfold mergeDim profileDim
    rw [length_evenMatches, hroom]
    decide
  have hover : overflows wideJoin.info (s.reportedBy wideCandidates 0 (0, 0)) = true :=
    overflows_of_cols (by rw [hreported]; exact hdim)
  rcases (hcan hover).2 hdim with ⟨m, hm, hle⟩ | hfew
  · rw [habove, (mem_evenMatches hm).1] at hle
    exact absurd hle (by decide)
  · refine absurd hfew ?_
    unfold FewEnough storedRoom
    rw [hqueue, hroom, not_lt]
    have hsum : ∑ j ∈ Finset.range 127998, min (keyCount SCAMPmatch.col (evenMatches 401 127998) j) (400 + 1) =
        127998 * 401 := by
      rw [Finset.sum_congr rfl fun j hj => by rw [keyCount_evenMatches, if_pos (Finset.mem_range.mp hj), min_self],
        Finset.sum_const, Finset.card_range, smul_eq_mul]
    rw [hsum]
    decide

end

end Scamp
