import Scamp.Core.Correctness.NearestNeighbor
import Scamp.Core.Correctness.AlignedCells

/-!
# `Core.Correctness.AbJoin` — the nearest neighbours an AB-join finds

`PROFILE_TYPE_1NN_INDEX` over the real numbers. Each entry of a profile is the best correlation over the
cells that the operation compares in its column or row (`abJoin_entry`). For an aligned join of a series
with itself these are the cells of the self-join, although the two cut the matrix into different tiles and
leave the trivial matches out in different ways (`alignedJoin_eq_selfJoin`).
-/

namespace Scamp

open Lib

/-! ## The entries of an AB-join -/

/-- The cell that compares entry `i` of a profile with subsequence `j`: the columns of the distance matrix
    belong to `profile_a` and its rows to `profile_b`. -/
def sideCell (side : Side) (i j : ℕ) : ℕ × ℕ :=
  match side with
  | .a => (j, i)
  | .b => (i, j)

section
variable {J : Join ℝ} {bld : Build ℝ}

/-- The rows of an AB-join go nowhere but into `profile_b`. -/
theorem target_of_ab (hab : J.args.hasB = true) {side : Side} (h : Tile.mergeTargetB J.info = some side) :
    side = .b := by
  have hflag := J.selfJoin_of_ab hab
  unfold Tile.mergeTargetB at h
  rw [hflag] at h
  split at h
  · simpa using h.symm
  · simp at h

/-- **The entry of an AB-join**, once the run has returned: the best of the cells compared. -/
theorem abJoin_entry (hab : J.args.hasB = true) (htype : J.args.profileType = .oneNNIndex)
    {memory : ℕ → Tile ℝ} {s : OpState ℝ} (hrun : J.Run bld memory s) (hreturned : J.Returned s) {side : Side}
    (hside : Computed J side) (i : ℕ) :
    NearestEntry .oneNNIndex
      (fun j => sideCell side i j ∈ comparedCells bld.unrollWid J.info ∧
        J.ValidCell (sideCell side i j).1 (sideCell side i j).2)
      (fun j => J.pearson (sideCell side i j).1 (sideCell side i j).2)
      ((s.shared.profile side).data.get i) := by
  have hinfo : J.info.profileType = .oneNNIndex := htype
  have hnearest : NearestType J.info.profileType := Or.inl htype
  have hentry := entryType_of_nearest hnearest
  have hU := unrollWid_pos bld
  obtain ⟨R, keepsIndex, hR, _, hkeeps⟩ := exists_bestAbsorption bld hnearest J.info.threshold
  have hsame : J.info.profileType = .oneNN → J.info.keepRowsSeparate = false := by
    intro h
    rw [hinfo] at h
    cases h
  have hbest := returned_entry (R := R) hentry (run_good_of_same hentry hsame hrun) hreturned hside i
  rw [hR] at hbest
  have hhits : ∀ h, h ∈ hitsOf (offered J bld.unrollWid side (getTiles J.info) (getTiles J.info) i) ↔
      ∃ j, sideCell side i j ∈ comparedCells bld.unrollWid J.info ∧
        h = ⟨J.cellCorr (sideCell side i j).1 (sideCell side i j).2, j⟩ := by
    intro h
    rw [hitsOf_offered hU]
    cases side with
    | a =>
        have htarget : Tile.mergeTargetB J.info ≠ some .a := fun h => nomatch target_of_ab hab h
        rw [if_pos rfl, if_neg htarget, add_zero, mem_columnHits]
        exact Iff.rfl
    | b =>
        have htarget : Tile.mergeTargetB J.info = some .b := hside.resolve_left nofun
        rw [if_neg nofun, if_pos htarget, zero_add, mem_rowHits]
        exact Iff.rfl
  have hnearestEntry := nearest_of_candidates hnearest hkeeps hbest (sideCell side i) hhits fun j => Iff.rfl
  rwa [hinfo] at hnearestEntry

end

/-! ## The aligned join of a series with itself -/

/-- A self-join, and an aligned AB-join of the same series with itself that computes columns only. Tile
    sizes, workers and precision of the two are their own. -/
structure AlignedWithItself (J J' : Join ℝ) : Prop where
  self : J.args.hasB = false
  together : J.args.keepRowsSeparate = false
  aligned : AlignedLocally J'
  columns_only : J'.args.computingRows = false
  series_a : J'.args.timeseriesA = J.args.timeseriesA
  series_b : J'.args.timeseriesB = J.args.timeseriesA
  window : J'.args.window = J.args.window

namespace AlignedWithItself
variable {J J' : Join ℝ} (h : AlignedWithItself J J')
include h

theorem seriesA_eq : J'.seriesA = J.seriesA := h.series_a

theorem seriesB_eq : J'.seriesB = J.seriesB := by
  unfold Join.seriesB
  rw [h.aligned.ab, h.self]
  exact h.series_b

theorem mpWindow_eq : J'.info.mpWindow = J.info.mpWindow := h.window

theorem numCols_eq : J'.info.numCols = J.info.numCols := by
  show J'.args.timeseriesA.size - J'.args.window + 1 = J.args.timeseriesA.size - J.args.window + 1
  rw [h.series_a, h.window]

/-- The distance matrix of the AB-join is a square. -/
theorem numRows_eq : J'.info.numRows = J'.info.numCols := by
  show (if J'.args.hasB then J'.args.timeseriesB.size else J'.args.timeseriesA.size) - J'.args.window + 1 =
    J'.args.timeseriesA.size - J'.args.window + 1
  rw [h.aligned.ab, if_pos rfl, h.series_b, h.series_a]

theorem pearson_eq (r c : ℕ) : J'.pearson r c = J.pearson r c := by
  unfold Join.pearson
  rw [h.seriesA_eq, h.seriesB_eq, h.mpWindow_eq]

theorem validCell_iff (r c : ℕ) : J'.ValidCell r c ↔ J.ValidCell r c := by
  unfold Join.ValidCell
  rw [h.seriesA_eq, h.seriesB_eq, h.mpWindow_eq]

/-- **The cells the AB-join compares** are those outside the band: in a square no tile sits beside a narrow
    one without being narrow itself. -/
theorem mem_comparedCells_square {U r c : ℕ} (hU : 0 < U) :
    (r, c) ∈ comparedCells U J'.info ↔
      r < J'.info.numCols ∧ c < J'.info.numCols ∧ OutsideBand (exclusionZone J'.info.mpWindow) r c := by
  rw [mem_comparedCells_aligned h.aligned hU, h.numRows_eq]
  refine and_congr_right fun hr => and_congr_right fun hc => or_iff_left ?_
  have hW := tileWidth_pos J'
  obtain ⟨hr1, _⟩ := (le_mul_iff_block hW (x := r)).mpr rfl
  obtain ⟨hc1, _⟩ := (le_mul_iff_block hW (x := c)).mpr rfl
  unfold BesideNarrowTile tileNumCols tileNumRows
  rw [h.numRows_eq]
  dsimp only
  rintro (⟨hnext, hnarrow⟩ | ⟨hnext, hnarrow⟩)
  · rw [hnext, Nat.add_mul, Nat.one_mul] at hr1
    omega
  · rw [hnext, Nat.add_mul, Nat.one_mul] at hc1
    omega

/-- The entry of subsequence `i` in the AB-join has the partners it has in the self-join. -/
theorem entry {bld : Build ℝ} (htype : J'.args.profileType = .oneNNIndex) {memory : ℕ → Tile ℝ}
    {s : OpState ℝ} (hrun : J'.Run bld memory s) (hreturned : J'.Returned s) {i : ℕ}
    (hi : i < J.info.numCols) :
    NearestEntry .oneNNIndex (Partner J i) (J.pearson i) (s.shared.profileA.data.get i) := by
  have hsame := seriesB_of_self h.self
  have hentry := abJoin_entry h.aligned.ab htype hrun hreturned (Or.inl rfl) i
  have hpartner : ∀ j, (sideCell .a i j ∈ comparedCells bld.unrollWid J'.info ∧
      J'.ValidCell (sideCell .a i j).1 (sideCell .a i j).2) ↔ Partner J i j := by
    intro j
    unfold sideCell Partner OutsideBand
    dsimp only
    rw [h.mem_comparedCells_square (unrollWid_pos bld), h.validCell_iff, validCell_comm hsame, h.numCols_eq,
      h.mpWindow_eq]
    unfold OutsideBand
    constructor
    · rintro ⟨⟨hj, _, hout⟩, hv⟩
      exact ⟨hi, hj, hout.symm, hv⟩
    · rintro ⟨_, hj, hout, hv⟩
      exact ⟨⟨hj, hi, hout.symm⟩, hv⟩
  have hcorr : ∀ j, J'.pearson (sideCell .a i j).1 (sideCell .a i j).2 = J.pearson i j := by
    intro j
    rw [h.pearson_eq]
    exact pearson_comm hsame j i
  rw [show (fun j => sideCell .a i j ∈ comparedCells bld.unrollWid J'.info ∧
    J'.ValidCell (sideCell .a i j).1 (sideCell .a i j).2) = Partner J i from funext fun j => propext (hpartner j),
    show (fun j => J'.pearson (sideCell .a i j).1 (sideCell .a i j).2) = J.pearson i from funext hcorr] at hentry
  exact hentry

end AlignedWithItself

/-- Two entries with the same partners and correlations have one value. -/
theorem NearestEntry.value_eq {type : SCAMPProfileType} {partner : ℕ → Prop} {corr : ℕ → ℝ}
    {e e' : MpEntry ℝ} (h : NearestEntry type partner corr e) (h' : NearestEntry type partner corr e') :
    e.value = e'.value := by
  by_cases hsome : ∃ j, partner j
  · obtain ⟨j, hj, hv, hmax, _⟩ := h.best hsome
    obtain ⟨j', hj', hv', hmax', _⟩ := h'.best hsome
    rw [hv, hv', le_antisymm (hmax' j hj) (hmax j' hj')]
  · rw [h.none hsome, h'.none hsome]

/-- **An aligned AB-join of a series with itself is its self-join.** Whatever the tile sizes and the numbers
    of workers of the two, the column profile of the one has the values of the profile of the other, and the
    indices both store attain these values among the same partners. -/
theorem alignedJoin_eq_selfJoin (J J' : Join ℝ) (h : AlignedWithItself J J') (bld bld' : Build ℝ)
    (htype : J.args.profileType = .oneNNIndex) (htype' : J'.args.profileType = .oneNNIndex)
    (memory memory' : ℕ → Tile ℝ) :
    (cpuPrecision J.args.precisionType → ∀ s, J.Run bld memory s →
      ∃ s', Relation.ReflTransGen (OpStep (J.operation bld) J.numThreads) s s' ∧ J.Returned s') ∧
    (cpuPrecision J'.args.precisionType → ∀ s, J'.Run bld' memory' s →
      ∃ s', Relation.ReflTransGen (OpStep (J'.operation bld') J'.numThreads) s s' ∧ J'.Returned s') ∧
    J'.info.numCols = J.info.numCols ∧
    ∀ s s', J.Run bld memory s → J.Returned s → J'.Run bld' memory' s' → J'.Returned s' →
      ∀ i < J.info.numCols,
        (s'.shared.profileA.data.get i).value = (s.shared.profileA.data.get i).value ∧
        NearestEntry .oneNNIndex (Partner J i) (J.pearson i) (s.shared.profileA.data.get i) ∧
        NearestEntry .oneNNIndex (Partner J i) (J.pearson i) (s'.shared.profileA.data.get i) := by
  have hentry : entryType J.info.profileType = true := entryType_of_nearest (Or.inl htype)
  have hentry' : entryType J'.info.profileType = true := entryType_of_nearest (Or.inl htype')
  refine ⟨?_, ?_, h.numCols_eq, ?_⟩
  · intro hfp s hrun
    exact runs_return hentry hfp (stateOK_run hentry hrun)
  · intro hfp s hrun
    exact runs_return hentry' hfp (stateOK_run hentry' hrun)
  · intro s s' hrun hreturned hrun' hreturned' i hi
    have hselfEntry := selfJoin_entry h.self h.together (Or.inl htype) hrun hreturned hi
    rw [htype] at hselfEntry
    have habEntry := h.entry htype' hrun' hreturned' hi
    exact ⟨habEntry.value_eq hselfEntry, hselfEntry, habEntry⟩

/-- The aligned join of the series of `twoWindowJoin` with itself, on one worker. -/
noncomputable def twoWindowAligned : Join ℝ where
  args := { abJoinArgs .oneNNIndex twoWindowJoin.args.timeseriesA twoWindowJoin.args.timeseriesA 3 with
    isAligned := true }
  numThreads := 1
  threads_pos := Nat.one_pos
  valid := rfl
  columns := rfl
  rows_self := fun h => absurd h (by simp [abJoinArgs])
  rows_ab := fun _ => rfl
  type_a := rfl
  type_b := fun _ => rfl

theorem alignedJoin_eq_selfJoin_twoWindow :
    ∃ s s', twoWindowJoin.Run scanBuild (fun _ => zeroTile) s ∧ twoWindowJoin.Returned s ∧
      twoWindowAligned.Run scanBuild (fun _ => zeroTile) s' ∧ twoWindowAligned.Returned s' ∧
      ∀ i < 2, (s'.shared.profileA.data.get i).value = (s.shared.profileA.data.get i).value := by
  obtain ⟨hreturns, hreturns', _, hentries⟩ := alignedJoin_eq_selfJoin twoWindowJoin twoWindowAligned
    ⟨rfl, rfl, ⟨rfl, rfl, by decide, by decide⟩, rfl, rfl, rfl, rfl⟩ scanBuild scanBuild rfl rfl
    (fun _ => zeroTile) (fun _ => zeroTile)
  obtain ⟨s, hrun, hreturned⟩ := hreturns (Or.inl rfl) _ .refl
  obtain ⟨s', hrun', hreturned'⟩ := hreturns' (Or.inl rfl) _ .refl
  exact ⟨s, s', hrun, hreturned, hrun', hreturned', fun i hi =>
    (hentries s s' hrun hreturned hrun' hreturned' i hi).1⟩

end Scamp
