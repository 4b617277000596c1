import Scamp.Core.Correctness.Merging

/-!
# `Core.Correctness.NearestNeighbor` — the nearest neighbours a self-join finds

`PROFILE_TYPE_1NN_INDEX` and `PROFILE_TYPE_1NN` over the real numbers. The hits offered to an entry are the
correlations with the subsequences it is compared with, and `-2` where one of the two takes no part; since
a correlation is never below `-1`, the entry ends with the best correlation, or with its initial value
when there is none (`nearest_of_best`). `selfJoin_nearest` is that for a self-join with one profile,
whatever the tiles and the schedule.
-/

namespace Scamp

open Lib

/-! ## The entry of a set of partners -/

/-- The entry holds the best of the correlations with the partners, and with an index the position of one
    that attains it; without partners it has its initial value. -/
structure NearestEntry (type : SCAMPProfileType) (partner : ℕ → Prop) (corr : ℕ → ℝ) (e : MpEntry ℝ) :
    Prop where
  best : (∃ j, partner j) → ∃ j, partner j ∧ e.value = .num (corr j) ∧ (∀ j', partner j' → corr j' ≤ corr j) ∧
    (type = .oneNNIndex → e.index = UInt32.ofNat j)
  none : (¬∃ j, partner j) → e = allocEntry type

/-- A profile type that keeps the nearest neighbour. -/
def NearestType (type : SCAMPProfileType) : Prop := type = .oneNNIndex ∨ type = .oneNN

/-- **From hits to partners.** The hits are one for each candidate: its correlation if it is a partner, and
    `-2` if it is not. -/
theorem nearest_of_best {type : SCAMPProfileType} (htype : NearestType type) {keepsIndex : Bool}
    (hkeeps : type = .oneNNIndex → keepsIndex = true) {bs : Multiset (Block ℝ)} {e : MpEntry ℝ}
    (hrel : Best keepsIndex (allocEntry type) bs e) {partner : ℕ → Prop}
    [DecidablePred partner] {corr : ℕ → ℝ} (candidate : ℕ → Prop)
    (hhits : ∀ h, h ∈ hitsOf bs ↔
      ∃ j, candidate j ∧ h = ⟨if partner j then corr j else -2, j⟩)
    (hcand : ∀ j, partner j → candidate j) (hcorr : ∀ j, -1 ≤ corr j) :
    NearestEntry type partner corr e := by
  have hinit : (allocEntry type : MpEntry ℝ).value = .num (-2) := by
    rcases htype with rfl | rfl <;> rfl
  obtain ⟨v, hv, hle, hdom, hatt⟩ := hrel (-2) hinit
  have hmem : ∀ h, (∃ b ∈ bs, h ∈ b) ↔ ∃ j, candidate j ∧ h = ⟨if partner j then corr j else -2, j⟩ := by
    intro h
    rw [← hhits, hitsOf, Multiset.mem_bind]
    exact Iff.rfl
  have hbest : ∀ j, partner j → corr j ≤ v := by
    intro j hj
    obtain ⟨b, hb, hh⟩ := (hmem ⟨corr j, j⟩).mpr ⟨j, hcand j hj, by rw [if_pos hj]⟩
    exact hdom b hb _ hh
  constructor
  · rintro ⟨j, hj⟩
    rcases hatt with rfl | ⟨b, hb, h, hh, hlt, rfl, hidx⟩
    · -- an entry that is still initial is below every correlation
      have hv2 : v = -2 := Dbl.num.inj (hv.symm.trans hinit)
      have := hbest j hj
      have := hcorr j
      linarith
    · obtain ⟨j', _, rfl⟩ := (hmem h).mp ⟨b, hb, hh⟩
      by_cases hj' : partner j'
      · dsimp only at hlt hv hbest hidx
        rw [if_pos hj'] at hlt hv hbest
        exact ⟨j', hj', hv, hbest, fun ht => hidx (hkeeps ht)⟩
      · dsimp only at hlt
        rw [if_neg hj'] at hlt
        exact absurd hlt (lt_irrefl _)
  · intro hnone
    rcases hatt with rfl | ⟨b, hb, h, hh, hlt, rfl, _⟩
    · rfl
    · obtain ⟨j', _, rfl⟩ := (hmem h).mp ⟨b, hb, hh⟩
      dsimp only at hlt
      rw [if_neg fun hj' => hnone ⟨j', hj'⟩] at hlt
      exact absurd hlt (lt_irrefl _)

/-! ## Self-joins -/

section
variable (J : Join ℝ)

theorem neg_one_le_pearson (r c : ℕ) : -1 ≤ J.pearson r c := by
  have h := (abs_le.mp (abs_corr_le_one (cleanSeries J.seriesA) (cleanSeries J.seriesB)
    J.info.mpWindow c r)).1
  rw [mul_one_div, mul_one_div, div_div] at h
  exact h

/-- Subsequence `j` may be matched with subsequence `i`: both take part and they are no trivial match. -/
def Partner (i j : ℕ) : Prop :=
  i < J.info.numCols ∧ j < J.info.numCols ∧ OutsideBand (exclusionZone J.info.mpWindow) i j ∧
    J.ValidCell i j

/-- The partners of `i` that come before it. -/
def LeftPartner (i j : ℕ) : Prop :=
  i < J.info.numCols ∧ j + exclusionZone J.info.mpWindow ≤ i ∧ J.ValidCell i j

/-- The partners of `i` that come after it. -/
def RightPartner (i j : ℕ) : Prop :=
  j < J.info.numCols ∧ i + exclusionZone J.info.mpWindow ≤ j ∧ J.ValidCell i j

variable {J}

section
variable (hsame : J.seriesB = J.seriesA)
include hsame

theorem pearson_comm (i j : ℕ) : J.pearson i j = J.pearson j i := by
  unfold Join.pearson
  rw [hsame, cdot_comm, mul_comm]

theorem validCell_comm {i j : ℕ} : J.ValidCell i j ↔ J.ValidCell j i := by
  unfold Join.ValidCell
  rw [hsame, and_comm]

theorem cellCorr_comm (i j : ℕ) : J.cellCorr i j = J.cellCorr j i := by
  unfold Join.cellCorr
  rw [pearson_comm hsame i j]
  exact if_congr (validCell_comm hsame) rfl rfl

end

variable (hself : J.args.hasB = false)
include hself

theorem seriesB_of_self : J.seriesB = J.seriesA := by
  unfold Join.seriesB Join.seriesA
  rw [hself]
  rfl

/-- What the columns of a self-join offer entry `k`: the cells with the subsequences before it. -/
theorem mem_columnHits_self {U : ℕ} (hU : 0 < U) (k : ℕ) (h : Hit ℝ) :
    h ∈ columnHits J.cellCorr (comparedCells U J.info) k ↔
      ∃ j, (k < J.info.numCols ∧ j + exclusionZone J.info.mpWindow ≤ k) ∧ h = ⟨J.cellCorr k j, j⟩ := by
  rw [mem_columnHits]
  refine exists_congr fun j => and_congr (mem_comparedCells_selfJoin hU hself) ?_
  rw [cellCorr_comm (seriesB_of_self hself)]

/-- What the rows offer entry `k`: the cells with the subsequences after it. -/
theorem mem_rowHits_self {U : ℕ} (hU : 0 < U) (k : ℕ) (h : Hit ℝ) :
    h ∈ rowHits J.cellCorr (comparedCells U J.info) k ↔
      ∃ j, (j < J.info.numCols ∧ k + exclusionZone J.info.mpWindow ≤ j) ∧ h = ⟨J.cellCorr k j, j⟩ := by
  rw [mem_rowHits]
  exact exists_congr fun j => and_congr_left' (mem_comparedCells_selfJoin hU hself)

omit hself in
/-- The entry that is offered its candidates, each with the cell that compares it. -/
theorem nearest_of_candidates (htype : NearestType J.info.profileType) {keepsIndex : Bool}
    (hkeeps : J.info.profileType = .oneNNIndex → keepsIndex = true) {bs : Multiset (Block ℝ)} {e : MpEntry ℝ}
    (hrel : Best keepsIndex (allocEntry J.info.profileType) bs e) (cell : ℕ → ℕ × ℕ)
    {partner candidate : ℕ → Prop}
    (hhits : ∀ h, h ∈ hitsOf bs ↔ ∃ j, candidate j ∧ h = ⟨J.cellCorr (cell j).1 (cell j).2, j⟩)
    (hpartner : ∀ j, partner j ↔ candidate j ∧ J.ValidCell (cell j).1 (cell j).2) :
    NearestEntry J.info.profileType partner (fun j => J.pearson (cell j).1 (cell j).2) e := by
  classical
  have hinit : (initDist J.info.profileType : ℝ) = -2 := by
    rcases htype with h | h <;> rw [h] <;> rfl
  refine nearest_of_best htype hkeeps hrel candidate (fun h => ?_) (fun j hj => ((hpartner j).mp hj).1)
    (fun j => neg_one_le_pearson J _ _)
  rw [hhits]
  refine exists_congr fun j => and_congr_right fun hj => ?_
  have hvalue : J.cellCorr (cell j).1 (cell j).2 =
      if partner j then J.pearson (cell j).1 (cell j).2 else -2 := by
    unfold Join.cellCorr
    rw [hinit]
    exact if_congr ((hpartner j).trans (and_iff_right hj)).symm rfl rfl
  rw [hvalue]

omit hself in
/-- The types that keep a best match take in correlations that way. -/
theorem exists_bestAbsorption (bld : Build ℝ) {type : SCAMPProfileType} (h : NearestType type)
    (threshold : ℝ) : ∃ (R : Absorption bld type threshold) (keepsIndex : Bool), R.rel = Best keepsIndex ∧
      R.seedOK = SeedBelow ∧ (type = .oneNNIndex → keepsIndex = true) := by
  rcases h with rfl | rfl
  · exact ⟨bestIndexAbsorption bld threshold, true, rfl, rfl, fun _ => rfl⟩
  · exact ⟨bestValueAbsorption bld threshold, false, rfl, rfl, nofun⟩

omit hself in
theorem entryType_of_nearest {type : SCAMPProfileType} (h : NearestType type) : entryType type = true := by
  rcases h with rfl | rfl <;> rfl

/-- Where a self-join merges the rows. -/
theorem mergeTargetB_self (htype : entryType J.info.profileType = true) :
    Tile.mergeTargetB J.info = some (if J.args.keepRowsSeparate then .b else .a) := by
  have hne : J.args.profileType ≠ .matrixSummary := ne_matrixSummary htype
  have hrows : J.info.computingRows = true := (if_neg hne).trans (J.rows_self hself)
  have hkeep : J.info.keepRowsSeparate = J.args.keepRowsSeparate := if_neg hne
  have hflag := J.selfJoin_of_self hself
  unfold Tile.mergeTargetB
  rw [hrows, hkeep, hflag]
  cases J.args.keepRowsSeparate <;> rfl

omit hself in
/-- An AB-join merges the rows only when they are kept. -/
theorem mergeTargetB_ab (hab : J.args.hasB = true) (htype : entryType J.info.profileType = true) :
    Tile.mergeTargetB J.info = if J.args.keepRowsSeparate then some .b else none := by
  have hne : J.args.profileType ≠ .matrixSummary := ne_matrixSummary htype
  have hrows : J.info.computingRows = J.args.keepRowsSeparate := (if_neg hne).trans (J.rows_ab hab)
  have hkeep : J.info.keepRowsSeparate = J.args.keepRowsSeparate := if_neg hne
  unfold Tile.mergeTargetB
  rw [hrows, hkeep, J.selfJoin_of_ab hab]
  cases J.args.keepRowsSeparate <;> rfl

end

/-! ## Entries never get worse -/

/-- A merge that keeps the larger value does not lose one. -/
theorem maxEntry_floor {v : ℝ} {off : ℕ} {e x : MpEntry ℝ}
    (h : (∃ w, e.value = .num w ∧ v ≤ w) ∨ ((∃ w, e.value = .num w) ∧ ∃ w, x.value = .num w ∧ v ≤ w)) :
    ∃ w, (maxEntry off e x).value = .num w ∧ v ≤ w := by
  unfold maxEntry
  split
  · next hgt =>
      rcases h with ⟨w, hw, hle⟩ | ⟨_, hx⟩
      · rw [hw] at hgt
        cases hx : x.value with
        | nan =>
            rw [hx] at hgt
            cases hgt
        | num y =>
            rw [hx, Dbl.gt_num, decide_eq_true_eq] at hgt
            exact ⟨y, rfl, hle.trans hgt.le⟩
      · exact hx
  · next hle =>
      rcases h with he | ⟨⟨w, hw⟩, y, hy, hvy⟩
      · exact he
      · rw [hw, hy, Dbl.gt_num] at hle
        exact ⟨w, hw, hvy.trans (not_lt.mp (by simpa using hle))⟩

section
variable {J : Join ℝ} {bld : Build ℝ} (htype : NearestType J.info.profileType)
include htype

/-- The entry holds at least `v`. -/
def AtLeast (v : ℝ) (e : MpEntry ℝ) : Prop := ∃ x, e.value = .num x ∧ v ≤ x

theorem mergeEntry_atLeast {v : ℝ} {off : ℕ} {e x : MpEntry ℝ} (h : AtLeast v e) :
    AtLeast v (mergeEntry J.info.profileType off e x) := by
  rcases htype with ht | ht <;>
    · rw [ht]
      exact maxEntry_floor (Or.inl h)

theorem workerStep_atLeast {g g' : Shared ℝ} {w w' : Worker ℝ} {act : Action}
    (hg : TypesOK (J.operation bld) g) (hstep : WorkerStep (J.operation bld) g w act g' w') {side : Side}
    {k : ℕ} {v : ℝ} (h : AtLeast v ((g.profile side).data.get k)) :
    AtLeast v ((g'.profile side).data.get k) := by
  have hentry : entryType (J.operation bld).info.profileType = true := entryType_of_nearest htype
  cases hstep with
  | @mergeA last p hw hp =>
      obtain ⟨p', hp', _, hget⟩ := mergeProfileA_ok hentry hg w.tile
      obtain rfl : p' = p := Except.ok.inj (hp'.symm.trans hp)
      cases side with
      | a =>
          show AtLeast v (p'.data.get k)
          rw [hget]
          split
          · exact mergeEntry_atLeast htype h
          · exact h
      | b => exact h
  | @mergeB last target p hw htarget hp =>
      obtain ⟨p', hp', _, hget⟩ := mergeProfileB_ok hentry hg w.tile htarget
      obtain rfl : p' = p := Except.ok.inj (hp'.symm.trans hp)
      have hmerged : AtLeast v ((g.profile target).data.get k) → AtLeast v (p'.data.get k) := by
        intro h
        rw [hget]
        split
        · exact mergeEntry_atLeast htype h
        · exact h
      cases side <;> cases target <;> first | exact hmerged h | exact h
  | pop => cases side <;> exact h
  | count => cases side <;> exact h
  | _ => exact h

/-- **Values only grow** along a run. -/
theorem run_atLeast {s s' : OpState ℝ} (hs : StateOK J bld s)
    (hrun : Relation.ReflTransGen (OpStep (J.operation bld) J.numThreads) s s') {side : Side} {k : ℕ} {v : ℝ}
    (h : AtLeast v ((s.shared.profile side).data.get k)) :
    AtLeast v ((s'.shared.profile side).data.get k) := by
  have hentry : entryType J.info.profileType = true := entryType_of_nearest htype
  refine (run_inv (I := fun s => StateOK J bld s ∧ AtLeast v ((s.shared.profile side).data.get k))
    ?_ hrun ⟨hs, h⟩).2
  rintro s s' ⟨hs, h⟩ hstep
  refine ⟨stateOK_step hentry hs hstep, ?_⟩
  obtain ⟨i, hi, act, hact⟩ := hstep
  obtain ⟨g, w, rfl, hw⟩ := opStep_cases hentry hs hi hact
  exact workerStep_atLeast htype hs.types hw h

end

/-- A run of the join, from the state in which `do_join` starts the workers. -/
def Join.Run (J : Join ℝ) (bld : Build ℝ) (memory : ℕ → Tile ℝ) (s : OpState ℝ) : Prop :=
  Relation.ReflTransGen (OpStep (J.operation bld) J.numThreads) (J.initState memory) s

/-- The entry of subsequence `i` in a self-join with one profile, once the run has returned. -/
theorem selfJoin_entry {J : Join ℝ} {bld : Build ℝ} (hself : J.args.hasB = false)
    (hkeep : J.args.keepRowsSeparate = false) (htype : NearestType J.args.profileType)
    {memory : ℕ → Tile ℝ} {s : OpState ℝ} (hrun : J.Run bld memory s) (hreturned : J.Returned s) {i : ℕ}
    (hi : i < J.info.numCols) :
    NearestEntry J.args.profileType (Partner J i) (J.pearson i) (s.shared.profileA.data.get i) := by
  have hentry : entryType J.info.profileType = true := entryType_of_nearest htype
  obtain ⟨R, keepsIndex, hR, _, hkeeps⟩ := exists_bestAbsorption bld htype J.info.threshold
  have hkeepInfo : J.info.keepRowsSeparate = false :=
    (if_neg (ne_matrixSummary (entryType_of_nearest htype))).trans hkeep
  have hcomputed : Computed J .a := Or.inl rfl
  have hbest := returned_entry (R := R) hentry (run_good_of_same hentry (fun _ => hkeepInfo) hrun)
    hreturned hcomputed i
  rw [hR] at hbest
  have htarget := mergeTargetB_self hself hentry
  rw [hkeep, if_neg Bool.false_ne_true] at htarget
  refine nearest_of_candidates htype hkeeps hbest (fun j => (i, j)) (fun h => ?_)
    (fun j => (and_iff_right hi).trans and_assoc.symm)
  have hU := unrollWid_pos bld
  -- both kinds of hits arrive: those of the column and those of the row
  rw [hitsOf_offered hU, if_pos rfl, htarget, if_pos rfl, Multiset.mem_add, mem_columnHits_self hself hU,
    mem_rowHits_self hself hU]
  constructor
  · rintro (⟨j, ⟨_, hj⟩, rfl⟩ | ⟨j, ⟨hn, hj⟩, rfl⟩)
    · exact ⟨j, ⟨by omega, Or.inr hj⟩, rfl⟩
    · exact ⟨j, ⟨hn, Or.inl hj⟩, rfl⟩
  · rintro ⟨j, ⟨hn, hj | hj⟩, rfl⟩
    · exact Or.inr ⟨j, ⟨hn, hj⟩, rfl⟩
    · exact Or.inl ⟨j, ⟨hi, hj⟩, rfl⟩

/-- **The nearest neighbours of a self-join.** Whatever the number of workers, the tiles and the schedule,
    every run can return, and when it has, each entry of the profile is the best correlation with a
    subsequence that is no trivial match, over the windows that are finite and not flat; entries without
    such a subsequence keep their initial value. -/
theorem selfJoin_nearest (J : Join ℝ) (bld : Build ℝ) (hself : J.args.hasB = false)
    (hkeep : J.args.keepRowsSeparate = false) (htype : NearestType J.args.profileType)
    (memory : ℕ → Tile ℝ) :
    (cpuPrecision J.args.precisionType → ∀ s, J.Run bld memory s →
      ∃ s', Relation.ReflTransGen (OpStep (J.operation bld) J.numThreads) s s' ∧ J.Returned s') ∧
    ∀ s, J.Run bld memory s → J.Returned s → ∀ i < J.info.numCols,
      NearestEntry J.args.profileType (Partner J i) (J.pearson i) (s.shared.profileA.data.get i) := by
  have hentry : entryType J.info.profileType = true := entryType_of_nearest htype
  constructor
  · intro hfp s hrun
    exact runs_return hentry hfp (stateOK_run hentry hrun)
  · intro s hrun hreturned i hi
    exact selfJoin_entry hself hkeep htype hrun hreturned hi

/-- A self-join of four samples with window `3`. -/
noncomputable def twoWindowJoin : Join ℝ where
  args := selfJoinArgs .oneNNIndex ⟨4, fun i => .finite (if i = 0 ∨ i = 3 then 1 else 0)⟩ 3
  numThreads := 2
  threads_pos := Nat.two_pos
  valid := rfl
  columns := rfl
  rows_self := fun _ => rfl
  rows_ab := fun h => absurd h (by simp [selfJoinArgs])
  type_a := rfl
  type_b := fun _ => rfl

theorem selfJoin_nearest_twoWindow : ∃ s, twoWindowJoin.Run scanBuild (fun _ => zeroTile) s ∧
    twoWindowJoin.Returned s ∧
    ∀ i < 2, NearestEntry .oneNNIndex (Partner twoWindowJoin i) (twoWindowJoin.pearson i)
      (s.shared.profileA.data.get i) := by
  obtain ⟨hreturns, hentries⟩ := selfJoin_nearest twoWindowJoin scanBuild rfl rfl (Or.inl rfl) fun _ => zeroTile
  obtain ⟨s, hrun, hreturned⟩ := hreturns (Or.inl rfl) _ .refl
  exact ⟨s, hrun, hreturned, hentries s hrun hreturned⟩

end Scamp
