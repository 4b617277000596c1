import Scamp.Core.Correctness.NearestNeighbor
import Scamp.Core.Correctness.TileMemory

/-!
# `Core.Correctness.SumThreshold` — what a `SUM_THRESH` join adds up

A column update adds a correlation if it is above the threshold. A row update adds up the correlations of
a block that are above the threshold, and then adds this sum if it is above the threshold too. The second
gate changes nothing when the threshold is not negative, for then the sum is above it or zero. Below zero
it drops every block whose sum is not above the threshold, and each drop makes the entry larger than it
should be (`sums_agree_iff`). So the entries are right exactly when no block is dropped
(`sumThresh_sums_iff`); `droppedJoin_entry` is a join in which one is. The sums are only computed where the
bytes that the local profiles are cleared with fit an `int` (`Correctness.TileMemory`).
-/

namespace Scamp

open Lib

/-! ## A gate behind a gate -/

section
variable {K : Type} [Field K] [LinearOrder K]

/-- The sum of the correlations of a block that are above the threshold. -/
def gatedSum (threshold : K) (b : Block K) : K := (b.map fun h => gate threshold h.corr).sum

theorem blockSum_eq_gate (threshold : K) (b : Block K) :
    blockSum threshold b = gate threshold (gatedSum threshold b) := rfl

variable [IsStrictOrderedRing K] {threshold : K}

/-- Above zero, no sum of correlations above the threshold lies at or below it, but the empty one. -/
theorem gatedSum_of_nonneg (ht : 0 ≤ threshold) (b : Block K) :
    gatedSum threshold b = 0 ∨ threshold < gatedSum threshold b := by
  induction b with
  | nil => exact Or.inl rfl
  | cons h b ih =>
      have hcons : gatedSum threshold (h :: b) = gate threshold h.corr + gatedSum threshold b :=
        List.sum_cons
      unfold gate at hcons
      split_ifs at hcons with hgt
      · right
        rcases ih with hzero | hlt
        · rwa [hcons, hzero, add_zero]
        · linarith
      · rwa [hcons, zero_add]

/-- **When the second gate lets a block pass unchanged.** -/
theorem gatedSum_eq_blockSum_iff (b : Block K) :
    gatedSum threshold b = blockSum threshold b ↔ 0 ≤ threshold ∨ threshold < gatedSum threshold b := by
  rw [blockSum_eq_gate]
  unfold gate
  split_ifs with hlt
  · exact iff_of_true rfl (Or.inr hlt)
  · constructor
    · intro hzero
      exact Or.inl (hzero ▸ not_lt.mp hlt)
    · intro h
      have ht := h.resolve_right hlt
      exact (gatedSum_of_nonneg ht b).resolve_right hlt

/-- Below zero the second gate can only drop what is negative. -/
theorem gatedSum_le_blockSum (b : Block K) : gatedSum threshold b ≤ blockSum threshold b := by
  rw [blockSum_eq_gate]
  unfold gate
  split_ifs with hlt
  · exact le_refl _
  · by_contra hpos
    rcases le_or_gt 0 threshold with ht | ht
    · exact hpos (le_of_eq ((gatedSum_of_nonneg ht b).resolve_right hlt))
    · exact hpos ((not_lt.mp hlt).trans ht.le)

/-- Sums of terms that are no larger agree when all terms do. -/
theorem sum_eq_iff_of_le {α : Type} {f g : α → K} (hle : ∀ x, f x ≤ g x) (s : Multiset α) :
    (s.map f).sum = (s.map g).sum ↔ ∀ x ∈ s, f x = g x := by
  induction s using Multiset.induction_on with
  | empty => simp
  | cons x s ih =>
      rw [Multiset.map_cons, Multiset.sum_cons, Multiset.map_cons, Multiset.sum_cons,
        add_eq_add_iff_eq_and_eq (hle x) (Multiset.sum_map_le_sum_map _ _ fun y _ => hle y), ih,
        Multiset.forall_mem_cons]

/-- **The two gates agree** on a multiset of blocks when none of them is dropped. -/
theorem sums_agree_iff (bs : Multiset (Block K)) :
    (bs.map (gatedSum threshold)).sum = (bs.map (blockSum threshold)).sum ↔
      0 ≤ threshold ∨ ∀ b ∈ bs, threshold < gatedSum threshold b := by
  rw [sum_eq_iff_of_le gatedSum_le_blockSum]
  simp only [gatedSum_eq_blockSum_iff]
  by_cases ht : 0 ≤ threshold
  · exact iff_of_true (fun _ _ => Or.inl ht) (Or.inl ht)
  · simp only [ht, false_or]

end

/-! ## Sums over cells -/

section
variable {K : Type} [Field K] [LinearOrder K]

omit [LinearOrder K] in
theorem sum_hitsOf (f : Hit K → K) (bs : Multiset (Block K)) :
    ((hitsOf bs).map f).sum = (bs.map fun b => (b.map f).sum).sum := by
  unfold hitsOf
  rw [Multiset.map_bind, Multiset.sum_bind]
  rfl

variable {cells : List (ℕ × ℕ)} (hnodup : cells.Nodup) {n : ℕ} (f : K → K) (val : ℕ → ℕ → K)
include hnodup

omit [LinearOrder K] in
/-- The hits of a column, one for each of its cells. -/
theorem sum_columnHits (hn : ∀ z ∈ cells, z.1 < n) (c : ℕ) :
    ((columnHits val cells c).map fun h => f h.corr).sum =
      ∑ r ∈ Finset.range n, if (r, c) ∈ cells then f (val r c) else 0 := by
  unfold columnHits
  rw [Multiset.map_bind, Multiset.sum_bind, Multiset.map_coe, Multiset.sum_coe,
    ← List.sum_toFinset _ hnodup, ← Finset.sum_filter]
  have hterm : ∀ z ∈ cells.toFinset,
      ((if z.2 = c then ({⟨val z.1 z.2, z.1⟩} : Multiset (Hit K)) else 0).map fun h => f h.corr).sum =
        if z.2 = c then f (val z.1 z.2) else 0 := by
    intro z _
    split_ifs
    · rw [Multiset.map_singleton, Multiset.sum_singleton]
    · rw [Multiset.map_zero, Multiset.sum_zero]
  rw [Finset.sum_congr rfl hterm, ← Finset.sum_filter]
  refine Finset.sum_nbij' Prod.fst (fun r => (r, c)) ?_ ?_ ?_ ?_ ?_
  · rintro ⟨r, c'⟩ hz
    obtain ⟨hmem, rfl⟩ := Finset.mem_filter.mp hz
    have hmem := List.mem_toFinset.mp hmem
    exact Finset.mem_filter.mpr ⟨Finset.mem_range.mpr (hn _ hmem), hmem⟩
  · intro r hr
    exact Finset.mem_filter.mpr ⟨List.mem_toFinset.mpr (Finset.mem_filter.mp hr).2, rfl⟩
  · rintro ⟨r, c'⟩ hz
    obtain ⟨_, rfl⟩ := Finset.mem_filter.mp hz
    rfl
  · intro r _
    rfl
  · rintro ⟨r, c'⟩ hz
    obtain ⟨_, rfl⟩ := Finset.mem_filter.mp hz
    rfl

omit [LinearOrder K] in
/-- The hits of a row are those of a column of the transposed cells. -/
theorem sum_rowHits (hn : ∀ z ∈ cells, z.2 < n) (r : ℕ) :
    ((rowHits val cells r).map fun h => f h.corr).sum =
      ∑ c ∈ Finset.range n, if (r, c) ∈ cells then f (val r c) else 0 := by
  have hswap : rowHits val cells r = columnHits (fun c r => val r c) (cells.map Prod.swap) r := by
    unfold rowHits columnHits
    rw [← Multiset.map_coe, Multiset.bind_map]
    rfl
  rw [hswap, sum_columnHits (hnodup.map Prod.swap_injective) f _ (fun z hz => by
    obtain ⟨z', hz', rfl⟩ := List.mem_map.mp hz
    exact hn z' hz')]
  refine Finset.sum_congr rfl fun c _ => if_congr ?_ rfl rfl
  constructor
  · intro hz
    obtain ⟨z', hz', heq⟩ := List.mem_map.mp hz
    have hz'' : z' = (r, c) := by rw [← Prod.swap_swap z', heq]; rfl
    exact hz'' ▸ hz'
  · intro hz
    exact List.mem_map.mpr ⟨(r, c), hz, rfl⟩

omit [LinearOrder K] hnodup in
theorem ite_add_ite {p q r : Prop} [Decidable p] [Decidable q] [Decidable r] (hr : r ↔ p ∨ q)
    (hpq : p → ¬q) (x : K) : ((if p then x else 0) + if q then x else 0) = if r then x else 0 := by
  by_cases hp : p
  · rw [if_pos hp, if_neg (hpq hp), if_pos (hr.mpr (Or.inl hp)), add_zero]
  · rw [if_neg hp, zero_add]
    exact if_congr (hr.trans (or_iff_right hp)).symm rfl rfl

end

/-! ## The entries of a join -/

/-- Subsequence `j` takes part in entry `i` of a profile: both windows do, and in a self-join they are no
    trivial match. The two profiles of a self-join with separate rows have the two sides. -/
def SumPartner (J : Join ℝ) : Side → ℕ → ℕ → Prop
  | .a, i, j =>
      if J.args.hasB then j < J.info.numRows ∧ i < J.info.numCols ∧ J.ValidCell j i
      else if J.args.keepRowsSeparate then LeftPartner J i j
      else Partner J i j
  | .b, i, j =>
      if J.args.hasB then i < J.info.numRows ∧ j < J.info.numCols ∧ J.ValidCell i j
      else RightPartner J i j

/-- The correlation of subsequence `i`, of which a profile has an entry, with subsequence `j`. -/
noncomputable def sideCorr (J : Join ℝ) : Side → ℕ → ℕ → ℝ
  | .a, i, j => J.pearson j i
  | .b, i, j => J.pearson i j

open Classical in
/-- **The entry is right**: the sum, over the subsequences that take part, of the correlations above the
    threshold. -/
def SumEntry (J : Join ℝ) (s : OpState ℝ) (side : Side) (i : ℕ) : Prop :=
  ((s.shared.profile side).data.get i).value =
    .num (∑ j ∈ Finset.range (max J.info.numRows J.info.numCols),
      if SumPartner J side i j ∧ J.args.distanceThreshold < sideCorr J side i j then sideCorr J side i j
      else 0)

/-- No block that is offered to an entry, of those cells that one update of a row takes at a time, has
    correlations above the threshold whose sum is not above the threshold. -/
def NoBlockDropped (J : Join ℝ) (U : ℕ) (side : Side) (i : ℕ) : Prop :=
  0 ≤ J.args.distanceThreshold ∨ ∀ b ∈ offered J U side (getTiles J.info) (getTiles J.info) i,
    J.args.distanceThreshold < gatedSum J.args.distanceThreshold b

section
variable {J : Join ℝ} {bld : Build ℝ} (hsum : J.args.profileType = .sumThresh)
include hsum

/-- A cell of which a window takes no part has correlation zero, which no threshold lets count. -/
theorem gate_cellCorr (r c : ℕ) : gate J.args.distanceThreshold (J.cellCorr r c) =
    if J.ValidCell r c ∧ J.args.distanceThreshold < J.pearson r c then J.pearson r c else 0 := by
  have hinit : (initDist J.info.profileType : ℝ) = 0 := by
    rw [show J.info.profileType = .sumThresh from hsum]
    rfl
  unfold gate Join.cellCorr
  rw [hinit]
  by_cases hv : J.ValidCell r c
  · simp only [hv, if_true, true_and]
  · simp only [hv, if_false, false_and, ite_self]

/-- What a returned run leaves in an entry. -/
theorem returned_sum {memory : ℕ → Tile ℝ} {s : OpState ℝ} (hrun : J.Run bld memory s)
    (hreturned : J.Returned s) {side : Side} (hside : Computed J side) (i : ℕ) :
    ((s.shared.profile side).data.get i).value =
      .num (((offered J bld.unrollWid side (getTiles J.info) (getTiles J.info) i).map
        (blockSum J.args.distanceThreshold)).sum) := by
  have htype : J.info.profileType = .sumThresh := hsum
  have hentry : entryType J.info.profileType = true := by rw [htype]; rfl
  obtain ⟨R, hR⟩ : ∃ R : Absorption bld J.info.profileType J.info.threshold,
      R.rel = Summed J.info.threshold := by
    rw [htype]
    exact ⟨sumAbsorption bld J.info.threshold, rfl⟩
  have hrel := returned_entry (R := R) hentry
    (run_good_of_same hentry (fun h => absurd (htype.symm.trans h) (by decide)) hrun) hreturned hside i
  rw [hR, htype] at hrel
  rw [hrel 0 rfl, zero_add]
  rfl

/-- **The cells behind an entry** are those of its partners, each in one place. -/
theorem offered_cell (hjoin : J.args.hasB = false ∨ J.args.isAligned = false) {U : ℕ} (hU : 0 < U)
    {side : Side} (hside : Computed J side) (i j : ℕ) [Decidable (SumPartner J side i j)] :
    ((if side = .a then
        if (j, i) ∈ comparedCells U J.info then gate J.args.distanceThreshold (J.cellCorr j i) else 0
      else 0) +
      if Tile.mergeTargetB J.info = some side then
        if (i, j) ∈ comparedCells U J.info then gate J.args.distanceThreshold (J.cellCorr i j) else 0
      else 0) =
    if SumPartner J side i j ∧ J.args.distanceThreshold < sideCorr J side i j then sideCorr J side i j
    else 0 := by
  have hentry : entryType J.info.profileType = true := by
    rw [show J.info.profileType = .sumThresh from hsum]
    rfl
  cases hb : J.args.hasB with
  | true =>
      have hna := hjoin.resolve_left (by simp [hb])
      have htarget := mergeTargetB_ab hb hentry
      cases side with
      | a =>
          -- the entries of the columns get nothing from the rows
          have hnone : Tile.mergeTargetB J.info ≠ some .a := by
            rw [htarget]
            split <;> decide
          rw [if_pos rfl, if_neg hnone, add_zero, gate_cellCorr hsum, ← ite_and]
          simp only [mem_comparedCells_abJoin hU hb hna, SumPartner, hb, if_true, sideCorr, and_assoc]
      | b =>
          have hsome : Tile.mergeTargetB J.info = some .b := hside.resolve_left nofun
          rw [if_neg nofun, if_pos hsome, zero_add, gate_cellCorr hsum, ← ite_and]
          simp only [mem_comparedCells_abJoin hU hb hna, SumPartner, hb, if_true, sideCorr, and_assoc]
  | false =>
      have htarget := mergeTargetB_self hb hentry
      have hzone : 0 < exclusionZone J.info.mpWindow := by
        have := J.three_le_window
        unfold exclusionZone
        omega
      cases side with
      | a =>
          -- both triangles go into one profile, unless the rows are kept apart
          have hcorr : sideCorr J .a i j = J.pearson i j := pearson_comm (seriesB_of_self hb) j i
          rw [if_pos rfl, cellCorr_comm (seriesB_of_self hb) j i, gate_cellCorr hsum, hcorr, htarget, ← ite_and, ← ite_and]
          simp only [mem_comparedCells_selfJoin hU hb]
          rcases Bool.eq_false_or_eq_true J.args.keepRowsSeparate with hkeep | hkeep
          · have hpartner : SumPartner J .a i j ↔ LeftPartner J i j := by simp [SumPartner, hb, hkeep]
            simp only [hkeep, if_true, reduceCtorEq, Option.some.injEq, false_and, if_false, add_zero]
            refine if_congr ?_ rfl rfl
            rw [hpartner]
            simp only [LeftPartner, and_assoc]
          · have hpartner : SumPartner J .a i j ↔ Partner J i j := by simp [SumPartner, hb, hkeep]
            simp only [hkeep, Bool.false_eq_true, if_false, true_and, ← ite_and]
            refine ite_add_ite ?_ (fun h h' => ?_) _
            · -- a partner is on one side of the band or on the other, not on both
              rw [hpartner]
              unfold Partner OutsideBand
              constructor
              · rintro ⟨⟨hi, hj, hout, hvalid⟩, hlt⟩
                rcases hout with hout | hout
                · exact Or.inr ⟨⟨hj, hout⟩, hvalid, hlt⟩
                · exact Or.inl ⟨⟨hi, hout⟩, hvalid, hlt⟩
              · rintro (⟨⟨hi, hout⟩, hvalid, hlt⟩ | ⟨⟨hj, hout⟩, hvalid, hlt⟩)
                · exact ⟨⟨hi, by omega, Or.inr hout, hvalid⟩, hlt⟩
                · exact ⟨⟨by omega, hj, Or.inl hout, hvalid⟩, hlt⟩
            · omega
      | b =>
          have hsome : Tile.mergeTargetB J.info = some .b := hside.resolve_left nofun
          rw [if_neg nofun, if_pos hsome, zero_add, gate_cellCorr hsum, ← ite_and]
          simp only [mem_comparedCells_selfJoin hU hb, SumPartner, hb, Bool.false_eq_true, if_false,
            sideCorr, RightPartner, and_assoc]

open Classical in
/-- The sum an entry ends with, were each block's correlations gated only once. -/
theorem sum_offered (hjoin : J.args.hasB = false ∨ J.args.isAligned = false) {U : ℕ} (hU : 0 < U)
    {side : Side} (hside : Computed J side) (i : ℕ) :
    ((offered J U side (getTiles J.info) (getTiles J.info) i).map
        (gatedSum J.args.distanceThreshold)).sum =
      ∑ j ∈ Finset.range (max J.info.numRows J.info.numCols),
        if SumPartner J side i j ∧ J.args.distanceThreshold < sideCorr J side i j then sideCorr J side i j
        else 0 := by
  have hadds : addsUp J.args.profileType = true := by rw [hsum]; rfl
  have hnodup := nodup_comparedCells_sum hU hadds hjoin
  have hgrid : ∀ z ∈ comparedCells U J.info, z.1 < J.info.numRows ∧ z.2 < J.info.numCols := by
    rintro ⟨r, c⟩ hz
    obtain ⟨t, ht, hcell⟩ := List.mem_flatMap.mp hz
    exact ((inTile_iff J).mp (inTile_of_mem_tileCells hU ht hcell)).2
  have hhits := sum_hitsOf (fun h => gate J.args.distanceThreshold h.corr)
    (offered J U side (getTiles J.info) (getTiles J.info) i)
  rw [hitsOf_offered hU, Multiset.map_add, Multiset.sum_add] at hhits
  refine hhits.symm.trans ?_
  have hcolumns := sum_columnHits hnodup (gate J.args.distanceThreshold) J.cellCorr
    (fun z hz => lt_max_of_lt_left (hgrid z hz).1 : ∀ z ∈ _, z.1 < max J.info.numRows J.info.numCols) i
  have hrows := sum_rowHits hnodup (gate J.args.distanceThreshold) J.cellCorr
    (fun z hz => lt_max_of_lt_right (hgrid z hz).2 : ∀ z ∈ _, z.2 < max J.info.numRows J.info.numCols) i
  have hif : ∀ (p : Prop) [Decidable p] (hs : Multiset (Hit ℝ)) (f : ℕ → ℝ) (n : ℕ),
      (hs.map fun h => gate J.args.distanceThreshold h.corr).sum = ∑ j ∈ Finset.range n, f j →
      ((if p then hs else 0).map fun h => gate J.args.distanceThreshold h.corr).sum =
        ∑ j ∈ Finset.range n, if p then f j else 0 := by
    intro p _ hs f n h
    by_cases hp : p
    · simp only [if_pos hp, h]
    · simp only [if_neg hp, Multiset.map_zero, Multiset.sum_zero, Finset.sum_const_zero]
  rw [hif _ _ _ _ hcolumns, hif _ _ _ _ hrows, ← Finset.sum_add_distrib]
  exact Finset.sum_congr rfl fun j _ => offered_cell hsum hjoin hU hside i j

/-- **An entry of a returned run** is right exactly when no block offered to it is dropped. -/
theorem sumEntry_iff (hjoin : J.args.hasB = false ∨ J.args.isAligned = false) {memory : ℕ → Tile ℝ}
    {s : OpState ℝ} (hrun : J.Run bld memory s) (hreturned : J.Returned s) {side : Side}
    (hside : Computed J side) (i : ℕ) : SumEntry J s side i ↔ NoBlockDropped J bld.unrollWid side i := by
  unfold SumEntry NoBlockDropped
  rw [returned_sum hsum hrun hreturned hside, ← sum_offered hsum hjoin (unrollWid_pos bld) hside,
    Dbl.num.injEq, eq_comm]
  exact sums_agree_iff _

end

/-- **What a `SUM_THRESH` join adds up.** In a self-join, or an AB-join that is not aligned, the tiles stay inside
    their arrays and every entry ends as the sum of the correlations above the threshold, each counted once, if
    and only if the `int`s that hold lengths are large enough and the threshold is not negative or no block
    offered to an entry is dropped. -/
theorem sumThresh_sums_iff (J : Join ℝ) (bld : Build ℝ) (hsum : J.args.profileType = .sumThresh)
    (hjoin : J.args.hasB = false ∨ J.args.isAligned = false) (memory : ℕ → Tile ℝ) (s : OpState ℝ)
    (hrun : J.Run bld memory s) (hreturned : J.Returned s) :
    (TilesInBounds J.args J.info ∧ ∀ side, Computed J side → ∀ i, SumEntry J s side i) ↔
      FitsInt J.info ∧ ∀ side, Computed J side → ∀ i, NoBlockDropped J bld.unrollWid side i := by
  refine and_congr ?_ (forall_congr' fun _ => forall_congr' fun hside => forall_congr' fun i =>
    sumEntry_iff hsum hjoin hrun hreturned hside i)
  exact inBounds_iff_fitsInt J.args J.numThreads J.threads_pos J.valid (Or.inr (Or.inr hsum)) J.type_a J.type_b

/-- The self-join of `twoWindowJoin`, adding up the correlations above zero. -/
noncomputable def sumJoin : Join ℝ where
  args := selfJoinArgs .sumThresh ⟨4, fun i => .finite (if i = 0 ∨ i = 3 then 1 else 0)⟩ 3
  numThreads := 2
  threads_pos := Nat.two_pos
  valid := rfl
  columns := rfl
  rows_self := fun _ => rfl
  rows_ab := fun h => absurd h (by simp [selfJoinArgs])
  type_a := rfl
  type_b := fun _ => rfl

theorem sumThresh_sums_iff_twoWindow : ∃ s, sumJoin.Run scanBuild (fun _ => zeroTile) s ∧
    sumJoin.Returned s ∧ TilesInBounds sumJoin.args sumJoin.info ∧
      ∀ side, Computed sumJoin side → ∀ i, SumEntry sumJoin s side i := by
  have hstart : StateOK sumJoin scanBuild (sumJoin.initState fun _ => zeroTile) :=
    stateOK_init rfl fun _ => zeroTile
  obtain ⟨s, hrun, hreturned⟩ := runs_return rfl (Or.inl rfl) hstart
  have hfits : FitsInt sumJoin.info := by
    have htile : tileTsSize 4 4 3 128000 2 ≤ maxInt + 1 := by decide +kernel
    have hcols : sumJoin.info.numCols = 2 := rfl
    have hrows : sumJoin.info.numRows = 2 := rfl
    refine ⟨htile, ?_, ?_, fun _ => ⟨?_, ?_⟩⟩ <;> rw [maxInt]
    · rw [hcols]
      split <;> omega
    · rw [hrows]
      split <;> omega
    · omega
    · omega
  exact ⟨s, hrun, hreturned, (sumThresh_sums_iff sumJoin scanBuild rfl (Or.inl rfl) _ s hrun hreturned).mpr
    ⟨hfits, fun _ _ _ => Or.inl (le_refl 0)⟩⟩

/-! ## A block that is dropped -/

/-- An AB-join of one window with two, with a threshold below zero. Both correlations are `-1/2`. -/
noncomputable def droppedJoin : Join ℝ where
  args := { abJoinArgs .sumThresh ⟨3, fun i => .finite (if i = 0 then 1 else 0)⟩
    ⟨4, fun i => .finite (if i = 2 then 1 else 0)⟩ 3 with distanceThreshold := -9 / 10 }
  numThreads := 2
  threads_pos := Nat.two_pos
  valid := rfl
  columns := rfl
  rows_self := fun h => absurd h (by simp [abJoinArgs])
  rows_ab := fun _ => rfl
  type_a := rfl
  type_b := fun _ => rfl

theorem droppedJoin_ssd {r : ℕ} (hr : r < 2) : ssd (cleanSeries droppedJoin.seriesA) 3 0 = 2 / 3 ∧
    ssd (cleanSeries droppedJoin.seriesB) 3 r = 2 / 3 := by
  have hA : droppedJoin.seriesA = ⟨3, fun i => .finite (if i = 0 then 1 else 0)⟩ := rfl
  have hB : droppedJoin.seriesB = ⟨4, fun i => .finite (if i = 2 then 1 else 0)⟩ := rfl
  rw [hA, hB]
  unfold ssd windowMean windowSum cleanSeries
  rcases (by omega : r = 0 ∨ r = 1) with rfl | rfl <;>
    · simp [-Finset.sum_boole, Finset.sum_range_succ, Sample.cleaned]
      norm_num

theorem droppedJoin_valid {r : ℕ} (hr : r < 2) : droppedJoin.ValidCell r 0 := by
  obtain ⟨hA, hB⟩ := droppedJoin_ssd hr
  refine ⟨⟨fun j _ => rfl, ?_⟩, fun j _ => rfl, ?_⟩
  · show flatnessEpsilon < ssd _ 3 0
    rw [hA]
    unfold flatnessEpsilon
    norm_num
  · show flatnessEpsilon < ssd _ 3 r
    rw [hB]
    unfold flatnessEpsilon
    norm_num

theorem droppedJoin_cellCorr {r : ℕ} (hr : r < 2) : droppedJoin.cellCorr r 0 = -1 / 2 := by
  obtain ⟨hA, hB⟩ := droppedJoin_ssd hr
  have hdot : cdot (cleanSeries droppedJoin.seriesA) (cleanSeries droppedJoin.seriesB) 3 0 r = -1 / 3 := by
    have hA : droppedJoin.seriesA = ⟨3, fun i => .finite (if i = 0 then 1 else 0)⟩ := rfl
    have hB : droppedJoin.seriesB = ⟨4, fun i => .finite (if i = 2 then 1 else 0)⟩ := rfl
    rw [hA, hB]
    unfold cdot windowMean windowSum cleanSeries
    rcases (by omega : r = 0 ∨ r = 1) with rfl | rfl <;>
      · simp [-Finset.sum_boole, Finset.sum_range_succ, Sample.cleaned]
        norm_num
  unfold Join.cellCorr
  rw [if_pos (droppedJoin_valid hr)]
  show cdot _ _ 3 0 r / (Real.sqrt (ssd _ 3 0) * Real.sqrt (ssd _ 3 r)) = _
  rw [hdot, hA, hB, Real.mul_self_sqrt (by norm_num)]
  norm_num

theorem droppedJoin_tiles : getTiles droppedJoin.info = [(0, 0)] := by
  have h1 : droppedJoin.info.numTileRows = 1 := by rfl
  have h2 : droppedJoin.info.numTileCols = 1 := by rfl
  show abJoinTiles droppedJoin.info.numTileRows droppedJoin.info.numTileCols = _
  rw [h1, h2]
  rfl

/-- The only block of the join: the single row of its transposed pass, with both correlations. -/
theorem droppedJoin_block : [⟨-1 / 2, 0⟩, ⟨-1 / 2, 1⟩] ∈
    offered droppedJoin 256 .a (getTiles droppedJoin.info) (getTiles droppedJoin.info) 0 := by
  have hdims : passDims droppedJoin (0, 0) true = ⟨2, 1, 0, 0⟩ := by rfl
  have hrow : rowBlock (passVal droppedJoin (0, 0) true 0) 0 2 = [⟨-1 / 2, 0⟩, ⟨-1 / 2, 1⟩] := by
    show [(⟨droppedJoin.cellCorr 0 0, 0⟩ : Hit ℝ), ⟨droppedJoin.cellCorr 1 0, 1⟩] = _
    rw [droppedJoin_cellCorr (by omega), droppedJoin_cellCorr (by omega)]
  have hpass : rowBlock (passVal droppedJoin (0, 0) true 0) 0 2 ∈
      passBlocksA droppedJoin 256 (0, 0) true 0 := by
    unfold passBlocksA
    rw [hdims, if_pos (by decide), if_pos rfl]
    refine Multiset.mem_bind.mpr ⟨0, ?_, Multiset.mem_bind.mpr ⟨0, by decide, ?_⟩⟩
    · exact Multiset.mem_coe.mpr ((mem_forRange (by decide)).mpr ⟨by decide, 0, rfl⟩)
    · show _ ∈ ({rowBlock (fun d => passVal droppedJoin (0, 0) true 0 (0 + 0 + d)) (0 + 0) 2} : Multiset _)
      simp only [Nat.zero_add, Multiset.mem_singleton]
  have htile : (0, 0) ∈ getTiles droppedJoin.info := droppedJoin_tiles ▸ List.mem_cons_self
  unfold offered
  rw [if_pos rfl]
  refine Multiset.mem_add.mpr (Or.inl (Multiset.mem_bind.mpr ⟨(0, 0), Multiset.mem_coe.mpr htile, ?_⟩))
  unfold columnOffer
  rw [if_pos ⟨by decide, by decide⟩]
  refine Multiset.mem_map.mpr ⟨_, Multiset.mem_bind.mpr ⟨true, ?_, hpass⟩, ?_⟩
  · rw [tilePasses_abJoin rfl]
    exact Multiset.mem_coe.mpr (List.mem_cons_of_mem _ List.mem_cons_self)
  · rw [hrow]
    rfl

/-- **A block is dropped.** The entry stays zero, where the sum of the two correlations is `-1`. -/
theorem droppedJoin_entry : ∃ s, droppedJoin.Run scanBuild (fun _ => zeroTile) s ∧
    droppedJoin.Returned s ∧ ¬SumEntry droppedJoin s .a 0 := by
  have hstart : StateOK droppedJoin scanBuild (droppedJoin.initState fun _ => zeroTile) :=
    stateOK_init rfl fun _ => zeroTile
  obtain ⟨s, hrun, hreturned⟩ := runs_return rfl (Or.inl rfl) hstart
  refine ⟨s, hrun, hreturned, fun hentry => ?_⟩
  rcases (sumEntry_iff rfl (Or.inr rfl) hrun hreturned (Or.inl rfl) 0).mp hentry with hneg | hblocks
  · have hthreshold : droppedJoin.args.distanceThreshold = -9 / 10 := rfl
    rw [hthreshold] at hneg
    norm_num at hneg
  · have hsum := hblocks _ droppedJoin_block
    have hthreshold : droppedJoin.args.distanceThreshold = -9 / 10 := rfl
    rw [hthreshold] at hsum
    unfold gatedSum gate at hsum
    norm_num at hsum

end Scamp
