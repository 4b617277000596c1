import Scamp.Gpu.Neighbors
import Scamp.Lib.TopK

/-!
# `Gpu.Correctness.MatchQueues` — merging matches, column by column

What `match_merge` and `threshold_merge` do to one column: the queue becomes the top `max_matches` list of
what it held and the new matches (`corrs_matchMerge`), and the threshold, if it changes, becomes a
correlation that the queue has made superfluous (`threshold_matchMerge`), or one of the matches that were
left over (`threshold_thresholdMerge`).
-/

namespace Scamp

open Lib

section
variable {K : Type}

/-- The correlations of a list of matches. -/
def corrsOf (ms : List (SCAMPmatch K)) : Multiset K := (ms.map SCAMPmatch.corr : List K)

@[simp] theorem corrsOf_nil : corrsOf ([] : List (SCAMPmatch K)) = 0 := rfl

@[simp] theorem corrsOf_cons (m : SCAMPmatch K) (ms : List (SCAMPmatch K)) :
    corrsOf (m :: ms) = m.corr ::ₘ corrsOf ms := rfl

theorem mem_corrsOf {ms : List (SCAMPmatch K)} {x : K} : x ∈ corrsOf ms ↔ ∃ m ∈ ms, m.corr = x := by
  unfold corrsOf
  rw [Multiset.mem_coe, List.mem_map]

end

section
variable {K : Type} [LinearOrder K]

/-! ## Sorted matches -/

/-- The list is one that sorting by `operator<` can give. -/
def SortedMatches (ms : List (SCAMPmatch K)) : Prop := ms.Pairwise fun x y => y.lt x = false

theorem SCAMPmatch.lt_eq_false_iff {x y : SCAMPmatch K} :
    y.lt x = false ↔ x.col < y.col ∨ (x.col = y.col ∧ y.corr ≤ x.corr) := by
  unfold SCAMPmatch.lt
  split
  · next h =>
      rw [decide_eq_false_iff_not, not_lt]
      constructor
      · intro hle
        exact Or.inr ⟨h.symm, hle⟩
      · rintro (hlt | ⟨_, hle⟩)
        · omega
        · exact hle
  · next h =>
      rw [decide_eq_false_iff_not]
      constructor
      · intro hlt
        exact Or.inl (by omega)
      · rintro (hlt | ⟨heq, _⟩) <;> omega

theorem SortedMatches.cols {ms : List (SCAMPmatch K)} (h : SortedMatches ms) :
    ms.Pairwise fun x y => x.col ≤ y.col :=
  h.imp fun hxy => by
    rcases SCAMPmatch.lt_eq_false_iff.mp hxy with hlt | ⟨heq, _⟩ <;> omega

/-- The matches of the column that is `pos` columns from the start of the profile, for a tile that starts
    `start` columns from it. -/
def columnMatches (start pos : ℕ) (ms : List (SCAMPmatch K)) : List (SCAMPmatch K) :=
  ms.filter fun m => m.col + start = pos

/-- The matches of a column come in descending order. -/
theorem SortedMatches.column {ms : List (SCAMPmatch K)} (h : SortedMatches ms) (start pos : ℕ) :
    (columnMatches start pos ms).Pairwise fun x y => y.corr ≤ x.corr := by
  refine List.Pairwise.imp_of_mem ?_ (h.filter _)
  intro x y hx hy hxy
  have hx := of_decide_eq_true (List.mem_filter.mp hx).2
  have hy := of_decide_eq_true (List.mem_filter.mp hy).2
  rcases SCAMPmatch.lt_eq_false_iff.mp hxy with hlt | ⟨_, hle⟩
  · omega
  · exact hle

/-! ## Queues -/

namespace MatchQueue

/-- The correlations in a queue. -/
def corrs (q : MatchQueue K) : Multiset K := corrsOf q.entries

@[simp] theorem card_corrs (q : MatchQueue K) : q.corrs.card = q.size := List.length_map ..

@[simp] theorem corrs_empty : (empty : MatchQueue K).corrs = 0 := rfl

theorem entries_emplace (q : MatchQueue K) (corr : K) (row col : ℕ) :
    ((q.emplace corr row col).entries : Multiset (SCAMPmatch K)) =
      ⟨corr, row % 2 ^ 32, col % 2 ^ 32⟩ ::ₘ (q.entries : Multiset (SCAMPmatch K)) :=
  Multiset.coe_eq_coe.mpr (List.perm_orderedInsert _ _ _)

@[simp] theorem corrs_emplace (q : MatchQueue K) (corr : K) (row col : ℕ) :
    (q.emplace corr row col).corrs = corr ::ₘ q.corrs := by
  have := congrArg (Multiset.map SCAMPmatch.corr) (entries_emplace q corr row col)
  rwa [Multiset.map_coe, Multiset.map_cons, Multiset.map_coe] at this

/-- The top of a queue is its least match. -/
theorem top_eq_some {q : MatchQueue K} {worst : SCAMPmatch K} (h : q.top = some worst) :
    q.entries = worst :: q.pop.entries ∧ ∀ x ∈ q.pop.corrs, worst.corr ≤ x := by
  obtain ⟨rest, hrest⟩ := List.head?_eq_some_iff.mp h
  have htail : q.pop.entries = rest := by
    show q.entries.tail = rest
    rw [hrest, List.tail_cons]
  have hsorted := q.sorted
  rw [hrest] at hsorted
  refine ⟨by rw [htail, hrest], fun x hx => ?_⟩
  obtain ⟨m, hm, rfl⟩ := mem_corrsOf.mp hx
  rw [htail] at hm
  exact (List.pairwise_cons.mp hsorted).1 m hm

theorem corrs_of_top {q : MatchQueue K} {worst : SCAMPmatch K} (h : q.top = some worst) :
    q.corrs = worst.corr ::ₘ q.pop.corrs := by
  unfold corrs
  rw [(top_eq_some h).1, corrsOf_cons]

theorem exists_top {q : MatchQueue K} (h : 0 < q.size) : ∃ worst, q.top = some worst := by
  unfold size at h
  unfold top
  exact ⟨_, List.head?_eq_some_head (List.ne_nil_of_length_pos h)⟩

end MatchQueue

/-! ## `match_merge` -/

section
variable (mergeStartRow mergeStartCol maxMatches : ℕ)

/-- A match in the positions of the whole join. -/
def globalMatch (m : SCAMPmatch K) : SCAMPmatch K :=
  ⟨m.corr, (m.row + mergeStartRow) % 2 ^ 32, (m.col + mergeStartCol) % 2 ^ 32⟩

/-- The loop only sees the matches of its column. -/
theorem mergeMatches_takeWhile (currCol : ℕ) (ms : List (SCAMPmatch K)) :
    ∀ count pq oldVal,
      mergeMatches mergeStartRow mergeStartCol maxMatches currCol ms count pq oldVal =
        mergeMatches mergeStartRow mergeStartCol maxMatches currCol (ms.takeWhile fun m => m.col = currCol)
          count pq oldVal := by
  induction ms with
  | nil =>
      intro count pq oldVal
      rfl
  | cons m rest ih =>
      intro count pq oldVal
      by_cases hcol : m.col = currCol
      · rw [List.takeWhile_cons_of_pos (by simpa using hcol)]
        unfold mergeMatches
        simp only [ih]
      · rw [List.takeWhile_cons_of_neg (by simpa using hcol)]
        unfold mergeMatches
        rw [if_neg fun h => hcol h.1]

variable {mergeStartRow mergeStartCol maxMatches}

/-- **The queue after the loop** holds the top `max_matches` list. `count` matches have been seen before: the
    loop looks at no more than `max_matches` in all. -/
theorem corrs_mergeMatches {currCol : ℕ} (ms : List (SCAMPmatch K)) (hcol : ∀ m ∈ ms, m.col = currCol)
    (hdesc : ms.Pairwise fun x y => y.corr ≤ x.corr) :
    ∀ count pq oldVal, pq.size ≤ maxMatches →
      (mergeMatches mergeStartRow mergeStartCol maxMatches currCol ms count pq oldVal).1.corrs =
        topK maxMatches (pq.corrs + corrsOf (ms.take (maxMatches - count))) := by
  induction ms with
  | nil =>
      intro count pq oldVal hsize
      rw [List.take_nil, corrsOf_nil, add_zero]
      exact topK_of_card_le (by rwa [MatchQueue.card_corrs])
  | cons m rest ih =>
      intro count pq oldVal hsize
      obtain ⟨hm, hrest⟩ := List.pairwise_cons.mp hdesc
      have ih := ih (fun x hx => hcol x (List.mem_cons_of_mem m hx)) hrest
      unfold mergeMatches
      by_cases hcount : count < maxMatches
      · rw [if_pos ⟨hcol m List.mem_cons_self, hcount⟩,
          show maxMatches - count = maxMatches - (count + 1) + 1 by omega, List.take_succ_cons, corrsOf_cons,
          Multiset.add_cons]
        by_cases hfull : pq.size = maxMatches
        · rw [if_pos hfull]
          obtain ⟨worst, hworst⟩ := MatchQueue.exists_top (show 0 < pq.size by omega)
          have hcorrs := MatchQueue.corrs_of_top hworst
          have hcard : (worst.corr ::ₘ pq.pop.corrs).card = maxMatches := by
            rw [← hcorrs, MatchQueue.card_corrs, hfull]
          simp only [hworst]
          split
          · next hle =>
              -- the rest is no better than the worst of the queue
              rw [← Multiset.add_cons]
              refine topK_add_of_full (x := worst.corr) (by rw [MatchQueue.card_corrs, hfull]) ?_ ?_
              · intro z hz
                rw [hcorrs] at hz
                rcases Multiset.mem_cons.mp hz with rfl | hz
                · exact le_refl _
                · exact (MatchQueue.top_eq_some hworst).2 z hz
              · intro y hy
                rcases Multiset.mem_cons.mp hy with rfl | hy
                · exact hle
                · obtain ⟨x, hx, rfl⟩ := mem_corrsOf.mp hy
                  exact (hm x (List.mem_of_mem_take hx)).trans hle
          · next hgt =>
              have hnew : (pq.pop.emplace m.corr (m.row + mergeStartRow) (m.col + mergeStartCol)).corrs =
                  topK maxMatches (m.corr ::ₘ pq.corrs) := by
                rw [MatchQueue.corrs_emplace, hcorrs]
                exact topK_cons_of_full hcard (MatchQueue.top_eq_some hworst).2 (not_le.mp hgt)
              have hsize' := congrArg Multiset.card hnew
              rw [MatchQueue.card_corrs, card_topK] at hsize'
              rw [ih _ _ _ (by omega), hnew, topK_topK_add, Multiset.cons_add]
        · rw [if_neg hfull, ih _ _ _ ?_, MatchQueue.corrs_emplace, Multiset.cons_add]
          have hsize' := congrArg Multiset.card (MatchQueue.corrs_emplace pq m.corr (m.row + mergeStartRow)
            (m.col + mergeStartCol))
          rw [MatchQueue.card_corrs, Multiset.card_cons, MatchQueue.card_corrs] at hsize'
          omega
      · rw [if_neg fun h => hcount h.2, show maxMatches - count = 0 by omega, List.take_zero, corrsOf_nil,
          add_zero]
        exact topK_of_card_le (by rwa [MatchQueue.card_corrs])

/-- What `old_val` is after the loop: a match that had to leave the queue, which is full of matches that are
    no worse. -/
theorem oldVal_mergeMatches {currCol : ℕ} (ms : List (SCAMPmatch K)) (hcol : ∀ m ∈ ms, m.col = currCol)
    (hdesc : ms.Pairwise fun x y => y.corr ≤ x.corr) :
    ∀ count pq oldVal, pq.size ≤ maxMatches → ∀ w,
      (mergeMatches mergeStartRow mergeStartCol maxMatches currCol ms count pq oldVal).2 = some w →
      oldVal = some w ∨ (w ∈ pq.corrs + corrsOf ms ∧
        maxMatches ≤ countGE
          (mergeMatches mergeStartRow mergeStartCol maxMatches currCol ms count pq oldVal).1.corrs w) := by
  induction ms with
  | nil =>
      intro count pq oldVal _ w hw
      exact Or.inl hw
  | cons m rest ih =>
      intro count pq oldVal hsize w
      obtain ⟨hm, hrest⟩ := List.pairwise_cons.mp hdesc
      have hcolRest := fun x hx => hcol x (List.mem_cons_of_mem m hx)
      have ih := ih hcolRest hrest
      unfold mergeMatches
      by_cases hcount : count < maxMatches
      · rw [if_pos ⟨hcol m List.mem_cons_self, hcount⟩]
        by_cases hfull : pq.size = maxMatches
        · rw [if_pos hfull]
          obtain ⟨worst, hworst⟩ := MatchQueue.exists_top (show 0 < pq.size by omega)
          have hcorrs := MatchQueue.corrs_of_top hworst
          simp only [hworst]
          split
          · exact Or.inl
          · next hgt =>
              intro hw
              have hcard := congrArg Multiset.card hcorrs
              rw [Multiset.card_cons, MatchQueue.card_corrs, MatchQueue.card_corrs] at hcard
              have hnew := MatchQueue.corrs_emplace pq.pop m.corr (m.row + mergeStartRow)
                (m.col + mergeStartCol)
              have hsize' := congrArg Multiset.card hnew
              rw [Multiset.card_cons, MatchQueue.card_corrs, MatchQueue.card_corrs] at hsize'
              refine Or.inr ?_
              rcases ih _ _ _ (by omega) w hw with heq | ⟨hmem, hle⟩
              · -- the match that has just left
                obtain rfl := Option.some.inj heq
                refine ⟨?_, ?_⟩
                · rw [hcorrs]
                  exact Multiset.mem_add.mpr (Or.inl (Multiset.mem_cons_self _ _))
                · have hall : ∀ x ∈ (pq.pop.emplace m.corr (m.row + mergeStartRow)
                      (m.col + mergeStartCol)).corrs, worst.corr ≤ x := by
                    intro x hx
                    rw [hnew] at hx
                    rcases Multiset.mem_cons.mp hx with rfl | hx
                    · exact (not_le.mp hgt).le
                    · exact (MatchQueue.top_eq_some hworst).2 x hx
                  have hcount := countGE_of_forall_le hall
                  rw [MatchQueue.card_corrs] at hcount
                  rw [corrs_mergeMatches rest hcolRest hrest _ _ _ (by omega), countGE_topK, countGE_add]
                  omega
              · refine ⟨?_, hle⟩
                rw [hnew] at hmem
                rw [hcorrs, corrsOf_cons]
                simp only [Multiset.mem_add, Multiset.mem_cons] at hmem ⊢
                tauto
        · rw [if_neg hfull]
          intro hw
          have hnew := MatchQueue.corrs_emplace pq m.corr (m.row + mergeStartRow) (m.col + mergeStartCol)
          have hsize' := congrArg Multiset.card hnew
          rw [Multiset.card_cons, MatchQueue.card_corrs, MatchQueue.card_corrs] at hsize'
          refine (ih _ _ _ (by omega) w hw).imp_right ?_
          rintro ⟨hmem, hle⟩
          refine ⟨?_, hle⟩
          rw [hnew] at hmem
          rw [corrsOf_cons]
          simp only [Multiset.mem_add, Multiset.mem_cons] at hmem ⊢
          tauto
      · rw [if_neg fun h => hcount h.2]
        exact Or.inl

/-- The queue holds matches that were in it, and new ones. -/
theorem entries_mergeMatches {currCol : ℕ} (ms : List (SCAMPmatch K)) :
    ∀ count pq oldVal,
      ((mergeMatches mergeStartRow mergeStartCol maxMatches currCol ms count pq oldVal).1.entries :
          Multiset (SCAMPmatch K)) ≤
        pq.entries + (ms.map (globalMatch mergeStartRow mergeStartCol) : List (SCAMPmatch K)) := by
  induction ms with
  | nil =>
      intro count pq oldVal
      exact Multiset.le_add_right _ _
  | cons m rest ih =>
      intro count pq oldVal
      rw [List.map_cons, ← Multiset.cons_coe]
      unfold mergeMatches
      split
      · split
        · split
          · next worst hworst =>
              split
              · exact Multiset.le_add_right _ _
              · refine (ih _ _ _).trans ?_
                rw [MatchQueue.entries_emplace, (MatchQueue.top_eq_some hworst).1, ← Multiset.cons_coe,
                  Multiset.cons_add, Multiset.add_cons, Multiset.cons_add]
                exact Multiset.cons_le_cons _ (Multiset.le_cons_self _ _)
          · exact Multiset.le_add_right _ _
        · refine (ih _ _ _).trans ?_
          rw [MatchQueue.entries_emplace, Multiset.cons_add, Multiset.add_cons]
          exact le_refl _
      · exact Multiset.le_add_right _ _

/-! ## One column of a merge -/

variable (mergeStartRow mergeStartCol maxMatches) in
/-- What `match_merge` does to the queue and the threshold of a column, given the matches of the column. -/
def mergeSlot (slot : MatchQueue K × K) : List (SCAMPmatch K) → MatchQueue K × K
  | [] => slot
  | m :: rest =>
      let merged := mergeMatches mergeStartRow mergeStartCol maxMatches m.col (m :: rest) 0 slot.1 none
      (merged.1, merged.2.getD slot.2)

/-- The queue and the threshold of a column. -/
def NeighborProfile.slot (p : NeighborProfile K) (pos : ℕ) : MatchQueue K × K :=
  (p.matchValue.get pos, p.thresholds.get pos)

theorem slot_matchMergeColumn (p : NeighborProfile K) (m : SCAMPmatch K) (rest : List (SCAMPmatch K)) :
    (matchMergeColumn mergeStartRow mergeStartCol maxMatches p (m :: rest)).slot (m.col + mergeStartCol) =
      mergeSlot mergeStartRow mergeStartCol maxMatches (p.slot (m.col + mergeStartCol))
        (m :: rest.takeWhile fun y => y.col = m.col) := by
  have hgroup := mergeMatches_takeWhile mergeStartRow mergeStartCol maxMatches m.col (m :: rest) 0
    (p.matchValue.get (m.col + mergeStartCol)) none
  rw [List.takeWhile_cons_of_pos (by simp)] at hgroup
  unfold matchMergeColumn mergeSlot NeighborProfile.slot
  dsimp only
  rw [hgroup, Vec.get_set, if_pos rfl]
  congr 1
  cases (mergeMatches mergeStartRow mergeStartCol maxMatches m.col
    (m :: rest.takeWhile fun y => y.col = m.col) 0 (p.matchValue.get (m.col + mergeStartCol)) none).2 with
  | none => rfl
  | some oldVal =>
      dsimp only [Option.getD_some]
      rw [Vec.get_set, if_pos rfl]

theorem slot_matchMergeColumn_of_ne (p : NeighborProfile K) (m : SCAMPmatch K) (rest : List (SCAMPmatch K))
    {pos : ℕ} (h : pos ≠ m.col + mergeStartCol) :
    (matchMergeColumn mergeStartRow mergeStartCol maxMatches p (m :: rest)).slot pos = p.slot pos := by
  unfold matchMergeColumn NeighborProfile.slot
  dsimp only
  rw [Vec.get_set, if_neg h]
  congr 1
  split
  · rw [Vec.get_set, if_neg h]
  · rfl

variable (mergeStartRow mergeStartCol maxMatches) in
/-- **`match_merge`, column by column.** -/
theorem slot_matchMerge {ms : List (SCAMPmatch K)} (hsorted : SortedMatches ms) (p : NeighborProfile K)
    (pos : ℕ) :
    (matchMerge mergeStartRow mergeStartCol maxMatches p ms).slot pos =
      mergeSlot mergeStartRow mergeStartCol maxMatches (p.slot pos) (columnMatches mergeStartCol pos ms) := by
  unfold matchMerge
  rw [foldGroups_slot (· + mergeStartCol) (add_left_injective _) NeighborProfile.slot
    (mergeSlot mergeStartRow mergeStartCol maxMatches) slot_matchMergeColumn
    (fun p m rest i hi => slot_matchMergeColumn_of_ne p m rest hi) pos ms p hsorted.cols]
  unfold columnMatches
  split
  · next hnone => rw [hnone, mergeSlot]
  · rfl

variable (mergeStartRow mergeStartCol maxMatches) in
/-- The value that `match_merge` sets the threshold of a column to, if it does (`update_possible`). -/
def newThreshold (p : NeighborProfile K) (ms : List (SCAMPmatch K)) (pos : ℕ) : Option K :=
  match columnMatches mergeStartCol pos ms with
  | [] => none
  | m :: rest =>
      (mergeMatches mergeStartRow mergeStartCol maxMatches m.col (m :: rest) 0 (p.matchValue.get pos) none).2

omit [LinearOrder K] in
/-- The matches of one column have one column number. -/
theorem col_of_columnMatches {start pos : ℕ} {ms rest : List (SCAMPmatch K)} {m : SCAMPmatch K}
    (h : columnMatches start pos ms = m :: rest) : ∀ x ∈ m :: rest, x.col = m.col := by
  have hmem : ∀ x ∈ m :: rest, x.col + start = pos := by
    intro x hx
    rw [← h] at hx
    exact of_decide_eq_true (List.mem_filter.mp hx).2
  intro x hx
  have := hmem x hx
  have := hmem m List.mem_cons_self
  omega

section
variable {ms : List (SCAMPmatch K)} (hsorted : SortedMatches ms) {p : NeighborProfile K} {pos : ℕ}
include hsorted

/-- **The queue after `match_merge`** is the top `max_matches` list of the old queue and the new matches. -/
theorem corrs_matchMerge (hsize : (p.matchValue.get pos).size ≤ maxMatches) :
    ((matchMerge mergeStartRow mergeStartCol maxMatches p ms).matchValue.get pos).corrs =
      topK maxMatches ((p.matchValue.get pos).corrs + corrsOf (columnMatches mergeStartCol pos ms)) := by
  have hslot := congrArg Prod.fst (slot_matchMerge mergeStartRow mergeStartCol maxMatches hsorted p pos)
  have hdesc := hsorted.column mergeStartCol pos
  unfold NeighborProfile.slot at hslot
  dsimp only at hslot
  rw [hslot]
  cases hms : columnMatches mergeStartCol pos ms with
  | nil =>
      rw [mergeSlot, corrsOf_nil, add_zero]
      exact topK_of_card_le (by rwa [MatchQueue.card_corrs])
  | cons m rest =>
      have htop : corrsOf ((m :: rest).take maxMatches) = topK maxMatches (corrsOf (m :: rest)) := by
        unfold corrsOf
        rw [List.map_take]
        refine coe_take_eq_topK (List.pairwise_map.mpr ?_) maxMatches
        rw [← hms]
        exact hdesc
      rw [hms] at hdesc
      rw [mergeSlot, corrs_mergeMatches _ (col_of_columnMatches hms) hdesc 0 _ none hsize, Nat.sub_zero, htop,
        add_comm, topK_topK_add, add_comm]

/-- The threshold of a column changes only when `match_merge` sets it. -/
theorem threshold_matchMerge :
    (matchMerge mergeStartRow mergeStartCol maxMatches p ms).thresholds.get pos =
      (newThreshold mergeStartRow mergeStartCol maxMatches p ms pos).getD (p.thresholds.get pos) := by
  have hslot := congrArg Prod.snd (slot_matchMerge mergeStartRow mergeStartCol maxMatches hsorted p pos)
  unfold NeighborProfile.slot at hslot
  dsimp only at hslot
  rw [hslot]
  unfold newThreshold
  cases columnMatches mergeStartCol pos ms with
  | nil => rfl
  | cons m rest => rfl

/-- A threshold that `match_merge` sets is a match, and superfluous: the queue is full of matches that are no
    worse. -/
theorem newThreshold_superfluous (hsize : (p.matchValue.get pos).size ≤ maxMatches) {w : K}
    (hw : newThreshold mergeStartRow mergeStartCol maxMatches p ms pos = some w) :
    w ∈ (p.matchValue.get pos).corrs + corrsOf (columnMatches mergeStartCol pos ms) ∧
      maxMatches ≤ countGE
        ((matchMerge mergeStartRow mergeStartCol maxMatches p ms).matchValue.get pos).corrs w := by
  have hslot := congrArg Prod.fst (slot_matchMerge mergeStartRow mergeStartCol maxMatches hsorted p pos)
  have hdesc := hsorted.column mergeStartCol pos
  unfold NeighborProfile.slot at hslot
  dsimp only at hslot
  rw [hslot]
  unfold newThreshold at hw
  cases hms : columnMatches mergeStartCol pos ms with
  | nil =>
      rw [hms] at hw
      exact absurd hw (Option.some_ne_none w).symm
  | cons m rest =>
      rw [hms] at hw hdesc
      exact (oldVal_mergeMatches (m :: rest) (col_of_columnMatches hms) hdesc 0 _ none hsize w hw).resolve_left
        (Option.some_ne_none w).symm

/-- The queue after `match_merge` holds matches that were in it, and new ones. -/
theorem entries_matchMerge :
    (((matchMerge mergeStartRow mergeStartCol maxMatches p ms).matchValue.get pos).entries :
        Multiset (SCAMPmatch K)) ≤
      (p.matchValue.get pos).entries +
        ((columnMatches mergeStartCol pos ms).map (globalMatch mergeStartRow mergeStartCol) :
          List (SCAMPmatch K)) := by
  have hslot := congrArg Prod.fst (slot_matchMerge mergeStartRow mergeStartCol maxMatches hsorted p pos)
  unfold NeighborProfile.slot at hslot
  dsimp only at hslot
  rw [hslot]
  cases columnMatches mergeStartCol pos ms with
  | nil => exact Multiset.le_add_right _ _
  | cons m rest => exact entries_mergeMatches (m :: rest) 0 _ none

end

/-! ## One column of a raise -/

/-- The threshold of a column after `threshold_merge`, given the matches of the column. -/
def raisedThreshold (maxMatches : ℕ) (threshold : K) (ms : List (SCAMPmatch K)) : K :=
  match ms[maxMatches]? with
  | some x => if maxMatches < ms.length - 1 ∧ threshold < x.corr then x.corr else threshold
  | none => threshold

theorem slot_thresholdMergeColumn (p : NeighborProfile K) (m : SCAMPmatch K) (rest : List (SCAMPmatch K)) :
    (thresholdMergeColumn mergeStartCol maxMatches p (m :: rest)).slot (m.col + mergeStartCol) =
      ((p.slot (m.col + mergeStartCol)).1,
        raisedThreshold maxMatches (p.slot (m.col + mergeStartCol)).2
          (m :: rest.takeWhile fun y => y.col = m.col)) := by
  have hgroup : (m :: rest).takeWhile (fun y => y.col = m.col) =
      m :: rest.takeWhile fun y => y.col = m.col := List.takeWhile_cons_of_pos (by simp)
  have hfront := List.takeWhile_prefix (fun y => decide (y.col = m.col)) (l := m :: rest)
  unfold thresholdMergeColumn raisedThreshold
  dsimp only
  rw [hgroup] at hfront ⊢
  generalize hg : (m :: rest.takeWhile fun y => decide (y.col = m.col)) = group at hfront ⊢
  by_cases hcount : maxMatches < group.length - 1
  · -- the match that decides is one of the group
    have hlt : maxMatches < group.length := by omega
    have hget : (m :: rest)[maxMatches]? = some group[maxMatches] := by
      rw [hfront.getElem hlt]
      exact List.getElem?_eq_getElem _
    rw [hget, List.getElem?_eq_getElem hlt]
    unfold NeighborProfile.slot
    dsimp only
    split
    · rw [Vec.get_set, if_pos rfl]
    · rfl
  · simp only [hcount, false_and, if_false]
    split <;> split <;> rfl

theorem slot_thresholdMergeColumn_of_ne (p : NeighborProfile K) (m : SCAMPmatch K)
    (rest : List (SCAMPmatch K)) {pos : ℕ} (h : pos ≠ m.col + mergeStartCol) :
    (thresholdMergeColumn mergeStartCol maxMatches p (m :: rest)).slot pos = p.slot pos := by
  unfold thresholdMergeColumn NeighborProfile.slot
  dsimp only
  split
  · split
    · dsimp only
      rw [Vec.get_set, if_neg h]
    · rfl
  · rfl

variable (mergeStartCol maxMatches) in
/-- **`threshold_merge`, column by column**: the queues stay, and the threshold of a column with more than
    `max_matches + 1` matches is raised to the one that comes after `max_matches` of them. -/
theorem slot_thresholdMerge {ms : List (SCAMPmatch K)} (hsorted : SortedMatches ms) (p : NeighborProfile K)
    (pos : ℕ) :
    (thresholdMerge mergeStartCol maxMatches p ms).slot pos =
      ((p.slot pos).1,
        raisedThreshold maxMatches (p.slot pos).2 (columnMatches mergeStartCol pos ms)) := by
  unfold thresholdMerge
  rw [foldGroups_slot (· + mergeStartCol) (add_left_injective _) NeighborProfile.slot
    (fun slot ms => (slot.1, raisedThreshold maxMatches slot.2 ms)) slot_thresholdMergeColumn
    (fun p m rest i hi => slot_thresholdMergeColumn_of_ne p m rest hi) pos ms p hsorted.cols]
  unfold columnMatches
  split
  · next hnone =>
      rw [hnone]
      rfl
  · rfl

/-! ## Sequences of merges -/

/-- The queue holds the top `max_matches` list of the correlations presented for it, and only matches
    presented for it. -/
structure HoldsTop (maxMatches : ℕ) (presented : Multiset (SCAMPmatch K)) (q : MatchQueue K) : Prop where
  corrs : q.corrs = topK maxMatches (presented.map SCAMPmatch.corr)
  entries : (q.entries : Multiset (SCAMPmatch K)) ≤ presented

theorem HoldsTop.size_le {presented : Multiset (SCAMPmatch K)} {q : MatchQueue K}
    (h : HoldsTop maxMatches presented q) : q.size ≤ maxMatches := by
  rw [← MatchQueue.card_corrs, h.corrs, card_topK]
  exact min_le_left _ _

variable (maxMatches) in
theorem holdsTop_empty : HoldsTop maxMatches 0 (MatchQueue.empty : MatchQueue K) where
  corrs := by rw [MatchQueue.corrs_empty, Multiset.map_zero, topK_zero]
  entries := le_refl _

/-- The matches of a list that are presented for a column. -/
def presentedMatches (mergeStartRow mergeStartCol : ℕ) (ms : List (SCAMPmatch K)) (pos : ℕ) :
    Multiset (SCAMPmatch K) :=
  ((columnMatches mergeStartCol pos ms).map (globalMatch mergeStartRow mergeStartCol) :
    List (SCAMPmatch K))

omit [LinearOrder K] in
theorem map_corr_presentedMatches (ms : List (SCAMPmatch K)) (pos : ℕ) :
    (presentedMatches mergeStartRow mergeStartCol ms pos).map SCAMPmatch.corr =
      corrsOf (columnMatches mergeStartCol pos ms) := by
  unfold presentedMatches corrsOf
  rw [Multiset.map_coe, List.map_map]
  rfl

variable (mergeStartRow mergeStartCol) in
/-- **One merge** adds the matches it presents. -/
theorem HoldsTop.matchMerge {ms : List (SCAMPmatch K)} (hsorted : SortedMatches ms) {p : NeighborProfile K}
    {pos : ℕ} {presented : Multiset (SCAMPmatch K)}
    (h : HoldsTop maxMatches presented (p.matchValue.get pos)) :
    HoldsTop maxMatches (presented + presentedMatches mergeStartRow mergeStartCol ms pos)
      ((Scamp.matchMerge mergeStartRow mergeStartCol maxMatches p ms).matchValue.get pos) where
  corrs := by
    rw [corrs_matchMerge hsorted h.size_le, h.corrs, topK_topK_add, Multiset.map_add,
      map_corr_presentedMatches]
  entries := (entries_matchMerge hsorted).trans (add_le_add_left h.entries _)

/-- The threshold of a full queue: at most the least of its correlations. -/
theorem threshold_le_of_full {q : MatchQueue K} (hsize : q.size ≤ maxMatches) {w : K} :
    maxMatches ≤ countGE q.corrs w ↔ q.size = maxMatches ∧ ∀ x ∈ q.corrs, w ≤ x := by
  have hle := countGE_le_card q.corrs w
  rw [MatchQueue.card_corrs] at hle
  constructor
  · intro h
    have hcard : countGE q.corrs w = q.corrs.card := by
      rw [MatchQueue.card_corrs]
      omega
    exact ⟨by omega, Multiset.countP_eq_card.mp hcard⟩
  · rintro ⟨hfull, hall⟩
    rw [countGE_of_forall_le hall, MatchQueue.card_corrs, hfull]

/-- What is superfluous stays so when more matches are merged. -/
theorem superfluous_matchMerge {ms : List (SCAMPmatch K)} (hsorted : SortedMatches ms)
    {p : NeighborProfile K} {pos : ℕ} (hsize : (p.matchValue.get pos).size ≤ maxMatches)
    (h : maxMatches ≤ countGE (p.matchValue.get pos).corrs (p.thresholds.get pos)) :
    maxMatches ≤ countGE
      ((matchMerge mergeStartRow mergeStartCol maxMatches p ms).matchValue.get pos).corrs
      ((matchMerge mergeStartRow mergeStartCol maxMatches p ms).thresholds.get pos) := by
  rw [threshold_matchMerge hsorted]
  cases hw : newThreshold mergeStartRow mergeStartCol maxMatches p ms pos with
  | none =>
      rw [Option.getD_none, corrs_matchMerge hsorted hsize, countGE_topK, countGE_add]
      omega
  | some w => exact (newThreshold_superfluous hsorted hsize hw).2

end

/-- A call of `match_merge`. -/
structure MatchMergeCall (K : Type) where
  ms : List (SCAMPmatch K)
  mergeStartRow : ℕ
  mergeStartCol : ℕ

/-- A sequence of calls. -/
def matchMergeCalls (maxMatches : ℕ) (p : NeighborProfile K) (calls : List (MatchMergeCall K)) :
    NeighborProfile K :=
  calls.foldl (fun p c => matchMerge c.mergeStartRow c.mergeStartCol maxMatches p c.ms) p

/-- What a sequence of calls presents for a column. -/
def presentedByCalls (calls : List (MatchMergeCall K)) (pos : ℕ) : Multiset (SCAMPmatch K) :=
  (calls.map fun c => presentedMatches c.mergeStartRow c.mergeStartCol c.ms pos).sum

theorem matchMergeCalls_append (maxMatches : ℕ) (p : NeighborProfile K) (before after : List (MatchMergeCall K))
    (c : MatchMergeCall K) :
    matchMergeCalls maxMatches p (before ++ c :: after) =
      matchMergeCalls maxMatches
        (matchMerge c.mergeStartRow c.mergeStartCol maxMatches (matchMergeCalls maxMatches p before) c.ms)
        after := by
  unfold matchMergeCalls
  rw [List.foldl_append, List.foldl_cons]

omit [LinearOrder K] in
theorem mem_presentedByCalls {calls : List (MatchMergeCall K)} {pos : ℕ} {m : SCAMPmatch K} :
    m ∈ presentedByCalls calls pos ↔ ∃ c ∈ calls, ∃ x ∈ c.ms,
      x.col + c.mergeStartCol = pos ∧ m = globalMatch c.mergeStartRow c.mergeStartCol x := by
  have hcall : ∀ c : MatchMergeCall K, m ∈ presentedMatches c.mergeStartRow c.mergeStartCol c.ms pos ↔
      ∃ x ∈ c.ms, x.col + c.mergeStartCol = pos ∧ m = globalMatch c.mergeStartRow c.mergeStartCol x := by
    intro c
    unfold presentedMatches columnMatches
    simp only [Multiset.mem_coe, List.mem_map, List.mem_filter, decide_eq_true_eq]
    constructor
    · rintro ⟨x, ⟨hx, hpos⟩, rfl⟩
      exact ⟨x, hx, hpos, rfl⟩
    · rintro ⟨x, hx, hpos, rfl⟩
      exact ⟨x, ⟨hx, hpos⟩, rfl⟩
  unfold presentedByCalls
  induction calls with
  | nil => simp
  | cons c calls ih =>
      rw [List.map_cons, List.sum_cons, Multiset.mem_add, hcall, List.exists_mem_cons_iff]
      exact or_congr_right ih

theorem holdsTop_matchMergeCalls {maxMatches : ℕ} (pos : ℕ) (calls : List (MatchMergeCall K))
    (hsorted : ∀ c ∈ calls, SortedMatches c.ms) :
    ∀ (p : NeighborProfile K) (presented : Multiset (SCAMPmatch K)),
      HoldsTop maxMatches presented (p.matchValue.get pos) →
      HoldsTop maxMatches (presented + presentedByCalls calls pos)
        ((matchMergeCalls maxMatches p calls).matchValue.get pos) := by
  induction calls with
  | nil =>
      intro p presented h
      unfold presentedByCalls
      rwa [List.map_nil, List.sum_nil, add_zero]
  | cons c calls ih =>
      intro p presented h
      have hnext := ih (fun c' hc' => hsorted c' (List.mem_cons_of_mem c hc')) _ _
        (h.matchMerge c.mergeStartRow c.mergeStartCol (hsorted c List.mem_cons_self))
      unfold presentedByCalls at hnext ⊢
      rwa [List.map_cons, List.sum_cons, ← add_assoc]

theorem superfluous_matchMergeCalls {maxMatches pos : ℕ} (calls : List (MatchMergeCall K))
    (hsorted : ∀ c ∈ calls, SortedMatches c.ms) :
    ∀ p : NeighborProfile K, (p.matchValue.get pos).size ≤ maxMatches →
      maxMatches ≤ countGE (p.matchValue.get pos).corrs (p.thresholds.get pos) →
      maxMatches ≤ countGE ((matchMergeCalls maxMatches p calls).matchValue.get pos).corrs
        ((matchMergeCalls maxMatches p calls).thresholds.get pos) := by
  induction calls with
  | nil =>
      intro p _ h
      exact h
  | cons c calls ih =>
      intro p hsize h
      have hc := hsorted c List.mem_cons_self
      refine ih (fun c' hc' => hsorted c' (List.mem_cons_of_mem c hc')) _ ?_
        (superfluous_matchMerge hc hsize h)
      rw [← MatchQueue.card_corrs, corrs_matchMerge hc hsize, card_topK]
      exact min_le_left _ _

/-- **`match_merge` keeps the best matches.** After any sequence of calls with sorted lists, the queue of a
    column holds the top `max_matches` list of the correlations presented for it, each of its elements is a
    presented match in the positions of its own call, and when some call has set the threshold of the column,
    the queue is full and the threshold is at most its smallest correlation. -/
theorem matchMergeCalls_topK (maxMatches size : ℕ) (defaultThresh : K) (calls : List (MatchMergeCall K))
    (hsorted : ∀ c ∈ calls, SortedMatches c.ms) (pos : ℕ) :
    let start := NeighborProfile.alloc size defaultThresh
    let p := matchMergeCalls maxMatches start calls
    (p.matchValue.get pos).corrs = topK maxMatches ((presentedByCalls calls pos).map SCAMPmatch.corr) ∧
    ((p.matchValue.get pos).entries : Multiset (SCAMPmatch K)) ≤ presentedByCalls calls pos ∧
    (∀ m ∈ (p.matchValue.get pos).entries, ∃ c ∈ calls, ∃ x ∈ c.ms,
      x.col + c.mergeStartCol = pos ∧ m = globalMatch c.mergeStartRow c.mergeStartCol x) ∧
    ∀ before c after, calls = before ++ c :: after →
      newThreshold c.mergeStartRow c.mergeStartCol maxMatches (matchMergeCalls maxMatches start before) c.ms
        pos ≠ none →
      (p.matchValue.get pos).size = maxMatches ∧
        ∀ x ∈ (p.matchValue.get pos).corrs, p.thresholds.get pos ≤ x := by
  intro start p
  have hrun : ∀ calls' : List (MatchMergeCall K), (∀ c ∈ calls', SortedMatches c.ms) →
      HoldsTop maxMatches (presentedByCalls calls' pos)
        ((matchMergeCalls maxMatches start calls').matchValue.get pos) := by
    intro calls' h
    have := holdsTop_matchMergeCalls pos calls' h start 0 (holdsTop_empty maxMatches)
    rwa [zero_add] at this
  have htop := hrun calls hsorted
  refine ⟨htop.corrs, htop.entries, fun m hm => ?_, ?_⟩
  · exact mem_presentedByCalls.mp (Multiset.mem_of_le htop.entries (Multiset.mem_coe.mpr hm))
  · rintro before c after rfl hset
    have hsortedBefore := fun c' hc' => hsorted c' (List.mem_append_left (c :: after) hc')
    have hc := hsorted c (List.mem_append_right before List.mem_cons_self)
    have hafter := fun c' hc' => hsorted c' (List.mem_append_right before (List.mem_cons_of_mem c hc'))
    obtain ⟨w, hw⟩ := Option.ne_none_iff_exists'.mp hset
    have hsize := (hrun before hsortedBefore).size_le
    have hnext := (hrun before hsortedBefore).matchMerge c.mergeStartRow c.mergeStartCol hc
    apply (threshold_le_of_full htop.size_le).mp
    show maxMatches ≤ countGE
      ((matchMergeCalls maxMatches start (before ++ c :: after)).matchValue.get pos).corrs
      ((matchMergeCalls maxMatches start (before ++ c :: after)).thresholds.get pos)
    rw [matchMergeCalls_append]
    apply superfluous_matchMergeCalls after hafter _ hnext.size_le
    rw [threshold_matchMerge hc, hw, Option.getD_some]
    exact (newThreshold_superfluous hc hsize hw).2

/-- Two tiles that offer matches for column `7`, of which the second one is better. -/
def twoCalls : List (MatchMergeCall ℚ) :=
  [⟨[⟨1 / 2, 0, 3⟩, ⟨1 / 3, 1, 3⟩], 0, 4⟩, ⟨[⟨3 / 4, 2, 7⟩], 10, 0⟩]

/-- The second call replaces the match of the first and sets the threshold. -/
theorem matchMergeCalls_topK_twoCalls :
    ((matchMergeCalls 1 (.alloc 8 0) twoCalls).matchValue.get 7).corrs =
        topK 1 ((presentedByCalls twoCalls 7).map SCAMPmatch.corr) ∧
      ((matchMergeCalls 1 (.alloc 8 0) twoCalls).matchValue.get 7).entries = [⟨3 / 4, 12, 7⟩] ∧
      (matchMergeCalls 1 (.alloc 8 0) twoCalls).thresholds.get 7 = 1 / 2 := by
  have htop := matchMergeCalls_topK 1 8 0 twoCalls (by unfold SortedMatches; decide +kernel) 7
  refine ⟨htop.1, ?_, ?_⟩
  · decide +kernel
  · decide +kernel

end

end Scamp
