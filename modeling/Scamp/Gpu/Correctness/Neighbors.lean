import Scamp.Gpu.Correctness.MatchQueues
import Scamp.Lib.Run

/-!
# `Gpu.Correctness.Neighbors` — adaptive thresholds and retries

A tile is run until all its matches fit, and each run only reports the matches above the thresholds of its
columns, which earlier tiles and earlier runs have raised. `match_merge` only raises a threshold to what its
queue has made superfluous. `threshold_merge` raises it to the match that comes after `max_matches` others,
which is superfluous unless the others are no better than it (`Spare`): a tie at that place loses matches.
`neighbors_topK` is the result for runs in which that does not happen.
-/

namespace Scamp

open Lib

section
variable {K : Type} [LinearOrder K]

/-! ## What a tile merges into a profile -/

/-- The lists of matches that `MergeProfile` merges into a profile, with their offsets. -/
def mergedLists (info : OpInfo K) (t : TileDims) (ms : TileMatches K) (side : Side) :
    List (MatchMergeCall K) :=
  (if side = .a then [⟨ms.cols, t.row, t.col⟩] else []) ++
    if Tile.mergeTargetB info = some side then [⟨ms.rows, t.col, t.row⟩] else []

/-- A sequence of raises. -/
def thresholdMergeCalls (maxMatches : ℕ) (p : NeighborProfile K) (calls : List (MatchMergeCall K)) :
    NeighborProfile K :=
  calls.foldl (fun p c => thresholdMerge c.mergeStartCol maxMatches p c.ms) p

theorem profile_mergeProfile (info : OpInfo K) (t : TileDims) (overflowed : Bool) (ms : TileMatches K)
    (s : NeighborState K) (side : Side) :
    (s.mergeProfile info t overflowed ms).profile side =
      if overflowed then
        thresholdMergeCalls info.maxMatchesPerColumn.toNat (s.profile side) (mergedLists info t ms side)
      else matchMergeCalls info.maxMatchesPerColumn.toNat (s.profile side) (mergedLists info t ms side) := by
  unfold NeighborState.mergeProfile mergedLists mergeTileMatches
  cases Tile.mergeTargetB info with
  | none => cases side <;> cases overflowed <;> rfl
  | some target => cases target <;> cases side <;> cases overflowed <;> rfl

theorem mergeProfile_rest (info : OpInfo K) (t : TileDims) (overflowed : Bool) (ms : TileMatches K)
    (s : NeighborState K) :
    (s.mergeProfile info t overflowed ms).current = s.current ∧
      (s.mergeProfile info t overflowed ms).merged = s.merged := by
  unfold NeighborState.mergeProfile
  cases Tile.mergeTargetB info with
  | none => exact ⟨rfl, rfl⟩
  | some target => cases target <;> exact ⟨rfl, rfl⟩

/-! ## Thresholds over several merges -/

/-- A threshold after several merges is the old one, or superfluous. -/
theorem threshold_matchMergeCalls {maxMatches : ℕ} (pos : ℕ) (calls : List (MatchMergeCall K))
    (hsorted : ∀ c ∈ calls, SortedMatches c.ms) :
    ∀ p : NeighborProfile K, (p.matchValue.get pos).size ≤ maxMatches →
      (matchMergeCalls maxMatches p calls).thresholds.get pos = p.thresholds.get pos ∨
        ((matchMergeCalls maxMatches p calls).thresholds.get pos ∈
            (p.matchValue.get pos).corrs + (presentedByCalls calls pos).map SCAMPmatch.corr ∧
          maxMatches ≤ countGE ((matchMergeCalls maxMatches p calls).matchValue.get pos).corrs
            ((matchMergeCalls maxMatches p calls).thresholds.get pos)) := by
  induction calls with
  | nil =>
      intro p _
      exact Or.inl rfl
  | cons c calls ih =>
      intro p hsize
      have hc := hsorted c List.mem_cons_self
      have hrest := fun c' hc' => hsorted c' (List.mem_cons_of_mem c hc')
      have htail : matchMergeCalls maxMatches p (c :: calls) = matchMergeCalls maxMatches
          (matchMerge c.mergeStartRow c.mergeStartCol maxMatches p c.ms) calls := rfl
      have hpresented : (presentedByCalls (c :: calls) pos).map SCAMPmatch.corr =
          corrsOf (columnMatches c.mergeStartCol pos c.ms) +
            (presentedByCalls calls pos).map SCAMPmatch.corr := by
        unfold presentedByCalls
        rw [List.map_cons, List.sum_cons, Multiset.map_add, map_corr_presentedMatches]
      rw [htail, hpresented]
      generalize hp : matchMerge c.mergeStartRow c.mergeStartCol maxMatches p c.ms = p'
      have hcorrs : (p'.matchValue.get pos).corrs = topK maxMatches
          ((p.matchValue.get pos).corrs + corrsOf (columnMatches c.mergeStartCol pos c.ms)) := by
        rw [← hp]
        exact corrs_matchMerge hc hsize
      have hsize' : (p'.matchValue.get pos).size ≤ maxMatches := by
        rw [← MatchQueue.card_corrs, hcorrs, card_topK]
        exact min_le_left _ _
      have hthreshold : p'.thresholds.get pos =
          (newThreshold c.mergeStartRow c.mergeStartCol maxMatches p c.ms pos).getD (p.thresholds.get pos) := by
        rw [← hp]
        exact threshold_matchMerge hc
      rcases ih hrest p' hsize' with hsame | ⟨hmem, hfull⟩
      · rw [hsame, hthreshold]
        cases hw : newThreshold c.mergeStartRow c.mergeStartCol maxMatches p c.ms pos with
        | none => exact Or.inl rfl
        -- set by this list: the queue is full by then, and the later lists only improve it
        | some w =>
            obtain ⟨hmem, hfull⟩ := newThreshold_superfluous hc hsize hw
            rw [hp] at hfull
            rw [hw, Option.getD_some] at hthreshold
            have hlater := superfluous_matchMergeCalls calls hrest p' hsize' (by rwa [hthreshold])
            rw [hsame, hthreshold] at hlater
            refine Or.inr ⟨?_, hlater⟩
            rw [Option.getD_some, ← add_assoc]
            exact Multiset.mem_add.mpr (Or.inl hmem)
      · refine Or.inr ⟨?_, hfull⟩
        rw [hcorrs] at hmem
        rw [← add_assoc]
        exact Multiset.mem_of_le (add_le_add (topK_le _ _) (le_refl _)) hmem

/-- A column that is raised from a higher threshold is raised to the same value from a lower one. -/
theorem raisedThreshold_of_le {maxMatches : ℕ} {t t' : K} {ms : List (SCAMPmatch K)} (hle : t ≤ t')
    (h : raisedThreshold maxMatches t' ms ≠ t') :
    t < raisedThreshold maxMatches t' ms ∧ raisedThreshold maxMatches t ms = raisedThreshold maxMatches t' ms := by
  unfold raisedThreshold at h ⊢
  split
  · next x hx =>
      rw [hx] at h
      dsimp only at h
      by_cases hraise : maxMatches < ms.length - 1 ∧ t' < x.corr
      · rw [if_pos hraise, if_pos ⟨hraise.1, hle.trans_lt hraise.2⟩]
        exact ⟨hle.trans_lt hraise.2, rfl⟩
      · rw [if_neg hraise] at h
        exact absurd rfl h
  · next hx =>
      rw [hx] at h
      exact absurd rfl h

theorem le_raisedThreshold (maxMatches : ℕ) (t : K) (ms : List (SCAMPmatch K)) :
    t ≤ raisedThreshold maxMatches t ms := by
  unfold raisedThreshold
  split
  · split
    · next h => exact h.2.le
    · exact le_refl t
  · exact le_refl t

/-- A threshold is raised to the match that comes after `max_matches` others. -/
theorem exists_of_lt_raisedThreshold {maxMatches : ℕ} {t : K} {ms : List (SCAMPmatch K)}
    (h : t < raisedThreshold maxMatches t ms) :
    ∃ x, ms[maxMatches]? = some x ∧ maxMatches + 1 < ms.length ∧ t < x.corr ∧
      raisedThreshold maxMatches t ms = x.corr := by
  unfold raisedThreshold at h ⊢
  split
  · next x hx =>
      rw [hx] at h
      dsimp only at h
      split at h
      · next hraise => exact ⟨x, hx, by omega, hraise.2, if_pos hraise⟩
      · exact absurd h (lt_irrefl t)
  · next hx =>
      rw [hx] at h
      exact absurd h (lt_irrefl t)

/-- The queues stay when thresholds are raised, and a threshold that is raised is raised by one of the
    lists, from where it was. -/
theorem thresholdMergeCalls_slot (maxMatches pos : ℕ) (calls : List (MatchMergeCall K))
    (hsorted : ∀ c ∈ calls, SortedMatches c.ms) {t : K} :
    ∀ p : NeighborProfile K, t ≤ p.thresholds.get pos →
      (thresholdMergeCalls maxMatches p calls).matchValue.get pos = p.matchValue.get pos ∧
      p.thresholds.get pos ≤ (thresholdMergeCalls maxMatches p calls).thresholds.get pos ∧
      ((thresholdMergeCalls maxMatches p calls).thresholds.get pos = p.thresholds.get pos ∨
        ∃ c ∈ calls,
          t < raisedThreshold maxMatches t (columnMatches c.mergeStartCol pos c.ms) ∧
          (thresholdMergeCalls maxMatches p calls).thresholds.get pos =
            raisedThreshold maxMatches t (columnMatches c.mergeStartCol pos c.ms)) := by
  induction calls with
  | nil =>
      intro p _
      exact ⟨rfl, le_refl _, Or.inl rfl⟩
  | cons c calls ih =>
      intro p ht
      have hc := hsorted c List.mem_cons_self
      have htail : thresholdMergeCalls maxMatches p (c :: calls) = thresholdMergeCalls maxMatches
          (thresholdMerge c.mergeStartCol maxMatches p c.ms) calls := rfl
      have hslot := slot_thresholdMerge c.mergeStartCol maxMatches hc p pos
      rw [htail]
      generalize thresholdMerge c.mergeStartCol maxMatches p c.ms = p' at hslot
      have hqueue : p'.matchValue.get pos = p.matchValue.get pos := congrArg Prod.fst hslot
      have hthreshold : p'.thresholds.get pos =
          raisedThreshold maxMatches (p.thresholds.get pos) (columnMatches c.mergeStartCol pos c.ms) :=
        congrArg Prod.snd hslot
      have hle := le_raisedThreshold maxMatches (p.thresholds.get pos) (columnMatches c.mergeStartCol pos c.ms)
      rw [← hthreshold] at hle
      obtain ⟨hqueue', hle', hcases⟩ :=
        ih (fun c' hc' => hsorted c' (List.mem_cons_of_mem c hc')) p' (ht.trans hle)
      refine ⟨hqueue'.trans hqueue, hle.trans hle', ?_⟩
      rcases hcases with hsame | ⟨c', hc', hraise⟩
      · by_cases hraised : p'.thresholds.get pos = p.thresholds.get pos
        · exact Or.inl (hsame.trans hraised)
        · rw [hthreshold] at hraised
          obtain ⟨hlt, heq⟩ := raisedThreshold_of_le ht hraised
          refine Or.inr ⟨c, List.mem_cons_self, ?_, ?_⟩
          · rwa [heq]
          · rw [hsame, hthreshold, heq]
      · exact Or.inr ⟨c', List.mem_cons_of_mem c hc', hraise⟩

/-! ## What is reported and what is merged -/

omit [LinearOrder K] in
theorem map_corr_presentedByCalls (calls : List (MatchMergeCall K)) (pos : ℕ) :
    (presentedByCalls calls pos).map SCAMPmatch.corr =
      (calls.map fun c => corrsOf (columnMatches c.mergeStartCol pos c.ms)).sum := by
  unfold presentedByCalls
  induction calls with
  | nil => rfl
  | cons c calls ih =>
      rw [List.map_cons, List.sum_cons, Multiset.map_add, ih, map_corr_presentedMatches, List.map_cons,
        List.sum_cons]

/-- Of the candidates of a column those above its threshold are reported. -/
theorem corrsOf_columnMatches_writeBack {thresholds : Buffer K} {ms : List (SCAMPmatch K)} {start pos : ℕ}
    {v : K} (h : ∀ m ∈ ms, m.col + start = pos → thresholds m.col = v) :
    corrsOf (columnMatches start pos (writeBack thresholds ms)) =
      (corrsOf (columnMatches start pos ms)).filter (v < ·) := by
  have hlists : columnMatches start pos (writeBack thresholds ms) =
      (columnMatches start pos ms).filter ((fun x => decide (v < x)) ∘ SCAMPmatch.corr) := by
    unfold columnMatches writeBack
    rw [List.filter_filter, List.filter_filter]
    refine List.filter_congr fun m hm => ?_
    by_cases hpos : m.col + start = pos
    · simp [hpos, h m hm hpos]
    · simp [hpos]
  rw [hlists]
  unfold corrsOf
  rw [Multiset.filter_coe, List.filter_map]

omit [LinearOrder K] in
/-- The order of the matches does not matter to a column. -/
theorem corrsOf_columnMatches_perm {ms ms' : List (SCAMPmatch K)} (h : ms.Perm ms') (start pos : ℕ) :
    corrsOf (columnMatches start pos ms) = corrsOf (columnMatches start pos ms') :=
  Multiset.coe_eq_coe.mpr ((h.filter _).map _)

section
variable {info : OpInfo K}

theorem narrowInt_lt (x : ℤ) : narrowInt x < 2 ^ 31 := by
  have := Int.bmod_lt (x := x) (m := 2 ^ 32) (by decide)
  unfold narrowInt
  omega

/-- A value that an `int` has room for is kept. -/
theorem narrowInt_of_lt {x : ℤ} (hlow : -2 ^ 31 ≤ x) (hhigh : x < 2 ^ 31) : narrowInt x = x :=
  Int.bmod_eq_of_le_mul_two (by push_cast; omega) (by push_cast; omega)

theorem narrowInt_le {x : ℤ} (h : 0 ≤ x) : narrowInt x ≤ x := by
  rcases lt_or_ge x (2 ^ 31) with hlt | hge
  · exact (narrowInt_of_lt (by omega) hlt).le
  · exact ((narrowInt_lt x).trans_le hge).le

variable (info) in
/-- An `int` has room for the number of matches of a side that are stored. -/
def CountFits (reported : List (SCAMPmatch K)) : Prop := min info.maxMatchesPerTile reported.length < 2 ^ 31

omit [LinearOrder K] in
theorem copyDim_nonneg {reported : List (SCAMPmatch K)} (hroom : 0 ≤ narrowInt info.maxMatchesPerTile) :
    0 ≤ copyDim info reported := by
  unfold copyDim
  split <;> omega

omit [LinearOrder K] in
/-- What is copied of a side has been reported. -/
theorem copyDim_le (reported : List (SCAMPmatch K)) (hroom : 0 ≤ info.maxMatchesPerTile) :
    copyDim info reported ≤ reported.length := by
  have hlt := narrowInt_lt info.maxMatchesPerTile
  have hle := narrowInt_le hroom
  have hlength := narrowInt_le (Int.natCast_nonneg reported.length)
  unfold copyDim mergeDim profileDim
  split
  · next hmany =>
      split
      · omega
      · next hdim => exact absurd (by decide) hdim
  · split
    · next hdim =>
        -- only a number that no `int` has room for is negative as one
        by_contra hless
        rw [narrowInt_of_lt (by omega) (by omega)] at hdim
        omega
    · exact hlength

omit [LinearOrder K] in
/-- The number of matches for which there is room. -/
theorem mergeDim_of_fits {reported : List (SCAMPmatch K)} (hroom : (reported.length : ℤ) ≤ info.maxMatchesPerTile)
    (hfits : CountFits info reported) : mergeDim info reported = reported.length := by
  unfold CountFits at hfits
  rw [min_eq_right hroom] at hfits
  unfold mergeDim profileDim
  rw [if_neg (not_lt.mpr hroom), narrowInt_of_lt (by omega) hfits]

omit [LinearOrder K] in
/-- Where the number fits, the one copied is the one stored. -/
theorem copyDim_of_fits {reported : List (SCAMPmatch K)} (hroom : 0 ≤ info.maxMatchesPerTile)
    (hfits : CountFits info reported) : copyDim info reported = min info.maxMatchesPerTile reported.length := by
  rcases lt_or_ge info.maxMatchesPerTile reported.length with hmany | hfew
  · unfold CountFits at hfits
    rw [min_eq_left hmany.le] at hfits
    unfold copyDim mergeDim profileDim
    rw [if_pos hmany, if_pos (by decide), narrowInt_of_lt (by omega) hfits, min_eq_left hmany.le]
  · unfold copyDim
    rw [mergeDim_of_fits hfew hfits, if_neg (not_lt.mpr (Int.natCast_nonneg _)), min_eq_right hfew]

omit [LinearOrder K] in
theorem length_le_of_overflows {reported : TileMatches K} (h : overflows info reported = false) :
    (reported.cols.length : ℤ) ≤ info.maxMatchesPerTile ∧
      (reported.rows.length : ℤ) ≤ info.maxMatchesPerTile := by
  have hdim : ∀ ms : List (SCAMPmatch K), ¬mergeDim info ms < 0 → (ms.length : ℤ) ≤ info.maxMatchesPerTile := by
    intro ms hms
    unfold mergeDim profileDim at hms
    split at hms
    · exact absurd (by decide) hms
    · omega
  unfold overflows at h
  rw [Bool.or_eq_false_iff, decide_eq_false_iff_not, decide_eq_false_iff_not] at h
  exact ⟨hdim _ h.1, hdim _ h.2⟩

/-- With room for all of them, the matches copied are those reported. -/
theorem Copied.perm {reported ms : List (SCAMPmatch K)} (h : Copied info reported ms)
    (hroom : (reported.length : ℤ) ≤ info.maxMatchesPerTile) (hfits : CountFits info reported) :
    ms.Perm reported := by
  obtain ⟨_, hsub, hlen⟩ := h
  rw [copyDim_of_fits ((Int.natCast_nonneg _).trans hroom) hfits, min_eq_right hroom] at hlen
  exact hsub.perm_of_length_le (by omega)

/-- The correlations of the candidates of a tile for a column, above the threshold of the user. -/
def candidateCorrs (candidates : Candidates info) (t : TilePos) (side : Side) (pos : ℕ) : Multiset K :=
  ((presentedByCalls (mergedLists info (tileDims info t) (candidates.ofTile t) side) pos).map
    SCAMPmatch.corr).filter (info.threshold < ·)

/-- The correlations of the candidates of several tiles for a column. -/
def allCandidates (candidates : Candidates info) (ts : List TilePos) (side : Side) (pos : ℕ) : Multiset K :=
  (ts.map fun t => candidateCorrs candidates t side pos).sum

/-- The profile whose thresholds decide what is reported for a profile: in a self-join always the first. -/
def thresholdSource (info : OpInfo K) (side : Side) : Side := if info.selfJoin then .a else side

/-- The threshold by which matches for a column are reported. -/
def readThreshold (info : OpInfo K) (s : NeighborState K) (side : Side) (pos : ℕ) : K :=
  (s.profile (thresholdSource info side)).thresholds.get pos

/-- The rows that are merged into a profile are computed, and their thresholds read from the source of this
    profile. -/
theorem thresholdsB_of_target {side : Side} (htarget : Tile.mergeTargetB info = some side)
    (s : NeighborState K) (t : TileDims) :
    info.computingRows = true ∧
      (s.initProfile info t).thresholdsB = memcopy s.thresholdsB
        (s.profile (thresholdSource info side)).thresholds.get t.row (t.height - info.mpWindow + 1) := by
  unfold Tile.mergeTargetB at htarget
  unfold NeighborState.initProfile thresholdSource
  dsimp only
  split at htarget
  · next hkeep =>
      obtain rfl := Option.some.inj htarget
      refine ⟨(Bool.and_eq_true_iff.mp hkeep).1, ?_⟩
      rw [if_pos hkeep]
      split <;> rfl
  · split at htarget
    · next hself =>
        obtain rfl := Option.some.inj htarget
        obtain ⟨hself, hrows⟩ := Bool.and_eq_true_iff.mp hself
        refine ⟨hrows, ?_⟩
        rw [if_pos hself, if_pos hself]
        rfl
    · exact absurd htarget (Option.some_ne_none side).symm

/-- **What is reported for a column** is what the candidates have above the threshold that is read. -/
theorem corrs_reportedOf (candidates : Candidates info) (s : NeighborState K) (t : TilePos) (side : Side)
    (pos : ℕ) (hle : info.threshold ≤ readThreshold info s side pos) :
    (presentedByCalls (mergedLists info (tileDims info t) (s.reportedOf candidates t) side) pos).map
        SCAMPmatch.corr =
      (candidateCorrs candidates t side pos).filter (readThreshold info s side pos < ·) := by
  -- the threshold of the join is below the one that is read
  have hfilter : ∀ c : Multiset K, (c.filter (info.threshold < ·)).filter (readThreshold info s side pos < ·) =
      c.filter (readThreshold info s side pos < ·) := by
    intro c
    rw [Multiset.filter_filter]
    exact Multiset.filter_congr fun x _ => ⟨And.left, fun h => ⟨h, hle.trans_lt h⟩⟩
  have hcols : corrsOf (columnMatches (tileDims info t).col pos (s.reportedOf candidates t).cols) =
      (corrsOf (columnMatches (tileDims info t).col pos (candidates.ofTile t).cols)).filter
        (s.profileA.thresholds.get pos < ·) := by
    refine corrsOf_columnMatches_writeBack fun m hm hpos => ?_
    rw [← hpos, Nat.add_comm]
    exact memcopy_lt (candidates.cols_lt t m hm)
  have hrows : Tile.mergeTargetB info = some side →
      corrsOf (columnMatches (tileDims info t).row pos (s.reportedOf candidates t).rows) =
        (corrsOf (columnMatches (tileDims info t).row pos (candidates.ofTile t).rows)).filter
          (readThreshold info s side pos < ·) := by
    intro htarget
    obtain ⟨hcomputed, hthresholds⟩ := thresholdsB_of_target htarget s (tileDims info t)
    have hreported : (s.reportedOf candidates t).rows =
        writeBack (s.initProfile info (tileDims info t)).thresholdsB (candidates.ofTile t).rows :=
      if_pos hcomputed
    rw [hreported, hthresholds]
    refine corrsOf_columnMatches_writeBack fun m hm hpos => ?_
    rw [memcopy_lt (candidates.rows_lt t m hm), Nat.add_comm, hpos]
    rfl
  unfold candidateCorrs
  rw [hfilter, map_corr_presentedByCalls, map_corr_presentedByCalls]
  have hsource : readThreshold info s .a pos = s.profileA.thresholds.get pos := by
    unfold readThreshold thresholdSource
    split <;> rfl
  unfold mergedLists
  by_cases htarget : Tile.mergeTargetB info = some side
  · rw [if_pos htarget, if_pos htarget]
    cases side with
    | a =>
        rw [if_pos rfl, if_pos rfl, List.singleton_append, List.singleton_append]
        simp only [List.map_cons, List.map_nil, List.sum_cons, List.sum_nil, add_zero]
        rw [hcols, hrows htarget, hsource, Multiset.filter_add]
    | b =>
        rw [if_neg (by decide), if_neg (by decide), List.nil_append, List.nil_append]
        simp only [List.map_cons, List.map_nil, List.sum_cons, List.sum_nil, add_zero]
        exact hrows htarget
  · rw [if_neg htarget, if_neg htarget, List.append_nil, List.append_nil]
    cases side with
    | a =>
        rw [if_pos rfl, if_pos rfl]
        simp only [List.map_cons, List.map_nil, List.sum_cons, List.sum_nil, add_zero]
        rw [hcols, hsource]
    | b => rfl

omit [LinearOrder K] in
/-- Copied matches that are all those reported present the same correlations. -/
theorem corrs_copied {reported ms : TileMatches K} {t : TileDims} {side : Side} {pos : ℕ}
    (hcols : ms.cols.Perm reported.cols) (hrows : ms.rows.Perm reported.rows) :
    (presentedByCalls (mergedLists info t ms side) pos).map SCAMPmatch.corr =
      (presentedByCalls (mergedLists info t reported side) pos).map SCAMPmatch.corr := by
  have hcols := corrsOf_columnMatches_perm hcols t.col pos
  have hrows := corrsOf_columnMatches_perm hrows t.row pos
  rw [map_corr_presentedByCalls, map_corr_presentedByCalls]
  unfold mergedLists
  rw [List.map_append, List.map_append, List.sum_append, List.sum_append]
  congr 1
  · split
    · simp only [List.map_cons, List.map_nil, hcols]
    · rfl
  · split
    · simp only [List.map_cons, List.map_nil, hrows]
    · rfl

theorem sorted_mergedLists {ms : TileMatches K} {t : TileDims} {side : Side}
    (hcols : SortedMatches ms.cols) (hrows : SortedMatches ms.rows) :
    ∀ c ∈ mergedLists info t ms side, SortedMatches c.ms := by
  intro c hc
  unfold mergedLists at hc
  rcases List.mem_append.mp hc with hc | hc
  · split at hc
    · obtain rfl := List.mem_singleton.mp hc
      exact hcols
    · exact absurd hc List.not_mem_nil
  · split at hc
    · obtain rfl := List.mem_singleton.mp hc
      exact hrows
    · exact absurd hc List.not_mem_nil

/-! ## What can be stored -/

theorem sortedMatches_insertionSort (ms : List (SCAMPmatch K)) :
    ∃ sorted : List (SCAMPmatch K), SortedMatches sorted ∧ sorted.Perm ms := by
  let r : SCAMPmatch K → SCAMPmatch K → Prop := fun x y => y.lt x = false
  have htotal : Std.Total r := ⟨fun x y => by
    simp only [r, SCAMPmatch.lt_eq_false_iff]
    rcases lt_trichotomy x.col y.col with hlt | heq | hgt
    · exact Or.inl (Or.inl hlt)
    · exact (le_total y.corr x.corr).imp (fun h => Or.inr ⟨heq, h⟩) fun h => Or.inr ⟨heq.symm, h⟩
    · exact Or.inr (Or.inl hgt)⟩
  have htrans : IsTrans (SCAMPmatch K) r := ⟨fun x y z hxy hyz => by
    simp only [r, SCAMPmatch.lt_eq_false_iff] at hxy hyz ⊢
    rcases hxy with hxy | ⟨hxy, hle⟩ <;> rcases hyz with hyz | ⟨hyz, hle'⟩
    · exact Or.inl (hxy.trans hyz)
    · exact Or.inl (hyz ▸ hxy)
    · exact Or.inl (hxy ▸ hyz)
    · exact Or.inr ⟨hxy.trans hyz, hle'.trans hle⟩⟩
  exact ⟨ms.insertionSort r, List.pairwise_insertionSort r ms, List.perm_insertionSort r ms⟩

/-- Any part of the reported matches of the right length can be what is stored. -/
theorem exists_copied {reported ms : List (SCAMPmatch K)} (hsub : ms.Subperm reported)
    (hlength : ms.length = copyDim info reported) : ∃ stored, Copied info reported stored ∧ stored.Perm ms := by
  obtain ⟨stored, hsorted, hperm⟩ := sortedMatches_insertionSort ms
  exact ⟨stored, ⟨hsorted, hperm.subperm.trans hsub, by rw [hperm.length_eq, hlength]⟩, hperm⟩

/-- Something is stored, when the number of it is not negative. -/
theorem copied_nonempty (reported : List (SCAMPmatch K)) (hroom : 0 ≤ info.maxMatchesPerTile)
    (hdim : 0 ≤ copyDim info reported) : ∃ stored, Copied info reported stored := by
  have hle := copyDim_le reported hroom
  have hpart := (List.take_sublist (copyDim info reported).toNat reported).subperm
  obtain ⟨stored, hcopied, -⟩ : ∃ stored, Copied info reported stored ∧ _ :=
    exists_copied hpart (by rw [List.length_take]; omega)
  exact ⟨stored, hcopied⟩

theorem copied_nonneg {reported ms : List (SCAMPmatch K)} (h : Copied info reported ms) :
    0 ≤ copyDim info reported := by
  rw [← h.2.2]
  exact Int.natCast_nonneg _

/-! ## Attempts -/

/-- `max_matches_per_column`, the size of a queue. -/
abbrev OpInfo.queueSize (info : OpInfo K) : ℕ := info.maxMatchesPerColumn.toNat

/-- The correlations in the queue of a column. -/
def NeighborState.queueCorrs (s : NeighborState K) (side : Side) (pos : ℕ) : Multiset K :=
  ((s.profile side).matchValue.get pos).corrs

/-- The thresholds of the profile are those its matches are reported by. -/
def OwnThresholds (info : OpInfo K) (side : Side) : Prop := thresholdSource info side = side

/-- **The condition on an attempt.** An `int` has room for the numbers of matches. When a tile has too many of
    them, and more than one match that is stored for a column comes after `max_matches` others of it, there are
    `max_matches` that are as good as the first of those in the queue or better among the tile's candidates,
    unless it is not above the threshold. When it has not too many, the rows of a self-join that are kept
    separate, which are reported by the thresholds of the columns, have not been reported without one that their
    queue lacks. -/
structure AttemptKeeps (candidates : Candidates info) (s : NeighborState K) (t : TilePos)
    (ms : TileMatches K) : Prop where
  fits : CountFits info (s.reportedOf candidates t).cols ∧ CountFits info (s.reportedOf candidates t).rows
  raises : overflows info (s.reportedOf candidates t) = true → ∀ side pos, OwnThresholds info side →
    ∀ c ∈ mergedLists info (tileDims info t) ms side, ∀ x,
      (columnMatches c.mergeStartCol pos c.ms)[info.queueSize]? = some x →
      info.queueSize + 1 < (columnMatches c.mergeStartCol pos c.ms).length →
      (s.profile side).thresholds.get pos < x.corr →
      Spare info.queueSize (s.queueCorrs side pos) (candidateCorrs candidates t side pos) x.corr
  foreign : overflows info (s.reportedOf candidates t) = false → ∀ side pos, ¬OwnThresholds info side →
    Harmless info.queueSize (s.queueCorrs side pos) (candidateCorrs candidates t side pos)
      (readThreshold info s side pos)

/-- The condition on a step. -/
def StepKeeps (candidates : Candidates info) (act : NeighborAction K) (s : NeighborState K) : Prop :=
  match act, s.current with
  | .attempt ms, some t => AttemptKeeps candidates s t ms
  | _, _ => True

/-- A step that meets the condition. -/
def KeepingStep (candidates : Candidates info) (s s' : NeighborState K) : Prop :=
  ∃ act, neighborStep candidates act s = some s' ∧ StepKeeps candidates act s

/-- What the current tile still has to merge for a column. -/
def pendingCorrs (candidates : Candidates info) (s : NeighborState K) (side : Side) (pos : ℕ) :
    Multiset K :=
  match s.current with
  | some t => candidateCorrs candidates t side pos
  | none => 0

/-- The invariant of a run: the queues are exact for the tiles that have been merged, and what the thresholds
    hold back is spare. -/
structure NeighborInv (candidates : Candidates info) (s : NeighborState K) : Prop where
  queues : ∀ side pos, s.queueCorrs side pos =
    topK info.queueSize (allCandidates candidates s.merged side pos)
  thresholds : ∀ side pos, OwnThresholds info side →
    info.threshold ≤ (s.profile side).thresholds.get pos ∧
      ((s.profile side).thresholds.get pos = info.threshold ∨
        Spare info.queueSize (s.queueCorrs side pos) (pendingCorrs candidates s side pos)
          ((s.profile side).thresholds.get pos))

section
variable {candidates : Candidates info} {s s' : NeighborState K}

theorem lt_of_mem_candidateCorrs {t : TilePos} {side : Side} {pos : ℕ} {x : K}
    (h : x ∈ candidateCorrs candidates t side pos) : info.threshold < x :=
  (Multiset.mem_filter.mp h).2

theorem NeighborInv.lt_of_mem_queue (h : NeighborInv candidates s) {side : Side} {pos : ℕ} {x : K}
    (hx : x ∈ s.queueCorrs side pos) : info.threshold < x := by
  rw [h.queues] at hx
  have hall := Multiset.mem_of_le (topK_le _ _) hx
  unfold allCandidates at hall
  generalize s.merged = ts at hall
  induction ts with
  | nil => exact absurd hall (Multiset.notMem_zero x)
  | cons t ts ih =>
      rw [List.map_cons, List.sum_cons] at hall
      rcases Multiset.mem_add.mp hall with hall | hall
      · exact lt_of_mem_candidateCorrs hall
      · exact ih hall

theorem NeighborInv.size_le (h : NeighborInv candidates s) (side : Side) (pos : ℕ) :
    ((s.profile side).matchValue.get pos).size ≤ info.queueSize := by
  have := congrArg Multiset.card (h.queues side pos)
  rw [card_topK] at this
  rw [← MatchQueue.card_corrs]
  exact this.trans_le (min_le_left _ _)

omit [LinearOrder K] in
theorem thresholdSource_own (side : Side) : OwnThresholds info (thresholdSource info side) := by
  unfold OwnThresholds thresholdSource
  by_cases hself : info.selfJoin = true
  · rw [if_pos hself, if_pos hself]
  · rw [if_neg hself, if_neg hself]

theorem NeighborInv.le_readThreshold (h : NeighborInv candidates s) (side : Side) (pos : ℕ) :
    info.threshold ≤ readThreshold info s side pos :=
  (h.thresholds _ pos (thresholdSource_own side)).1

/-- What the thresholds hold back of the current tile is harmless. -/
theorem NeighborInv.harmless (h : NeighborInv candidates s) {t : TilePos} (ht : s.current = some t)
    {ms : TileMatches K} (hkeeps : AttemptKeeps candidates s t ms)
    (hroom : overflows info (s.reportedOf candidates t) = false) (side : Side) (pos : ℕ) :
    Harmless info.queueSize (s.queueCorrs side pos) (candidateCorrs candidates t side pos)
      (readThreshold info s side pos) := by
  by_cases hown : OwnThresholds info side
  · have hread : readThreshold info s side pos = (s.profile side).thresholds.get pos := by
      unfold readThreshold
      rw [hown]
    have hpending : pendingCorrs candidates s side pos = candidateCorrs candidates t side pos := by
      unfold pendingCorrs
      rw [ht]
    rw [hread]
    rcases (h.thresholds side pos hown).2 with hsame | hspare
    · rw [hsame]
      exact harmless_of_forall_lt fun x hx => lt_of_mem_candidateCorrs hx
    · rw [hpending] at hspare
      exact hspare.harmless
  · exact hkeeps.foreign hroom side pos hown

/-- What a step does: it takes a tile, or merges an attempt, which ends the tile unless it overflows. -/
theorem neighborStep_cases {act : NeighborAction K} (h : neighborStep candidates act s = some s') :
    (∃ t, act = .pop t ∧ s.current = none ∧ s' = { s with current := some t }) ∨
    ∃ t ms, act = .attempt ms ∧ s.current = some t ∧
      Copied info (s.reportedOf candidates t).cols ms.cols ∧
      Copied info (s.reportedOf candidates t).rows ms.rows ∧
      (∀ side, s'.profile side =
        if overflows info (s.reportedOf candidates t) then
          thresholdMergeCalls info.queueSize (s.profile side) (mergedLists info (tileDims info t) ms side)
        else matchMergeCalls info.queueSize (s.profile side) (mergedLists info (tileDims info t) ms side)) ∧
      s'.current = (if overflows info (s.reportedOf candidates t) then some t else none) ∧
      s'.merged = if overflows info (s.reportedOf candidates t) then s.merged else t :: s.merged := by
  unfold neighborStep at h
  split at h
  · next t hcurrent => exact Or.inl ⟨t, rfl, hcurrent, (Option.some.inj h).symm⟩
  · next ms t hcurrent =>
      dsimp only at h
      split at h
      · next hcopied =>
          obtain rfl := Option.some.inj h
          obtain ⟨hcurrent', hmerged'⟩ := mergeProfile_rest info (tileDims info t)
            (overflows info (s.reportedOf candidates t)) ms (s.initProfile info (tileDims info t))
          refine Or.inr ⟨t, ms, rfl, hcurrent, hcopied.1, hcopied.2, fun side => ?_, ?_, ?_⟩
          · have hprofile := profile_mergeProfile info (tileDims info t)
              (overflows info (s.reportedOf candidates t)) ms (s.initProfile info (tileDims info t)) side
            have hinit : (s.initProfile info (tileDims info t)).profile side = s.profile side := by
              cases side <;> rfl
            rw [hinit] at hprofile
            rw [← hprofile]
            cases overflows info (s.reportedOf candidates t) <;> cases side <;> rfl
          · cases hover : overflows info (s.reportedOf candidates t) with
            | true =>
                rw [hover] at hcurrent'
                exact hcurrent'.trans hcurrent
            | false => rfl
          · cases hover : overflows info (s.reportedOf candidates t) with
            | true =>
                rw [hover] at hmerged'
                exact hmerged'
            | false =>
                rw [hover] at hmerged'
                exact congrArg (t :: ·) hmerged'
      · exact absurd h (Option.some_ne_none s').symm
  · exact absurd h (Option.some_ne_none s').symm

/-- A tile whose numbers of matches fit can be attempted. -/
theorem exists_attempt (hroom : 0 ≤ info.maxMatchesPerTile) {t : TilePos} (ht : s.current = some t)
    (hcols : CountFits info (s.reportedOf candidates t).cols)
    (hrows : CountFits info (s.reportedOf candidates t).rows) :
    ∃ ms s', neighborStep candidates (.attempt ms) s = some s' := by
  have hstored : ∀ reported, CountFits info reported → ∃ stored, Copied info reported stored := by
    intro reported hfits
    refine copied_nonempty _ hroom ?_
    rw [copyDim_of_fits hroom hfits]
    exact le_min hroom (Int.natCast_nonneg _)
  obtain ⟨cols, hcols⟩ := hstored _ hcols
  obtain ⟨rows, hrows⟩ := hstored _ hrows
  refine ⟨⟨cols, rows⟩, ?_⟩
  unfold neighborStep
  rw [ht]
  dsimp only
  rw [if_pos ⟨hcols, hrows⟩]
  exact ⟨_, rfl⟩

/-- **An attempt that overflows** keeps the invariant. -/
theorem NeighborInv.overflow (h : NeighborInv candidates s) {t : TilePos} (ht : s.current = some t)
    {ms : TileMatches K} (hkeeps : AttemptKeeps candidates s t ms)
    (hcols : SortedMatches ms.cols) (hrows : SortedMatches ms.rows)
    (hover : overflows info (s.reportedOf candidates t) = true)
    (hprofile : ∀ side, s'.profile side = thresholdMergeCalls info.queueSize (s.profile side)
      (mergedLists info (tileDims info t) ms side))
    (ht' : s'.current = some t) (hmerged : s'.merged = s.merged) : NeighborInv candidates s' := by
  have hslot := fun side pos => thresholdMergeCalls_slot info.queueSize pos
    (mergedLists info (tileDims info t) ms side) (sorted_mergedLists hcols hrows) (s.profile side) (le_refl _)
  have hqueue : ∀ side pos, s'.queueCorrs side pos = s.queueCorrs side pos := by
    intro side pos
    unfold NeighborState.queueCorrs
    rw [hprofile, (hslot side pos).1]
  constructor
  · intro side pos
    rw [hqueue, hmerged]
    exact h.queues side pos
  · intro side pos hown
    have hpending : ∀ s : NeighborState K, s.current = some t →
        pendingCorrs candidates s side pos = candidateCorrs candidates t side pos := by
      intro s hs
      unfold pendingCorrs
      rw [hs]
    obtain ⟨hle, hsafe⟩ := h.thresholds side pos hown
    obtain ⟨_, hraised, hcases⟩ := hslot side pos
    rw [hqueue, hpending s' ht', hprofile]
    rw [hpending s ht] at hsafe
    refine ⟨hle.trans hraised, ?_⟩
    rcases hcases with hsame | ⟨c, hc, hlt, heq⟩
    · rwa [hsame]
    · obtain ⟨x, hx, hmany, habove, hraised⟩ := exists_of_lt_raisedThreshold hlt
      rw [heq, hraised]
      exact Or.inr (hkeeps.raises hover side pos hown c hc x hx hmany habove)

/-- **An attempt for whose matches there is room** keeps the invariant, and ends the tile. -/
theorem NeighborInv.finish (h : NeighborInv candidates s) {t : TilePos} (ht : s.current = some t)
    {ms : TileMatches K} (hkeeps : AttemptKeeps candidates s t ms)
    (hcols : Copied info (s.reportedOf candidates t).cols ms.cols)
    (hrows : Copied info (s.reportedOf candidates t).rows ms.rows)
    (hroom : overflows info (s.reportedOf candidates t) = false)
    (hprofile : ∀ side, s'.profile side = matchMergeCalls info.queueSize (s.profile side)
      (mergedLists info (tileDims info t) ms side))
    (ht' : s'.current = none) (hmerged : s'.merged = t :: s.merged) : NeighborInv candidates s' := by
  have hsorted : ∀ side, ∀ c ∈ mergedLists info (tileDims info t) ms side, SortedMatches c.ms :=
    fun side => sorted_mergedLists hcols.1 hrows.1
  obtain ⟨hroomCols, hroomRows⟩ := length_le_of_overflows hroom
  -- what is merged are all candidates above the thresholds
  have hpresented : ∀ side pos,
      (presentedByCalls (mergedLists info (tileDims info t) ms side) pos).map SCAMPmatch.corr =
        (candidateCorrs candidates t side pos).filter (readThreshold info s side pos < ·) := by
    intro side pos
    rw [corrs_copied (hcols.perm hroomCols hkeeps.fits.1) (hrows.perm hroomRows hkeeps.fits.2)]
    exact corrs_reportedOf candidates s t side pos (h.le_readThreshold side pos)
  have hqueue : ∀ side pos, s'.queueCorrs side pos =
      topK info.queueSize (s.queueCorrs side pos + candidateCorrs candidates t side pos) := by
    intro side pos
    have hsize := h.size_le side pos
    rw [← MatchQueue.card_corrs] at hsize
    have hcorrs := (holdsTop_matchMergeCalls pos (mergedLists info (tileDims info t) ms side) (hsorted side)
      (s.profile side) _ ⟨topK_of_card_le hsize, le_refl _⟩).corrs
    rw [Multiset.map_add, hpresented] at hcorrs
    unfold NeighborState.queueCorrs
    rw [hprofile]
    exact hcorrs.trans (topK_add_filter_iff.mpr (h.harmless ht hkeeps hroom side pos))
  constructor
  · intro side pos
    rw [hqueue, hmerged, h.queues, topK_topK_add]
    unfold allCandidates
    rw [List.map_cons, List.sum_cons, add_comm]
  · intro side pos hown
    obtain ⟨hle, hsafe⟩ := h.thresholds side pos hown
    have hpending : pendingCorrs candidates s' side pos = 0 := by
      unfold pendingCorrs
      rw [ht']
    have hspare : ∀ v, info.queueSize ≤ countGE (s'.queueCorrs side pos) v →
        Spare info.queueSize (s'.queueCorrs side pos) 0 v := fun v hv => Nat.le_add_right_of_le hv
    rw [hpending]
    rcases threshold_matchMergeCalls pos (mergedLists info (tileDims info t) ms side) (hsorted side)
      (s.profile side) (h.size_le side pos) with hsame | ⟨hmem, hfull⟩
    · rw [hprofile, hsame]
      refine ⟨hle, hsafe.imp_right fun hspare' => hspare _ ?_⟩
      rw [hqueue]
      have hcandidates : pendingCorrs candidates s side pos = candidateCorrs candidates t side pos := by
        unfold pendingCorrs
        rw [ht]
      rw [hcandidates] at hspare'
      exact spare_topK hspare'
    · rw [← hprofile] at hmem hfull
      refine ⟨?_, Or.inr (hspare _ hfull)⟩
      rw [hpresented] at hmem
      rcases Multiset.mem_add.mp hmem with hmem | hmem
      · exact (h.lt_of_mem_queue hmem).le
      · exact (lt_of_mem_candidateCorrs (Multiset.mem_filter.mp hmem).1).le

/-- A step that meets the condition keeps the invariant. -/
theorem NeighborInv.step (h : NeighborInv candidates s) (hstep : KeepingStep candidates s s') :
    NeighborInv candidates s' := by
  obtain ⟨act, hstep, hkeeps⟩ := hstep
  rcases neighborStep_cases hstep with ⟨t, rfl, ht, rfl⟩ | ⟨t, ms, rfl, ht, hcols, hrows, hprofile, ht', hmerged⟩
  · constructor
    · exact h.queues
    · intro side pos hown
      obtain ⟨hle, hsafe⟩ := h.thresholds side pos hown
      refine ⟨hle, hsafe.imp_right fun hspare => hspare.mono ?_⟩
      unfold pendingCorrs
      rw [ht]
      exact Multiset.zero_le _
  · unfold StepKeeps at hkeeps
    rw [ht] at hkeeps
    cases hover : overflows info (s.reportedOf candidates t) with
    | true =>
        simp only [hover, if_true] at hprofile ht' hmerged
        exact h.overflow ht hkeeps hcols.1 hrows.1 hover hprofile ht' hmerged
    | false =>
        simp only [hover, Bool.false_eq_true, if_false] at hprofile ht' hmerged
        exact h.finish ht hkeeps hcols hrows hover hprofile ht' hmerged

/-! ## A condition on the matches alone -/

/-- In a column of more than `max_matches + 1` matches, the one that comes after `max_matches` others is worse
    than the last of these. -/
def Untied (maxMatches : ℕ) (ms : List (SCAMPmatch K)) : Prop :=
  maxMatches + 1 < ms.length → ∀ x y, ms[maxMatches]? = some x → ms[maxMatches - 1]? = some y → x.corr < y.corr

/-- Without a tie there are `max_matches` better ones. -/
theorem le_countGT_of_untied {k : ℕ} (hk : 0 < k) {ms : List (SCAMPmatch K)}
    (hdesc : ms.Pairwise fun x y => y.corr ≤ x.corr) (huntied : Untied k ms) (hmany : k + 1 < ms.length)
    {x : SCAMPmatch K} (hx : ms[k]? = some x) : k ≤ countGT (corrsOf ms) x.corr := by
  have hlast := huntied hmany x ms[k - 1] hx (List.getElem?_eq_getElem (by omega))
  have hall : ∀ y ∈ corrsOf (ms.take k), x.corr < y := by
    intro y hy
    obtain ⟨m, hm, rfl⟩ := mem_corrsOf.mp hy
    obtain ⟨i, hi, rfl⟩ := List.getElem_of_mem hm
    rw [List.length_take] at hi
    rw [List.getElem_take]
    rcases Nat.lt_or_ge i (k - 1) with hlt | hge
    · exact hlast.trans_le (List.pairwise_iff_getElem.mp hdesc i (k - 1) (by omega) (by omega) hlt)
    · obtain rfl : i = k - 1 := by omega
      exact hlast
  have hcount : countGT (corrsOf (ms.take k)) x.corr = k := by
    unfold countGT
    rw [Multiset.countP_eq_card.mpr hall]
    unfold corrsOf
    rw [Multiset.coe_card, List.length_map, List.length_take]
    omega
  rw [← hcount]
  exact countGT_of_le (Multiset.coe_le.mpr ((List.take_sublist k ms).map _).subperm) _

/-- What is copied of a list is among the candidates. -/
theorem corrsOf_le_candidateCorrs (h : NeighborInv candidates s) {t : TilePos} {ms : TileMatches K}
    (hcols : Copied info (s.reportedOf candidates t).cols ms.cols)
    (hrows : Copied info (s.reportedOf candidates t).rows ms.rows) {side : Side} (pos : ℕ)
    {c : MatchMergeCall K} (hc : c ∈ mergedLists info (tileDims info t) ms side) :
    corrsOf (columnMatches c.mergeStartCol pos c.ms) ≤ candidateCorrs candidates t side pos := by
  have hreported := corrs_reportedOf candidates s t side pos (h.le_readThreshold side pos)
  refine le_trans ?_ ((le_of_eq hreported).trans (Multiset.filter_le _ _))
  have hcolumn : ∀ {l l' : List (SCAMPmatch K)} (start : ℕ), l.Subperm l' →
      corrsOf (columnMatches start pos l) ≤ corrsOf (columnMatches start pos l') := fun start hl =>
    Multiset.map_le_map (f := SCAMPmatch.corr) (Multiset.coe_le.mpr (hl.filter _))
  rw [map_corr_presentedByCalls]
  unfold mergedLists at hc ⊢
  rw [List.map_append, List.sum_append]
  rcases List.mem_append.mp hc with hc | hc
  · refine le_trans ?_ (Multiset.le_add_right _ _)
    split at hc
    · next hside =>
        obtain rfl := List.mem_singleton.mp hc
        rw [if_pos hside, List.map_singleton, List.sum_singleton]
        exact hcolumn _ hcols.2.1
    · exact absurd hc List.not_mem_nil
  · refine le_trans ?_ (Multiset.le_add_left _ _)
    split at hc
    · next hside =>
        obtain rfl := List.mem_singleton.mp hc
        rw [if_pos hside, List.map_singleton, List.sum_singleton]
        exact hcolumn _ hrows.2.1
    · exact absurd hc List.not_mem_nil

/-- **Untied matches are enough**, unless rows of a self-join are kept separate. -/
theorem attemptKeeps_of_untied (h : NeighborInv candidates s) {t : TilePos} {ms : TileMatches K}
    (hk : 0 < info.queueSize) (hjoin : info.selfJoin = true → Tile.mergeTargetB info ≠ some .b)
    (hfits : CountFits info (s.reportedOf candidates t).cols ∧ CountFits info (s.reportedOf candidates t).rows)
    (hcols : Copied info (s.reportedOf candidates t).cols ms.cols)
    (hrows : Copied info (s.reportedOf candidates t).rows ms.rows)
    (huntied : ∀ side pos, ∀ c ∈ mergedLists info (tileDims info t) ms side,
      Untied info.queueSize (columnMatches c.mergeStartCol pos c.ms)) :
    AttemptKeeps candidates s t ms where
  fits := hfits
  raises := by
    intro _ side pos _ c hc x hx hmany _
    have hdesc := (sorted_mergedLists hcols.1 hrows.1 c hc).column c.mergeStartCol pos
    have hle := corrsOf_le_candidateCorrs h hcols hrows pos hc
    -- without ties the matches before it are all better
    have hbetter := le_countGT_of_untied hk hdesc (huntied side pos c hc) hmany hx
    exact (hbetter.trans (countGT_of_le hle _)).trans (Nat.le_add_left _ _)
  foreign := by
    intro _ side pos hown
    -- a profile without thresholds of its own gets no candidates
    have hnone : candidateCorrs candidates t side pos = 0 := by
      unfold OwnThresholds thresholdSource at hown
      by_cases hself : info.selfJoin = true
      · rw [if_pos hself] at hown
        cases side with
        | a => exact absurd rfl hown
        | b =>
            unfold candidateCorrs mergedLists
            rw [if_neg (by decide), if_neg (hjoin hself)]
            rfl
      · rw [if_neg hself] at hown
        exact absurd rfl hown
    intro x hx
    rw [hnone] at hx
    exact absurd hx (Multiset.notMem_zero x)

end

end

end

/-! ## The whole run -/

section
variable {K : Type} [Field K] [LinearOrder K]

/-- The operation of a join with room for `perTile` matches per tile. -/
def Join.neighborInfo (J : Join K) (perTile : ℤ) : OpInfo K := { J.info with maxMatchesPerTile := perTile }

theorem neighborInv_init (J : Join K) (perTile : ℤ) (candidates : Candidates (J.neighborInfo perTile))
    (thresholdsA thresholdsB : Buffer K) :
    NeighborInv candidates (.init J.args thresholdsA thresholdsB) where
  queues side pos := by
    cases side <;> exact (topK_zero _).symm
  thresholds side pos _ := by
    cases side <;> exact ⟨le_refl _, Or.inl rfl⟩

/-- **The queues hold the best matches.** In every run of tiles and attempts that meets the condition, the
    queue of every column holds, at every moment, exactly the top `max_matches_per_column` list of the
    correlations of all candidates of the tiles merged so far that are above the user's threshold. A tile whose
    numbers of matches fit an `int` can always be attempted. -/
theorem neighbors_topK (J : Join K) (perTile : ℤ) (candidates : Candidates (J.neighborInfo perTile))
    (thresholdsA thresholdsB : Buffer K) (s : NeighborState K)
    (hrun : Relation.ReflTransGen (KeepingStep candidates) (.init J.args thresholdsA thresholdsB) s) :
    (∀ side pos, ((s.profile side).matchValue.get pos).corrs =
      topK J.args.maxMatchesPerColumn.toNat (allCandidates candidates s.merged side pos)) ∧
      (0 ≤ perTile → ∀ t, s.current = some t →
        CountFits (J.neighborInfo perTile) (s.reportedOf candidates t).cols →
        CountFits (J.neighborInfo perTile) (s.reportedOf candidates t).rows →
        ∃ ms s', neighborStep candidates (.attempt ms) s = some s') :=
  ⟨(run_inv (I := NeighborInv candidates) (fun _ _ h hstep => h.step hstep) hrun
    (neighborInv_init J perTile candidates thresholdsA thresholdsB)).queues,
    fun hroom _ ht => exists_attempt hroom ht⟩

/-- A join of two series of four windows each, on one worker, with one match for each column. -/
def tiedJoin : Join ℚ where
  args := { abJoinArgs .approxAllNeighbors (.replicate 6 (.finite 0)) (.replicate 6 (.finite 0)) 3 with
    maxMatchesPerColumn := 1 }
  numThreads := 1
  threads_pos := Nat.one_pos
  valid := rfl
  columns := rfl
  rows_self := fun h => absurd h (by decide)
  rows_ab := fun _ => rfl
  type_a := rfl
  type_b := fun _ => rfl

/-- Candidates of its only tile. -/
def oneTileCandidates (ms : List (SCAMPmatch ℚ)) (hlt : ∀ m ∈ ms, m.col < 4) (perTile : ℤ) :
    Candidates (tiedJoin.neighborInfo perTile) where
  ofTile t := if t = (0, 0) then ⟨ms, []⟩ else ⟨[], []⟩
  cols_lt t m hm := by
    split at hm
    · next ht =>
        rw [ht]
        exact hlt m hm
    · exact absurd hm List.not_mem_nil
  rows_lt t m hm := by
    split at hm <;> exact absurd hm List.not_mem_nil

/-- The state in which the worker has just taken the tile. -/
def tiedStart : NeighborState ℚ :=
  { NeighborState.init tiedJoin.args (fun _ => 0) (fun _ => 0) with current := some (0, 0) }

/-- Three matches of the first column, none of them tied, and one for each of two others. -/
def rankedMatches : List (SCAMPmatch ℚ) :=
  [⟨1 / 2, 0, 0⟩, ⟨2 / 5, 1, 0⟩, ⟨1 / 3, 2, 0⟩, ⟨1 / 4, 0, 1⟩, ⟨1 / 4, 0, 2⟩]

def rankedCandidates : Candidates (tiedJoin.neighborInfo 4) :=
  oneTileCandidates rankedMatches (by decide +kernel) 4

/-- What is stored of them the first time, when there is only room for four. -/
def rankedStored : TileMatches ℚ := ⟨[⟨1 / 2, 0, 0⟩, ⟨2 / 5, 1, 0⟩, ⟨1 / 3, 2, 0⟩, ⟨1 / 4, 0, 1⟩], []⟩

theorem untied_rankedStored (pos : ℕ) : Untied 1 (columnMatches 0 pos rankedStored.cols) := by
  rcases Nat.lt_or_ge pos 2 with hlt | hge
  · have hcases : pos = 0 ∨ pos = 1 := by omega
    rcases hcases with rfl | rfl
    · rintro - x y hx hy
      obtain rfl := Option.some.inj (show some _ = some x from hx)
      obtain rfl := Option.some.inj (show some _ = some y from hy)
      decide +kernel
    · exact fun hmany => absurd hmany (by decide +kernel)
  · -- the other columns have no match
    have hnone : columnMatches 0 pos rankedStored.cols = [] := by
      refine List.filter_eq_nil_iff.mpr fun m hm hcol => ?_
      have hlt : ∀ m ∈ rankedStored.cols, m.col < 2 := by decide +kernel
      have := hlt m hm
      have := of_decide_eq_true hcol
      omega
    rw [hnone]
    exact fun hmany => absurd hmany (Nat.not_lt_zero _)

/-- A tile that is run again: the first run raises the threshold of the first column to the second of its
    candidates, and the second one reports the best. -/
theorem neighbors_topK_retried : ∃ s : NeighborState ℚ, s.merged = [(0, 0)] ∧
    ((s.profile .a).matchValue.get 0).corrs = topK 1 (allCandidates rankedCandidates s.merged .a 0) := by
  have hraise : (neighborStep rankedCandidates (.attempt rankedStored) tiedStart).map
      (fun s => (s.current, s.merged)) = some (some (0, 0), []) := by
    decide +kernel
  obtain ⟨s₁, hs₁, heq⟩ := Option.map_eq_some_iff.mp hraise
  obtain ⟨hcurrent, hnone⟩ := Prod.mk.inj heq
  have hreported : s₁.reportedOf rankedCandidates (0, 0) =
      ⟨[⟨1 / 2, 0, 0⟩, ⟨1 / 4, 0, 1⟩, ⟨1 / 4, 0, 2⟩], []⟩ := by
    have hagain : (neighborStep rankedCandidates (.attempt rankedStored) tiedStart).map
        (fun s => ((s.reportedOf rankedCandidates (0, 0)).cols, (s.reportedOf rankedCandidates (0, 0)).rows)) =
        some ([⟨1 / 2, 0, 0⟩, ⟨1 / 4, 0, 1⟩, ⟨1 / 4, 0, 2⟩], []) := by
      decide +kernel
    rw [hs₁] at hagain
    obtain ⟨hcols, hrows⟩ := Prod.mk.inj (Option.some.inj hagain)
    exact congrArg₂ TileMatches.mk hcols hrows
  have hfits : overflows (tiedJoin.neighborInfo 4) (s₁.reportedOf rankedCandidates (0, 0)) = false := by
    rw [hreported]
    decide +kernel
  -- what is reported now is all stored
  have hcopied : Copied (tiedJoin.neighborInfo 4) (s₁.reportedOf rankedCandidates (0, 0)).cols
      (s₁.reportedOf rankedCandidates (0, 0)).cols ∧
      Copied (tiedJoin.neighborInfo 4) (s₁.reportedOf rankedCandidates (0, 0)).rows [] := by
    rw [hreported]
    decide +kernel
  have hmerge : ∃ s, neighborStep rankedCandidates
      (.attempt ⟨(s₁.reportedOf rankedCandidates (0, 0)).cols, []⟩) s₁ = some s ∧ s.merged = [(0, 0)] := by
    unfold neighborStep
    rw [hcurrent]
    dsimp only
    rw [if_pos hcopied, hfits]
    exact ⟨_, rfl, congrArg ((0, 0) :: ·) hnone⟩
  obtain ⟨s, hs, hmerged⟩ := hmerge
  have hstart := neighborInv_init tiedJoin 4 rankedCandidates (fun _ => 0) (fun _ => 0)
  have hpop : KeepingStep rankedCandidates (.init tiedJoin.args (fun _ => 0) (fun _ => 0)) tiedStart :=
    ⟨.pop (0, 0), rfl, trivial⟩
  have hretry : KeepingStep rankedCandidates tiedStart s₁ := by
    refine ⟨.attempt rankedStored, hs₁, attemptKeeps_of_untied (hstart.step hpop) Nat.one_pos
      (fun h => absurd h (by decide)) ?_ (by decide +kernel) (by decide +kernel) ?_⟩
    · unfold CountFits
      decide +kernel
    · intro side pos c hc
      cases side with
      | a =>
          obtain rfl := List.mem_singleton.mp hc
          exact untied_rankedStored pos
      | b => exact absurd hc List.not_mem_nil
  have hlast : KeepingStep rankedCandidates s₁ s := by
    refine ⟨_, hs, ?_⟩
    unfold StepKeeps
    rw [hcurrent]
    refine ⟨?_, fun hover => ?_, fun _ side pos hown => absurd rfl hown⟩
    · rw [hreported]
      unfold CountFits
      decide +kernel
    · rw [hfits] at hover
      exact absurd hover Bool.false_ne_true
  exact ⟨s, hmerged, (neighbors_topK tiedJoin 4 rankedCandidates (fun _ => 0) (fun _ => 0) s
    (((Relation.ReflTransGen.single hpop).tail hretry).tail hlast)).1 .a 0⟩

/-! ## A tie -/

/-- Candidates of the same tile that are tied in the first column. -/
def tiedMatches : List (SCAMPmatch ℚ) :=
  [⟨1 / 2, 0, 0⟩, ⟨1 / 2, 1, 0⟩, ⟨1 / 2, 2, 0⟩, ⟨1 / 4, 0, 1⟩, ⟨1 / 4, 0, 2⟩]

def tiedCandidates (perTile : ℤ) : Candidates (tiedJoin.neighborInfo perTile) :=
  oneTileCandidates tiedMatches (by decide +kernel) perTile

/-- The tile is run twice. The first time there is only room for four of its matches. -/
def tiedActions : List (NeighborAction ℚ) :=
  [.pop (0, 0),
    .attempt ⟨[⟨1 / 2, 0, 0⟩, ⟨1 / 2, 1, 0⟩, ⟨1 / 2, 2, 0⟩, ⟨1 / 4, 0, 1⟩], []⟩,
    .attempt ⟨[⟨1 / 4, 0, 1⟩, ⟨1 / 4, 0, 2⟩], []⟩]

omit [Field K] in
/-- A list of actions taken one after the other is a run. -/
theorem run_of_foldlM {info : OpInfo K} {candidates : Candidates info} :
    ∀ (acts : List (NeighborAction K)) {s s' : NeighborState K},
      acts.foldlM (fun s act => neighborStep candidates act s) s = some s' →
      Relation.ReflTransGen (fun s s' => ∃ act, neighborStep candidates act s = some s') s s'
  | [], s, s', h => by
      obtain rfl := Option.some.inj h
      exact .refl
  | act :: acts, s, s', h => by
      rw [List.foldlM_cons] at h
      obtain ⟨s₁, hs₁, h⟩ := Option.bind_eq_some_iff.mp h
      exact (run_of_foldlM acts h).head ⟨act, hs₁⟩

/-- **A tie is lost.** The first run raises the threshold of the first column to the correlation of all its
    candidates, and the second one reports none of them. -/
theorem tiedJoin_loses :
    tiedJoin.args.maxMatchesPerColumn * (tiedJoin.neighborInfo 4).maxTileWidth ≤
        (tiedJoin.neighborInfo 4).maxMatchesPerTile ∧
      ∃ s, Relation.ReflTransGen (fun s s' => ∃ act, neighborStep (tiedCandidates 4) act s = some s')
          (.init tiedJoin.args (fun _ => 0) (fun _ => 0)) s ∧
        s.current = none ∧ s.merged = [(0, 0)] ∧
        ((s.profile .a).matchValue.get 0).corrs ≠
          topK tiedJoin.args.maxMatchesPerColumn.toNat (allCandidates (tiedCandidates 4) s.merged .a 0) := by
  refine ⟨by decide +kernel, ?_⟩
  have hrun : (tiedActions.foldlM (fun s act => neighborStep (tiedCandidates 4) act s)
      (.init tiedJoin.args (fun _ => 0) (fun _ => 0))).map
        (fun s => (s.current, s.merged, ((s.profile .a).matchValue.get 0).entries)) =
      some (none, [(0, 0)], []) := by
    decide +kernel
  obtain ⟨s, hs, heq⟩ := Option.map_eq_some_iff.mp hrun
  simp only [Prod.mk.injEq] at heq
  obtain ⟨hcurrent, hmerged, hentries⟩ := heq
  refine ⟨s, run_of_foldlM tiedActions hs, hcurrent, hmerged, fun hsame => ?_⟩
  have hcandidates : (allCandidates (tiedCandidates 4) [(0, 0)] .a 0).card = 3 := by
    decide +kernel
  have hcard := congrArg Multiset.card hsame
  rw [card_topK, hmerged, hcandidates] at hcard
  unfold MatchQueue.corrs at hcard
  rw [hentries] at hcard
  exact absurd hcard (by decide)

end

end Scamp
