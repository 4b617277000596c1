import Scamp.Core.Correctness.KernelRun

/-!
# `Core.Correctness.Visits` — the kernel cell by cell, for every unroll width

`do_tile` visits the rows of its blocks one after the other, in an unrolled fast path or a slow one. This
module takes the visits apart without asking what the profile is for: the covariance that a cell finds in
its slot is the one of the recurrence (`cov_at_visit`), and what the profiles hold in the end is what the
updates of the visited cells make of them (`profileA_doTile`, `value_doTile_rows`). None of this depends on
how the diagonals are cut into blocks, so that the profiles do not either (`doTile_unrolled`).

## Contents
- **Visits.** `doTileVisits`, `visitCells`, and the pass as a fold over them.
- **Covariances.** A slot changes once for each row of its diagonal, in order.
- **Profiles.** `takeIn`, one update as it shows in the values, and the fold of a profile entry.
- **Accesses.** `visitAccesses`, the positions a visit reads and writes.
-/

namespace Scamp

open Lib

/-! ## The rows a pass visits -/

/-- The rows of blocks that `do_tile` visits, in order: the first diagonal of the block, and the row. -/
def doTileVisits (U : ℕ) (a : KernelDims) : List (ℕ × ℕ) :=
  (forRange a.exclusionLower a.numDiags U).flatMap fun tileDiag =>
    (List.range (a.rowIters tileDiag)).map fun row => (tileDiag, row)

/-- The cells of a visited row. -/
def visitCells (U : ℕ) (a : KernelDims) (v : ℕ × ℕ) : List (ℕ × ℕ) :=
  rowCells v.1 v.2 (rowLen U a v.1 v.2)

/-- The visit updates the slot of diagonal `d`. -/
def Covers (U : ℕ) (a : KernelDims) (d : ℕ) (v : ℕ × ℕ) : Prop :=
  v.1 ≤ d ∧ d < v.1 + rowLen U a v.1 v.2

instance (U : ℕ) (a : KernelDims) (d : ℕ) : DecidablePred (Covers U a d) :=
  fun _ => inferInstanceAs (Decidable (_ ∧ _))

section
variable {U : ℕ} (hU : 0 < U) (a : KernelDims)
include hU

theorem doTileCells_eq_visits : doTileCells U a = (doTileVisits U a).flatMap (visitCells U a) := by
  unfold doTileCells doTileVisits
  rw [List.flatMap_assoc]
  apply List.flatMap_congr
  intro tileDiag _
  rw [blockRows_eq hU, List.flatMap_map, List.flatMap_map]
  rfl

omit hU in
/-- The diagonals a visit covers are those of its block that still have a cell in its row. -/
theorem covers_iff {tileDiag row d : ℕ} : Covers U a d (tileDiag, row) ↔
    tileDiag ≤ d ∧ d < tileDiag + U ∧ d < a.numDiags ∧ row + d < a.nX := by
  unfold Covers rowLen KernelDims.diagmax
  dsimp only
  omega

omit hU in
/-- Counting up to a bound, in a loop that may end before. -/
theorem filter_range_lt (n k : ℕ) : (List.range n).filter (fun i => i < k) = List.range (min k n) := by
  rw [range_split (Nat.min_le_right k n), List.filter_append]
  have hlow : (List.range (min k n)).filter (fun i => i < k) = List.range (min k n) := by
    apply List.filter_eq_self.mpr
    intro i hi
    have := List.mem_range.mp hi
    exact decide_eq_true (by omega)
  have hhigh : (List.range' (min k n) (n - min k n)).filter (fun i => i < k) = [] := by
    apply List.filter_eq_nil_iff.mpr
    intro i hi
    have := List.mem_range'_1.mp hi
    simp only [decide_eq_true_eq]
    omega
  rw [hlow, hhigh, List.append_nil]

/-- **The visits to a diagonal** are those of its rows, one after the other, all in one block. -/
theorem filter_covers {tileDiag d : ℕ} (htd : tileDiag ∈ forRange a.exclusionLower a.numDiags U)
    (hle : tileDiag ≤ d) (hlt : d < tileDiag + U) (hd : d < a.numDiags) :
    (doTileVisits U a).filter (Covers U a d) =
      (List.range (min (a.nX - d) (a.rowIters tileDiag))).map fun row => (tileDiag, row) := by
  unfold doTileVisits
  rw [List.filter_flatMap]
  rw [flatMap_single (nodup_forRange hU) htd]
  · rw [List.filter_map, ← filter_range_lt]
    congr 1
    apply List.filter_congr
    intro row _
    have : Covers U a d (tileDiag, row) ↔ row < a.nX - d := by
      rw [covers_iff]
      omega
    simp [this]
  · intro b hb hne
    apply List.filter_eq_nil_iff.mpr
    intro v hv
    obtain ⟨row, _, rfl⟩ := List.mem_map.mp hv
    intro hcover
    obtain ⟨h1, h2, _⟩ := (covers_iff a).mp (of_decide_eq_true hcover)
    exact hne (block_unique hU hb htd h1 h2 hle hlt)

/-- Before the visit to row `row` of a diagonal come exactly the visits to the rows above it. -/
theorem filter_covers_before {pre post : List (ℕ × ℕ)} {v : ℕ × ℕ}
    (hsplit : doTileVisits U a = pre ++ v :: post) {d : ℕ} (hv : Covers U a d v) :
    pre.filter (Covers U a d) = (List.range v.2).map fun row => (v.1, row) := by
  obtain ⟨tileDiag, row⟩ := v
  obtain ⟨hle, hlt, hd, _⟩ := (covers_iff a).mp hv
  have htd : tileDiag ∈ forRange a.exclusionLower a.numDiags U := by
    have hmem : (tileDiag, row) ∈ doTileVisits U a := by rw [hsplit]; simp
    unfold doTileVisits at hmem
    obtain ⟨b, hb, hrow⟩ := List.mem_flatMap.mp hmem
    obtain ⟨_, _, heq⟩ := List.mem_map.mp hrow
    obtain ⟨rfl, _⟩ := Prod.mk.inj heq
    exact hb
  have hall := filter_covers hU a htd hle hlt hd
  rw [hsplit, List.filter_append, List.filter_cons_of_pos (by simpa using hv)] at hall
  -- the visit stands in that list at the place of its row
  generalize hn : min (a.nX - d) (a.rowIters tileDiag) = n at hall
  have hfront : pre.filter (Covers U a d) =
      ((List.range n).map fun row => (tileDiag, row)).take (pre.filter (Covers U a d)).length := by
    rw [← hall, List.take_left']
    rfl
  have hplace : ((List.range n).map fun row => (tileDiag, row))[(pre.filter (Covers U a d)).length]? =
      some (tileDiag, row) := by
    rw [← hall, List.getElem?_append_right (le_refl _), Nat.sub_self]
    rfl
  rw [List.getElem?_map, List.getElem?_range] at hplace
  · have hlen : (pre.filter (Covers U a d)).length = row := by simpa using hplace
    have hrow : row ≤ n := by
      have := congrArg List.length hall
      simp at this
      omega
    rw [hfront, hlen, ← List.map_take, List.take_range, Nat.min_eq_left hrow]
  · have := congrArg List.length hall
    simp at this
    omega

end

/-! ## Covariances -/

section
variable {K : Type} [Field K] [LinearOrder K] {bld : KernelBuild K} {type : SCAMPProfileType}
  {rows cols : Bool} {a : KernelArgs K}

/-- One visit of a pass. -/
def visit (bld : KernelBuild K) (type : SCAMPProfileType) (rows cols : Bool) (a : KernelArgs K)
    (s : KernelState K) (v : ℕ × ℕ) : KernelState K :=
  handleRowAt bld type rows cols a v.1 v.2 s

/-- **A pass visits its rows in order.** -/
theorem doTile_eq_visits (s : KernelState K) : doTile bld type rows cols a s =
    (doTileVisits bld.unrollWid a.toKernelDims).foldl (visit bld type rows cols a) s := by
  rw [doTile_eq]
  unfold doTileVisits
  rw [List.foldl_flatMap]
  apply List.foldl_ext
  intro s tileDiag _
  rw [List.foldl_map]
  rfl

/-- The reduction a visited row is handed to. -/
def rowReduction (bld : KernelBuild K) (a : KernelDims) (tileDiag row : ℕ) :
    SCAMPProfileType → Vec (Dbl K) → K → Dbl K × ℕ :=
  if row < a.fullRowIters bld.unrollWid tileDiag then reduceRowFast bld else reduceRowEigen bld

/-- Both paths are `handle_row` on the diagonals of the row. -/
theorem visit_eq (s : KernelState K) (v : ℕ × ℕ) : visit bld type rows cols a s v =
    handleRow (rowReduction bld a.toKernelDims v.1 v.2) type rows cols a v.1 v.2
      (rowLen bld.unrollWid a.toKernelDims v.1 v.2) s := by
  unfold visit handleRowAt rowReduction
  split
  · next hfast =>
      have hU : rowLen bld.unrollWid a.toKernelDims v.1 v.2 = bld.unrollWid := diagmax_of_fast hfast
      rw [hU]
      rfl
  · rfl

omit [LinearOrder K] in
/-- The covariance of the recurrence, written out. -/
theorem covAt_eq_sum (a : KernelArgs K) (cov : Buffer K) (row d : ℕ) : covAt a cov row d =
    cov d + ∑ i ∈ Finset.range row, (a.dfa (d + i) * a.dgb i + a.dga (d + i) * a.dfb i) := by
  induction row with
  | zero => simp [covAt]
  | succ row ih => rw [covAt, ih, Finset.sum_range_succ, add_assoc, add_assoc]

/-- A slot changes with the visits that cover its diagonal. -/
theorem cov_visits (l : List (ℕ × ℕ)) : ∀ (s : KernelState K) (d : ℕ),
    (l.foldl (visit bld type rows cols a) s).cov d =
      (l.filter (Covers bld.unrollWid a.toKernelDims d)).foldl
        (fun x v => x + a.dfa (d + v.2) * a.dgb v.2 + a.dga (d + v.2) * a.dfb v.2) (s.cov d) := by
  induction l with
  | nil =>
      intro s d
      rfl
  | cons v l ih =>
      intro s d
      have hcov : (visit bld type rows cols a s v).cov d =
          if Covers bld.unrollWid a.toKernelDims d v then
            s.cov d + a.dfa (d + v.2) * a.dgb v.2 + a.dga (d + v.2) * a.dfb v.2
          else s.cov d := by
        rw [visit_eq]
        rfl
      rw [List.foldl_cons, ih, hcov]
      by_cases hv : Covers bld.unrollWid a.toKernelDims d v
      · rw [if_pos hv, List.filter_cons_of_pos (by simpa using hv), List.foldl_cons]
      · rw [if_neg hv, List.filter_cons_of_neg (by simpa using hv)]

/-- **The covariance at a visit.** A cell finds in the slot of its diagonal the covariance of the recurrence,
    whatever was visited before. -/
theorem cov_at_visit (s : KernelState K) {pre post : List (ℕ × ℕ)} {v : ℕ × ℕ}
    (hsplit : doTileVisits bld.unrollWid a.toKernelDims = pre ++ v :: post) {d : ℕ}
    (hd : d < rowLen bld.unrollWid a.toKernelDims v.1 v.2) :
    (pre.foldl (visit bld type rows cols a) s).cov (v.1 + d) = covAt a s.cov v.2 (v.1 + d) := by
  have hv : Covers bld.unrollWid a.toKernelDims (v.1 + d) v := ⟨by omega, by omega⟩
  rw [cov_visits, filter_covers_before bld.unrollWid_pos a.toKernelDims hsplit hv, List.foldl_map]
  generalize v.2 = row
  induction row with
  | zero => rfl
  | succ row ih => rw [List.range_succ, List.foldl_append, ih, covAt]; rfl

/-! ## Updates as they show in the values -/

/-- The value an entry has after it was offered a correlation. -/
def takeIn (type : SCAMPProfileType) (threshold : K) (v corr : Dbl K) : Dbl K :=
  match type with
  | .oneNNIndex => if corr.gt v then corr else v
  | .oneNN => if v.ge corr then v else corr
  | .sumThresh => if corr.gt (.num threshold) then v.add corr else v
  | .matrixSummary => if (Dbl.num threshold).gt corr || v.ge corr then v else corr
  | _ => v

/-- The position of the entry that the update of a cell is about. -/
def updateIndex (type : SCAMPProfileType) (rowwise : Bool) (a : KernelArgs K) (z : ℕ × ℕ) : ℤ :=
  if type = .matrixSummary then (if rowwise then matrixIndex a z.1 z.2 else matrixIndex a z.2 z.1)
  else if rowwise then z.1 else z.2

omit [Field K] [LinearOrder K] in
/-- An entry gets a new value from its old one when that passes a check. -/
theorem value_update_of (mp : Buffer (MpEntry K)) (idx i : ℕ) {e : MpEntry K} (q : Dbl K → Bool)
    (f : Dbl K → Dbl K) (he : e.value = f (mp idx).value) :
    ((if q (mp idx).value then Function.update mp idx e else mp) i).value =
      if idx = i then (if q (mp i).value then f (mp i).value else (mp i).value) else (mp i).value := by
  by_cases hi : idx = i
  · subst hi
    cases q (mp idx).value <;> simp [he]
  · cases q (mp idx).value <;> simp [Function.update_of_ne (Ne.symm hi), hi]

omit [Field K] [LinearOrder K] in
/-- An entry gets a new value unless its old one passes a check. -/
theorem value_update_unless (mp : Buffer (MpEntry K)) (idx i : ℕ) (e : MpEntry K) (q : Dbl K → Bool) :
    ((if q (mp idx).value then mp else Function.update mp idx e) i).value =
      if idx = i then (if q (mp i).value then (mp i).value else e.value) else (mp i).value := by
  by_cases hi : idx = i
  · subst hi
    cases q (mp idx).value <;> simp
  · cases q (mp idx).value <;> simp [Function.update_of_ne (Ne.symm hi), hi]

/-- **One update**: the entry of the cell takes in its correlation. -/
theorem value_updateMp (type : SCAMPProfileType) (rowwise : Bool) (a : KernelArgs K)
    (mp : Buffer (MpEntry K)) (corr : Dbl K) (z : ℕ × ℕ) (i : ℕ) :
    (updateMp type rowwise a mp corr z.1 z.2 i).value =
      if (updateIndex type rowwise a z).toNat = i then takeIn type a.threshold (mp i).value corr
      else (mp i).value := by
  have hindex : type ≠ .matrixSummary →
      (updateIndex type rowwise a z).toNat = if rowwise then z.1 else z.2 := by
    intro hne
    unfold updateIndex
    rw [if_neg hne]
    cases rowwise <;> rfl
  unfold updateMp takeIn
  cases type with
  | oneNNIndex =>
      rw [hindex nofun]
      exact value_update_of mp _ i (fun v => corr.gt v) (fun _ => corr) rfl
  | oneNN =>
      rw [hindex nofun]
      exact value_update_unless mp _ i _ fun v => v.ge corr
  | sumThresh =>
      rw [hindex nofun]
      exact value_update_of mp _ i (fun _ => corr.gt (.num a.threshold)) (fun v => v.add corr) rfl
  | matrixSummary => exact value_update_unless mp _ i _ fun v => (Dbl.num a.threshold).gt corr || v.ge corr
  | _ => exact (ite_self _).symm

/-- The value of an entry after the updates of some cells. -/
theorem value_foldl_updateMp (type : SCAMPProfileType) (rowwise : Bool) (a : KernelArgs K)
    (corr : ℕ × ℕ → Dbl K) (i : ℕ) (l : List (ℕ × ℕ)) : ∀ mp : Buffer (MpEntry K),
      (l.foldl (fun mp z => updateMp type rowwise a mp (corr z) z.1 z.2) mp i).value =
        (l.filter fun z => (updateIndex type rowwise a z).toNat = i).foldl
          (fun v z => takeIn type a.threshold v (corr z)) (mp i).value := by
  induction l with
  | nil =>
      intro mp
      rfl
  | cons z l ih =>
      intro mp
      rw [List.foldl_cons, ih, value_updateMp]
      by_cases hz : (updateIndex type rowwise a z).toNat = i
      · rw [if_pos hz, List.filter_cons_of_pos (by simpa using hz), List.foldl_cons]
      · rw [if_neg hz, List.filter_cons_of_neg (by simpa using hz)]

/-- `mp >= corr ? mp : corr` on numbers. -/
theorem takeIn_max {type : SCAMPProfileType} (htype : type = .oneNNIndex ∨ type = .oneNN) (threshold v x : K) :
    takeIn type threshold (.num v) (.num x) = .num (max v x) := by
  rcases htype with rfl | rfl
  · unfold takeIn
    rcases le_total x v with h | h
    · simp [h]
    · rcases eq_or_lt_of_le h with rfl | hlt <;> simp [*]
  · unfold takeIn
    rcases le_total x v with h | h
    · simp [h]
    · rcases eq_or_lt_of_le h with rfl | hlt <;> simp [*]

/-- A summary entry takes in a correlation unless it is below the threshold. -/
theorem takeIn_summary (threshold v x : K) : takeIn .matrixSummary threshold (.num v) (.num x) =
    .num (if x < threshold then v else max v x) := by
  unfold takeIn
  by_cases ht : x < threshold
  · simp [ht]
  · rcases le_total x v with h | h
    · simp [ht, h]
    · rcases eq_or_lt_of_le h with rfl | hlt
      · simp
      · simp [ht, hlt.not_ge, h]

/-- The order in which numbers are taken in does not matter. -/
theorem takeIn_comm (type : SCAMPProfileType) (threshold : K) (v : Dbl K) (x y : K) :
    takeIn type threshold (takeIn type threshold v (.num x)) (.num y) =
      takeIn type threshold (takeIn type threshold v (.num y)) (.num x) := by
  cases v with
  | num v =>
      cases type with
      | oneNNIndex => simp only [takeIn_max (Or.inl rfl), max_right_comm]
      | oneNN => simp only [takeIn_max (Or.inr rfl), max_right_comm]
      | sumThresh =>
          unfold takeIn
          by_cases hx : threshold < x <;> by_cases hy : threshold < y <;> simp [hx, hy, add_right_comm]
      | matrixSummary =>
          simp only [takeIn_summary]
          by_cases hx : x < threshold <;> by_cases hy : y < threshold <;> simp [hx, hy, max_right_comm]
      | _ => rfl
  | nan =>
      -- a NaN entry is replaced by the first number, or stays
      cases type with
      | oneNN =>
          show takeIn .oneNN threshold (.num x) (.num y) = takeIn .oneNN threshold (.num y) (.num x)
          rw [takeIn_max (Or.inr rfl), takeIn_max (Or.inr rfl), max_comm]
      | matrixSummary =>
          have hnan : ∀ x : K, takeIn .matrixSummary threshold .nan (.num x) =
              if x < threshold then .nan else .num x := by
            intro x
            unfold takeIn
            by_cases hx : x < threshold <;> simp [hx, Dbl.ge]
          rw [hnan, hnan]
          by_cases hx : x < threshold <;> by_cases hy : y < threshold <;>
            simp [hx, hy, hnan, takeIn_summary, max_comm]
      | oneNNIndex => rfl
      | sumThresh =>
          unfold takeIn
          by_cases hx : threshold < x <;> by_cases hy : threshold < y <;> simp [hx, hy, Dbl.add]
      | _ => rfl

/-- Two lists of the same numbers leave the same value. -/
theorem takeIn_perm (type : SCAMPProfileType) (threshold : K) {corr : ℕ × ℕ → Dbl K} {l l' : List (ℕ × ℕ)}
    (h : l.Perm l') (hnum : ∀ z ∈ l, ∃ x, corr z = .num x) (v : Dbl K) :
    l.foldl (fun v z => takeIn type threshold v (corr z)) v =
      l'.foldl (fun v z => takeIn type threshold v (corr z)) v := by
  apply h.foldl_eq'
  intro z hz z' hz' v
  obtain ⟨x, hx⟩ := hnum z hz
  obtain ⟨y, hy⟩ := hnum z' hz'
  rw [hx, hy, takeIn_comm]

/-! ## Profiles -/

/-- The correlation the kernel has for a cell of a pass that starts from the covariances `cov`. -/
def kernelCorr (type : SCAMPProfileType) (a : KernelArgs K) (cov : Buffer K) (z : ℕ × ℕ) : Dbl K :=
  dropNan type a (((Dbl.num (covAt a cov z.1 (z.2 - z.1))).mul (a.normsa z.2)).mul (a.normsb z.1))

/-- The correlations of a visited row. -/
theorem rowCorr_at_visit (s : KernelState K) {pre post : List (ℕ × ℕ)} {v : ℕ × ℕ}
    (hsplit : doTileVisits bld.unrollWid a.toKernelDims = pre ++ v :: post) {d : ℕ}
    (hd : d < rowLen bld.unrollWid a.toKernelDims v.1 v.2) :
    (rowCorr type a (pre.foldl (visit bld type rows cols a) s).cov v.1 v.2
      (rowLen bld.unrollWid a.toKernelDims v.1 v.2)).get d =
      kernelCorr type a s.cov (v.2, v.1 + v.2 + d) := by
  unfold rowCorr kernelCorr
  dsimp only
  rw [cov_at_visit s hsplit hd, show v.1 + v.2 + d - v.2 = v.1 + d by omega]

/-- **The column profile after a pass**: the updates of the visited cells, in their order. -/
theorem profileA_doTile (s : KernelState K) : (doTile bld type rows true a s).profileA =
    (doTileCells bld.unrollWid a.toKernelDims).foldl
      (fun mp z => updateMp type false a mp (kernelCorr type a s.cov z) z.1 z.2) s.profileA := by
  rw [doTile_eq_visits, doTileCells_eq_visits bld.unrollWid_pos]
  -- over the visits made so far
  have hvisits : ∀ pre post, doTileVisits bld.unrollWid a.toKernelDims = pre ++ post →
      (pre.foldl (visit bld type rows true a) s).profileA =
        (pre.flatMap (visitCells bld.unrollWid a.toKernelDims)).foldl
          (fun mp z => updateMp type false a mp (kernelCorr type a s.cov z) z.1 z.2) s.profileA := by
    intro pre
    induction pre using List.reverseRecOn with
    | nil =>
        intro post _
        rfl
    | append_singleton pre v ih =>
        intro post hsplit
        have hsplit' : doTileVisits bld.unrollWid a.toKernelDims = pre ++ v :: post := by
          rw [hsplit, List.append_assoc]
          rfl
        rw [List.foldl_append, List.flatMap_append, List.foldl_append, ← ih _ hsplit', List.foldl_cons,
          List.foldl_nil, visit_eq, handleRow_profileA, if_pos rfl]
        unfold updateColumnwise visitCells rowCells
        rw [List.flatMap_singleton, List.foldl_map]
        apply List.foldl_ext
        intro mp d hd
        rw [rowCorr_at_visit s hsplit' (List.mem_range.mp hd)]
  exact hvisits _ [] (List.append_nil _).symm

/-- A pass that does not compute the columns leaves their profile alone. -/
theorem profileA_doTile_off (s : KernelState K) : (doTile bld type rows false a s).profileA = s.profileA := by
  rw [doTile_eq_visits]
  refine List.foldlRecOn (motive := fun (s' : KernelState K) => s'.profileA = s.profileA) _ _ rfl ?_
  intro s' hs' v _
  rw [visit_eq, handleRow_profileA, if_neg Bool.false_ne_true, hs']

theorem profileB_doTile_off (s : KernelState K) : (doTile bld type false cols a s).profileB = s.profileB := by
  rw [doTile_eq_visits]
  refine List.foldlRecOn (motive := fun (s' : KernelState K) => s'.profileB = s.profileB) _ _ rfl ?_
  intro s' hs' v _
  rw [visit_eq, handleRow_profileB, if_neg Bool.false_ne_true, hs']

/-- What the visit to a row makes of the values of the row profile is what its cells make of them. -/
def RowwiseCells (bld : KernelBuild K) (type : SCAMPProfileType) (a : KernelArgs K) : Prop :=
  ∀ (v : ℕ × ℕ) (corr : Vec (Dbl K)) (x : ℕ → K) (mp : Buffer (MpEntry K)) (i : ℕ), 0 < corr.size →
    corr.size = rowLen bld.unrollWid a.toKernelDims v.1 v.2 → (∀ d < corr.size, corr.get d = .num (x d)) →
      (updateRowwise (rowReduction bld a.toKernelDims v.1 v.2) type a v.1 v.2 corr mp i).value =
        ((List.range corr.size).filter fun d =>
          (updateIndex type true a (v.2, v.1 + v.2 + d)).toNat = i).foldl
          (fun v d => takeIn type a.threshold v (.num (x d))) (mp i).value

/-- Taking in a largest number is taking in all of them. -/
theorem foldl_takeIn_max {type : SCAMPProfileType} (htype : type = .oneNNIndex ∨ type = .oneNN)
    (threshold : K) {x : ℕ → K} {l : List ℕ} {i : ℕ} (hi : i ∈ l) (hmax : ∀ d ∈ l, x d ≤ x i) (v : Dbl K) :
    l.foldl (fun v d => takeIn type threshold v (.num (x d))) v = takeIn type threshold v (.num (x i)) := by
  have hnum : ∀ (l : List ℕ) (w : K), ∃ r, l.foldl (fun v d => takeIn type threshold v (.num (x d))) (.num w) =
      .num r ∧ w ≤ r ∧ (∀ d ∈ l, x d ≤ r) ∧ (r = w ∨ ∃ d ∈ l, r = x d) := by
    intro l
    induction l with
    | nil =>
        intro w
        exact ⟨w, rfl, le_refl w, fun d hd => absurd hd List.not_mem_nil, Or.inl rfl⟩
    | cons d l ih =>
        intro w
        obtain ⟨r, hr, hle, hdom, hatt⟩ := ih (max w (x d))
        refine ⟨r, ?_, (le_max_left _ _).trans hle, ?_, ?_⟩
        · rw [List.foldl_cons, takeIn_max htype]
          exact hr
        · intro d' hd'
          rcases List.mem_cons.mp hd' with rfl | hd'
          · exact (le_max_right _ _).trans hle
          · exact hdom d' hd'
        · rcases hatt with rfl | ⟨d', hd', rfl⟩
          · rcases max_choice w (x d) with h | h
            · exact Or.inl h
            · exact Or.inr ⟨d, List.mem_cons_self, h⟩
          · exact Or.inr ⟨d', List.mem_cons_of_mem _ hd', rfl⟩
  cases v with
  | num w =>
      obtain ⟨r, hr, hle, hdom, hatt⟩ := hnum l w
      rw [hr, takeIn_max htype]
      congr 1
      apply le_antisymm
      · rcases hatt with rfl | ⟨d, hd, rfl⟩
        · exact le_max_left _ _
        · exact (hmax d hd).trans (le_max_right _ _)
      · exact max_le hle (hdom i hi)
  | nan =>
      rcases htype with rfl | rfl
      · -- a NaN entry of this type stays
        clear hi hmax
        induction l with
        | nil => rfl
        | cons d l ih => exact ih
      · obtain ⟨d, l, rfl⟩ := List.exists_cons_of_ne_nil (List.ne_nil_of_mem hi)
        obtain ⟨r, hr, hle, hdom, hatt⟩ := hnum l (x d)
        have hall : ∀ d' ∈ d :: l, x d' ≤ r := by
          intro d' hd'
          rcases List.mem_cons.mp hd' with rfl | hd'
          · exact hle
          · exact hdom d' hd'
        have hr' : r = x i := by
          apply le_antisymm _ (hall i hi)
          rcases hatt with rfl | ⟨d', hd', rfl⟩
          · exact hmax d List.mem_cons_self
          · exact hmax d' (List.mem_cons_of_mem _ hd')
        subst hr'
        exact hr

/-- The reductions of a row take in a largest entry, when they look at all of them. -/
theorem rowwiseCells_of_max {type : SCAMPProfileType} (htype : type = .oneNNIndex ∨ type = .oneNN)
    (hbld : type = .oneNNIndex → ReducesWholeRow bld) : RowwiseCells bld type a := by
  intro v corr x mp i hpos hlen hcorr
  have hne : type ≠ .matrixSummary := by rcases htype with rfl | rfl <;> decide
  have hred : ∃ j < corr.size, (rowReduction bld a.toKernelDims v.1 v.2 type corr a.threshold).1 = .num (x j) ∧
      ∀ d < corr.size, x d ≤ x j := by
    unfold rowReduction
    rcases htype with rfl | rfl
    · split
      · next hfast =>
          have hU : rowLen bld.unrollWid a.toKernelDims v.1 v.2 = bld.unrollWid := diagmax_of_fast hfast
          obtain ⟨j, hj, heq, hmax⟩ := reduceRowFast_index (hbld rfl) a.threshold (hlen.trans hU) hcorr
          exact ⟨j, hj, congrArg Prod.fst heq, hmax⟩
      · obtain ⟨j, hj, heq, hmax⟩ := reduceRowEigen_index bld a.threshold hpos hcorr
        exact ⟨j, hj, congrArg Prod.fst heq, hmax⟩
    · obtain ⟨j, hj, heq, hmax⟩ := bld.maxCoeff_spec corr x hpos hcorr
      refine ⟨j, hj, ?_, hmax⟩
      split <;> exact congrArg Prod.fst heq
  obtain ⟨j, hj, hvalue, hmax⟩ := hred
  have hindex : ∀ c, (updateIndex type true a (v.2, c)).toNat = v.2 := by
    intro c
    unfold updateIndex
    rw [if_neg hne]
    rfl
  simp only [hindex]
  unfold updateRowwise
  rw [if_neg hne, hvalue]
  have hupdate := value_updateMp type true a mp (.num (x j)) (v.2,
    (rowReduction bld a.toKernelDims v.1 v.2 type corr a.threshold).2 + v.1 + v.2) i
  rw [hindex] at hupdate
  rw [hupdate]
  by_cases hi : v.2 = i
  · rw [if_pos hi, List.filter_eq_self.mpr fun _ _ => decide_eq_true hi]
    exact (foldl_takeIn_max htype a.threshold (List.mem_range.mpr hj)
      (fun d hd => hmax d (List.mem_range.mp hd)) _).symm
  · rw [if_neg hi, List.filter_eq_nil_iff.mpr fun _ _ => by simpa using hi]
    rfl

/-- A summary is updated cell by cell. -/
theorem rowwiseCells_summary : RowwiseCells bld .matrixSummary a := by
  intro v corr x mp i _ _ hcorr
  have hcells := value_foldl_updateMp .matrixSummary true a (fun z => corr.get (z.2 - (v.1 + v.2))) i
    ((List.range corr.size).map fun d => (v.2, v.1 + v.2 + d)) mp
  rw [List.foldl_map, List.filter_map, List.foldl_map] at hcells
  simp only [Nat.add_sub_cancel_left] at hcells
  unfold updateRowwise
  rw [if_pos rfl]
  refine hcells.trans ?_
  apply List.foldl_ext
  intro v d hd
  rw [hcorr d (List.mem_range.mp (List.mem_filter.mp hd).1)]

/-- A NaN among the norms of a pass is announced. -/
def NanAnnounced (a : KernelArgs K) : Prop :=
  a.hasNanInput = false →
    (∀ c < a.nX, ∃ x, a.normsa c = .num x) ∧ ∀ r < a.nY, ∃ x, a.normsb r = .num x

/-- The kernel works with numbers, then. -/
theorem exists_kernelCorr (ha : NanAnnounced a) (type : SCAMPProfileType) (cov : Buffer K) {z : ℕ × ℕ}
    (hz : z ∈ doTileCells bld.unrollWid a.toKernelDims) : ∃ x, kernelCorr type a cov z = .num x := by
  obtain ⟨hr, hc, _⟩ := (mem_doTileCells bld.unrollWid_pos).mp hz
  unfold kernelCorr dropNan
  cases hnan : a.hasNanInput with
  | false =>
      obtain ⟨hA, hB⟩ := ha hnan
      obtain ⟨x, hx⟩ := hA z.2 hc
      obtain ⟨y, hy⟩ := hB z.1 hr
      rw [hx, hy]
      exact ⟨_, rfl⟩
  | true =>
      rw [if_pos rfl]
      cases (((Dbl.num (covAt a cov z.1 (z.2 - z.1))).mul (a.normsa z.2)).mul (a.normsb z.1)) with
      | num x => exact ⟨x, rfl⟩
      | nan => exact ⟨_, rfl⟩

omit [Field K] in
/-- A visited row has a cell. -/
theorem rowLen_pos {v : ℕ × ℕ} (hv : v ∈ doTileVisits bld.unrollWid a.toKernelDims) :
    0 < rowLen bld.unrollWid a.toKernelDims v.1 v.2 := by
  obtain ⟨tileDiag, htd, hmem⟩ := List.mem_flatMap.mp hv
  obtain ⟨row, hrow, rfl⟩ := List.mem_map.mp hmem
  have hlt := lt_of_mem_forRange bld.unrollWid_pos htd
  have hU := bld.unrollWid_pos
  have := List.mem_range.mp hrow
  unfold KernelDims.rowIters at this
  unfold rowLen KernelDims.diagmax
  dsimp only
  omega

/-- **The values of the row profile after a pass**: each entry has taken in the visited cells that update it,
    in their order. -/
theorem value_doTile_rows (hrows : RowwiseCells bld type a) (s : KernelState K)
    (hnum : ∀ z ∈ doTileCells bld.unrollWid a.toKernelDims, ∃ x, kernelCorr type a s.cov z = .num x) (i : ℕ) :
    ((doTile bld type true cols a s).profileB i).value =
      ((doTileCells bld.unrollWid a.toKernelDims).filter fun z => (updateIndex type true a z).toNat = i).foldl
        (fun v z => takeIn type a.threshold v (kernelCorr type a s.cov z)) (s.profileB i).value := by
  rw [doTileCells_eq_visits bld.unrollWid_pos] at hnum ⊢
  rw [doTile_eq_visits]
  have hvisits : ∀ pre post, doTileVisits bld.unrollWid a.toKernelDims = pre ++ post →
      ((pre.foldl (visit bld type true cols a) s).profileB i).value =
        ((pre.flatMap (visitCells bld.unrollWid a.toKernelDims)).filter fun z =>
          (updateIndex type true a z).toNat = i).foldl
          (fun v z => takeIn type a.threshold v (kernelCorr type a s.cov z)) (s.profileB i).value := by
    intro pre
    induction pre using List.reverseRecOn with
    | nil =>
        intro post _
        rfl
    | append_singleton pre v ih =>
        intro post hsplit
        have hsplit' : doTileVisits bld.unrollWid a.toKernelDims = pre ++ v :: post := by
          rw [hsplit, List.append_assoc]
          rfl
        have hv : v ∈ doTileVisits bld.unrollWid a.toKernelDims := by rw [hsplit']; simp
        -- the row is one of numbers
        have hcell : ∀ d, ∃ x, d < rowLen bld.unrollWid a.toKernelDims v.1 v.2 →
            kernelCorr type a s.cov (v.2, v.1 + v.2 + d) = .num x := by
          intro d
          by_cases hd : d < rowLen bld.unrollWid a.toKernelDims v.1 v.2
          · obtain ⟨x, hx⟩ := hnum (v.2, v.1 + v.2 + d) (List.mem_flatMap.mpr
              ⟨v, hv, mem_rowCells.mpr ⟨rfl, by omega, by omega⟩⟩)
            exact ⟨x, fun _ => hx⟩
          · exact ⟨0, fun h => absurd h hd⟩
        choose x hx using hcell
        have hrow : ∀ d < rowLen bld.unrollWid a.toKernelDims v.1 v.2,
            (rowCorr type a (pre.foldl (visit bld type true cols a) s).cov v.1 v.2
              (rowLen bld.unrollWid a.toKernelDims v.1 v.2)).get d = .num (x d) := by
          intro d hd
          rw [rowCorr_at_visit s hsplit' hd, hx d hd]
        rw [List.foldl_append, List.flatMap_append, List.filter_append, List.foldl_append, ← ih _ hsplit',
          List.foldl_cons, List.foldl_nil, visit_eq, handleRow_profileB, if_pos rfl,
          hrows v _ x _ i (rowLen_pos hv) rfl hrow, List.flatMap_singleton]
        unfold visitCells rowCells
        rw [List.filter_map, List.foldl_map]
        apply List.foldl_ext
        intro w d hd
        rw [hx d (List.mem_range.mp (List.mem_filter.mp hd).1)]
  exact hvisits _ [] (List.append_nil _).symm

/-- The values of the column profile, likewise. -/
theorem value_doTile_columns (s : KernelState K) (i : ℕ) :
    ((doTile bld type rows true a s).profileA i).value =
      ((doTileCells bld.unrollWid a.toKernelDims).filter fun z => (updateIndex type false a z).toNat = i).foldl
        (fun v z => takeIn type a.threshold v (kernelCorr type a s.cov z)) (s.profileA i).value := by
  rw [profileA_doTile, value_foldl_updateMp]

omit [Field K] in
/-- Two builds visit the same cells. -/
theorem doTileCells_perm (bld bld' : KernelBuild K) (a : KernelDims) :
    (doTileCells bld.unrollWid a).Perm (doTileCells bld'.unrollWid a) := by
  apply (List.perm_ext_iff_of_nodup (nodup_doTileCells bld.unrollWid_pos a)
    (nodup_doTileCells bld'.unrollWid_pos a)).mpr
  rintro ⟨r, c⟩
  rw [mem_doTileCells bld.unrollWid_pos, mem_doTileCells bld'.unrollWid_pos]

/-! ## Accesses -/

/-- The arrays of a pass. -/
inductive KernelArray
  | cov
  | normsa
  | normsb
  | dfa
  | dfb
  | dga
  | dgb
  | profileA
  | profileB
deriving DecidableEq, Repr

/-- The positions a visit to a row reads or writes: those of its diagonals, of its columns, of its row, and of
    the profile entries its cells update. -/
def visitAccesses (U : ℕ) (type : SCAMPProfileType) (rows cols : Bool) (a : KernelArgs K) (v : ℕ × ℕ) :
    List (KernelArray × ℤ) :=
  ((visitCells U a.toKernelDims v).flatMap fun z =>
    [(.cov, (z.2 : ℤ) - z.1), (.normsa, (z.2 : ℤ)), (.dfa, (z.2 : ℤ)), (.dga, (z.2 : ℤ)), (.normsb, (z.1 : ℤ)),
      (.dgb, (z.1 : ℤ)), (.dfb, (z.1 : ℤ))]) ++
  (if cols then (visitCells U a.toKernelDims v).map fun z => (.profileA, updateIndex type false a z) else []) ++
  (if rows then (visitCells U a.toKernelDims v).map fun z => (.profileB, updateIndex type true a z) else [])

/-- The length of an array: one slot for each column or row, and the cells of the summary matrix where a
    profile is one. -/
def KernelArray.length (type : SCAMPProfileType) (a : KernelDims) (summarySize : ℕ) : KernelArray → ℤ
  | .cov | .normsa | .dfa | .dga => a.nX
  | .normsb | .dfb | .dgb => a.nY
  | .profileA => if type = .matrixSummary then summarySize else a.nX
  | .profileB => if type = .matrixSummary then summarySize else a.nY

/-- The pass lies in a matrix of `nA` columns and `nB` rows that is summarised in `height * width` cells; in
    a transposed pass its rows are columns of that matrix. -/
structure InSummary (a : KernelArgs K) (transpose : Bool) (nA nB height width : ℕ) : Prop where
  width_eq : a.matrixWidth = width
  cols_eq : a.colsPerCell = (nA : ℚ) / width
  rows_eq : a.rowsPerCell = (nB : ℚ) / height
  height_pos : 0 < height
  width_pos : 0 < width
  cols_le : a.globalStartCol + (if transpose then a.nY else a.nX) ≤ nA
  rows_le : a.globalStartRow + (if transpose then a.nX else a.nY) ≤ nB

/-- The cell of a division of `n` positions into `k` equal parts. -/
theorem floor_div_parts {n k i : ℕ} (hk : 0 < k) (hi : i < n) :
    ⌊(i : ℚ) / ((n : ℚ) / k)⌋ = ((i * k / n : ℕ) : ℤ) ∧ i * k / n < k := by
  have hn : 0 < n := by omega
  constructor
  · rw [div_div_eq_mul_div]
    have := Rat.floor_intCast_div_natCast ((i * k : ℕ) : ℤ) n
    push_cast at this ⊢
    exact_mod_cast this
  · apply Nat.div_lt_of_lt_mul
    exact Nat.mul_lt_mul_of_pos_right hi hk

omit [Field K] [LinearOrder K] in
/-- **The cell of the summary** that a cell of the matrix belongs to, as a position in the profile. -/
theorem matrixIndex_eq {transpose : Bool} {nA nB height width : ℕ}
    (h : InSummary a transpose nA nB height width) (col row : ℕ) (hcol : col + a.globalStartCol < nA)
    (hrow : row + a.globalStartRow < nB) :
    matrixIndex a col row = (((row + a.globalStartRow) * height / nB * width +
      (col + a.globalStartCol) * width / nA : ℕ) : ℤ) ∧
      (row + a.globalStartRow) * height / nB * width + (col + a.globalStartCol) * width / nA <
        height * width := by
  obtain ⟨hc, hclt⟩ := floor_div_parts h.width_pos hcol
  obtain ⟨hr, hrlt⟩ := floor_div_parts h.height_pos hrow
  constructor
  · unfold matrixIndex
    rw [h.cols_eq, h.rows_eq, h.width_eq]
    dsimp only
    rw [hc, hr]
    push_cast
    rfl
  · calc (row + a.globalStartRow) * height / nB * width + (col + a.globalStartCol) * width / nA
        < (row + a.globalStartRow) * height / nB * width + width := Nat.add_lt_add_left hclt _
      _ = ((row + a.globalStartRow) * height / nB + 1) * width := by ring
      _ ≤ height * width := Nat.mul_le_mul_right _ hrlt

omit [Field K] [LinearOrder K] in
/-- The entry a cell updates lies in its profile. -/
theorem updateIndex_in_range {rowwise : Bool} {nA nB height width : ℕ}
    (hsummary : type = .matrixSummary → InSummary a rowwise nA nB height width) {z : ℕ × ℕ}
    (hr : z.1 < a.nY) (hc : z.2 < a.nX) :
    0 ≤ updateIndex type rowwise a z ∧ updateIndex type rowwise a z <
      (if rowwise then KernelArray.profileB else .profileA).length type a.toKernelDims (height * width) := by
  by_cases htype : type = .matrixSummary
  · have hin := hsummary htype
    have hcols := hin.cols_le
    have hrows := hin.rows_le
    -- a row-wise update divides the cell's row over the columns of the summary
    cases rowwise with
    | false =>
        simp only [Bool.false_eq_true, if_false] at hcols hrows
        obtain ⟨heq, hlt⟩ := matrixIndex_eq hin z.2 z.1 (by omega) (by omega)
        simp only [updateIndex, KernelArray.length, htype, if_true, Bool.false_eq_true, if_false, heq]
        exact ⟨Int.natCast_nonneg _, by exact_mod_cast hlt⟩
    | true =>
        simp only [if_true] at hcols hrows
        obtain ⟨heq, hlt⟩ := matrixIndex_eq hin z.1 z.2 (by omega) (by omega)
        simp only [updateIndex, KernelArray.length, htype, if_true, heq]
        exact ⟨Int.natCast_nonneg _, by exact_mod_cast hlt⟩
  · cases rowwise <;> simp only [updateIndex, KernelArray.length, if_neg htype, if_true, if_false,
      Bool.false_eq_true] <;> omega

omit [Field K] [LinearOrder K] in
/-- **Every access of a visit is in range.** -/
theorem visitAccesses_in_range {U : ℕ} (hU : 0 < U) {nA nB height width : ℕ}
    (hsummary : type = .matrixSummary → (cols = true → InSummary a false nA nB height width) ∧
      (rows = true → InSummary a true nA nB height width))
    {v : ℕ × ℕ} (hv : v ∈ doTileVisits U a.toKernelDims) {access : KernelArray × ℤ}
    (haccess : access ∈ visitAccesses U type rows cols a v) :
    0 ≤ access.2 ∧ access.2 < access.1.length type a.toKernelDims (height * width) := by
  have hcell : ∀ z ∈ visitCells U a.toKernelDims v, z.1 < a.nY ∧ z.2 < a.nX ∧ z.1 ≤ z.2 := by
    rintro ⟨r, c⟩ hz
    have hmem : (r, c) ∈ doTileCells U a.toKernelDims := by
      rw [doTileCells_eq_visits hU]
      exact List.mem_flatMap.mpr ⟨v, hv, hz⟩
    obtain ⟨hr, hc, hle, _⟩ := (mem_doTileCells hU).mp hmem
    exact ⟨hr, hc, by omega⟩
  unfold visitAccesses at haccess
  rcases List.mem_append.mp haccess with haccess | haccess
  · rcases List.mem_append.mp haccess with haccess | haccess
    · obtain ⟨z, hz, haccess⟩ := List.mem_flatMap.mp haccess
      obtain ⟨hr, hc, hle⟩ := hcell z hz
      simp only [List.mem_cons, List.not_mem_nil, or_false] at haccess
      rcases haccess with rfl | rfl | rfl | rfl | rfl | rfl | rfl <;>
        (simp only [KernelArray.length]; omega)
    · split at haccess
      · next hcols =>
          obtain ⟨z, hz, rfl⟩ := List.mem_map.mp haccess
          obtain ⟨hr, hc, _⟩ := hcell z hz
          simpa using updateIndex_in_range (fun htype => (hsummary htype).1 hcols) hr hc
      · exact absurd haccess List.not_mem_nil
  · split at haccess
    · next hrows =>
        obtain ⟨z, hz, rfl⟩ := List.mem_map.mp haccess
        obtain ⟨hr, hc, _⟩ := hcell z hz
        simpa using updateIndex_in_range (fun htype => (hsummary htype).2 hrows) hr hc
    · exact absurd haccess List.not_mem_nil

/-! ## Every unroll width -/

/-- Each cell of the pass is in one visit, and in one only. -/
structure VisitsEachCellOnce (U : ℕ) (a : KernelDims) : Prop where
  nodup : ((doTileVisits U a).flatMap (visitCells U a)).Nodup
  cells : ∀ r c, (r, c) ∈ (doTileVisits U a).flatMap (visitCells U a) ↔
    r < a.nY ∧ c < a.nX ∧ r + a.exclusionLower ≤ c ∧ c + a.exclusionUpper ≤ r + a.nX

/-- When a cell is visited, the slot of its diagonal holds the initial covariance and the updates of all rows
    above. -/
def CovarianceAtVisits (bld : KernelBuild K) (type : SCAMPProfileType) (rows cols : Bool) (a : KernelArgs K)
    (s : KernelState K) : Prop :=
  ∀ pre v post, doTileVisits bld.unrollWid a.toKernelDims = pre ++ v :: post →
    ∀ z ∈ visitCells bld.unrollWid a.toKernelDims v,
      (pre.foldl (visit bld type rows cols a) s).cov (z.2 - z.1) = s.cov (z.2 - z.1) +
        ∑ i ∈ Finset.range z.1, (a.dfa (z.2 - z.1 + i) * a.dgb i + a.dga (z.2 - z.1 + i) * a.dfb i)

/-- The two builds leave the same values: in the column profile for every type, in the row profile for the
    types that keep a best value, given that a reduction with an index looks at the whole row. -/
def SameValues (bld bld' : KernelBuild K) (type : SCAMPProfileType) (rows cols : Bool) (a : KernelArgs K)
    (s : KernelState K) : Prop :=
  (∀ i, ((doTile bld type rows cols a s).profileA i).value =
    ((doTile bld' type rows cols a s).profileA i).value) ∧
  ((type = .oneNN ∨ type = .matrixSummary ∨
      (type = .oneNNIndex ∧ ReducesWholeRow bld ∧ ReducesWholeRow bld')) →
    ∀ i, ((doTile bld type rows cols a s).profileB i).value =
      ((doTile bld' type rows cols a s).profileB i).value)

theorem sameValues (bld bld' : KernelBuild K) (type : SCAMPProfileType) (rows cols : Bool) {a : KernelArgs K}
    (ha : NanAnnounced a) (s : KernelState K) : SameValues bld bld' type rows cols a s := by
  have hperm := doTileCells_perm bld bld' a.toKernelDims
  have hnum : ∀ z ∈ doTileCells bld.unrollWid a.toKernelDims, ∃ x, kernelCorr type a s.cov z = .num x :=
    fun z hz => exists_kernelCorr ha type s.cov hz
  have hnum' : ∀ z ∈ doTileCells bld'.unrollWid a.toKernelDims, ∃ x, kernelCorr type a s.cov z = .num x :=
    fun z hz => exists_kernelCorr ha type s.cov hz
  constructor
  · intro i
    cases cols with
    | false => rw [profileA_doTile_off, profileA_doTile_off]
    | true =>
        rw [value_doTile_columns, value_doTile_columns]
        exact takeIn_perm type a.threshold (hperm.filter _) (fun z hz => hnum z (List.mem_filter.mp hz).1) _
  · intro htype i
    cases rows with
    | false => rw [profileB_doTile_off, profileB_doTile_off]
    | true =>
        have hrows : RowwiseCells bld type a ∧ RowwiseCells bld' type a := by
          rcases htype with rfl | rfl | ⟨rfl, hred, hred'⟩
          · exact ⟨rowwiseCells_of_max (Or.inr rfl) nofun, rowwiseCells_of_max (Or.inr rfl) nofun⟩
          · exact ⟨rowwiseCells_summary, rowwiseCells_summary⟩
          · exact ⟨rowwiseCells_of_max (Or.inl rfl) fun _ => hred,
              rowwiseCells_of_max (Or.inl rfl) fun _ => hred'⟩
        rw [value_doTile_rows hrows.1 s hnum, value_doTile_rows hrows.2 s hnum']
        exact takeIn_perm type a.threshold (hperm.filter _) (fun z hz => hnum z (List.mem_filter.mp hz).1) _

/-- **The kernel does not depend on the unroll width.** Whatever the width, a pass visits each of its cells
    once, with the covariance of its diagonal, accesses no array out of range, and leaves the same values
    as with any other width. -/
theorem doTile_unrolled (bld : KernelBuild K) (type : SCAMPProfileType) (rows cols : Bool) (a : KernelArgs K)
    (s : KernelState K) (hlaunch : a.exclusionLower + a.exclusionUpper < a.nX) :
    doTile bld type rows cols a s =
        (doTileVisits bld.unrollWid a.toKernelDims).foldl (visit bld type rows cols a) s ∧
      VisitsEachCellOnce bld.unrollWid a.toKernelDims ∧
      CovarianceAtVisits bld type rows cols a s ∧
      (∀ nA nB height width, (type = .matrixSummary →
          (cols = true → InSummary a false nA nB height width) ∧
          (rows = true → InSummary a true nA nB height width)) →
        ∀ v ∈ doTileVisits bld.unrollWid a.toKernelDims,
          ∀ access ∈ visitAccesses bld.unrollWid type rows cols a v,
            0 ≤ access.2 ∧ access.2 < access.1.length type a.toKernelDims (height * width)) ∧
      (NanAnnounced a → ∀ bld', SameValues bld bld' type rows cols a s) := by
  have hU := bld.unrollWid_pos
  refine ⟨doTile_eq_visits s, ?_, ?_, ?_, ?_⟩
  · constructor
    · rw [← doTileCells_eq_visits hU]
      exact nodup_doTileCells hU _
    · intro r c
      rw [← doTileCells_eq_visits hU, mem_doTileCells hU]
      unfold KernelDims.numDiags
      omega
  · rintro pre v post hsplit ⟨r, c⟩ hz
    obtain ⟨rfl, hle, hlt⟩ := mem_rowCells.mp hz
    have hcov : (pre.foldl (visit bld type rows cols a) s).cov (v.1 + (c - (v.1 + v.2))) = _ :=
      cov_at_visit s hsplit (by omega)
    rw [show v.1 + (c - (v.1 + v.2)) = c - v.2 by omega] at hcov
    rw [hcov, covAt_eq_sum]
  · intro nA nB height width hsummary v hv access haccess
    exact visitAccesses_in_range hU hsummary hv haccess
  · intro ha bld'
    exact sameValues bld bld' type rows cols ha s

end

/-! ## A width that cannot be halved -/

section
variable {K : Type} [Field K] [LinearOrder K]

/-- A build with the hand-written reduction. -/
def handWrittenBuild (U : ℕ) (hU : 0 < U) : KernelBuild K where
  unrollWid := U
  unrollWid_pos := hU
  eigenIndexReduction := false
  maxCoeff := scanMax
  maxCoeff_spec _ _ := scanMax_spec

/-- One row of four cells, with the norms `1`. -/
def oneRowArgs : KernelArgs K where
  nX := 4
  nY := 1
  exclusionLower := 0
  exclusionUpper := 0
  dfa _ := 0
  dfb _ := 0
  dga _ := 0
  dgb _ := 0
  normsa _ := .num 1
  normsb _ := .num 1
  matrixWidth := 1
  rowsPerCell := 1
  colsPerCell := 1
  globalStartCol := 0
  globalStartRow := 0
  hasNanInput := false
  threshold := 0

/-- The covariance of the third cell is `1`, those of the others are `0`. -/
def oneRowState : KernelState K where
  cov d := if d = 2 then 1 else 0
  profileA _ := allocEntry .oneNNIndex
  profileB _ := allocEntry .oneNNIndex

end

theorem doTile_unrolled_oneRow :
    VisitsEachCellOnce 3 (oneRowArgs (K := ℚ)).toKernelDims ∧
      ∀ bld', SameValues (handWrittenBuild 3 (by decide)) bld' .oneNN true true (oneRowArgs (K := ℚ))
        oneRowState := by
  obtain ⟨_, hcells, _, _, hsame⟩ := doTile_unrolled (handWrittenBuild 3 (by decide)) .oneNN true true
    (oneRowArgs (K := ℚ)) oneRowState (by decide)
  exact ⟨hcells, hsame fun _ => ⟨fun _ _ => ⟨1, rfl⟩, fun _ _ => ⟨1, rfl⟩⟩⟩

/-- The hand-written reduction of a row of three compares the first two entries only. -/
theorem unrollWid_three_differs : ¬∀ (bld bld' : KernelBuild ℚ) (a : KernelArgs ℚ) (s : KernelState ℚ),
    1 ≤ a.nY → a.exclusionLower + a.exclusionUpper < a.nX → NanAnnounced a →
      ∀ i, ((doTile bld .oneNNIndex true true a s).profileB i).value =
        ((doTile bld' .oneNNIndex true true a s).profileB i).value := by
  intro h
  have hrow := h (handWrittenBuild 3 (by decide)) (handWrittenBuild 4 (by decide)) oneRowArgs oneRowState
    (by decide) (by decide) (fun _ => ⟨fun _ _ => ⟨1, rfl⟩, fun _ _ => ⟨1, rfl⟩⟩) 0
  revert hrow
  decide +kernel

end Scamp
