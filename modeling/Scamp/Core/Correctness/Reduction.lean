import Scamp.Core.Kernel
import Mathlib.Algebra.Order.Field.Basic

/-!
# `Core.Correctness.Reduction` — reducing a row of correlations

Both reductions of `update_rowwise` return a largest entry of the row and a position of it. For the
hand-written one the invariant is what its working array stands for: each of the first `n` entries is some
entry of the row, paired with its position, and every entry of the row is at most one of them. A horizontal
pass halves `n`.
-/

namespace Scamp

section
variable {K : Type} [LinearOrder K]

/-- The first `n` pairs of the working array are entries of the row `x` of length `U`, and dominate it. -/
structure Reduced (x : ℕ → K) (U n : ℕ) (s : (ℕ → Dbl K) × (ℕ → ℕ)) : Prop where
  isEntry : ∀ i < n, s.2 i < U ∧ s.1 i = .num (x (s.2 i))
  dominates : ∀ d < U, ∃ i < n, x d ≤ x (s.2 i)

theorem reduced_init {x : ℕ → K} {U : ℕ} {corr : ℕ → Dbl K} (h : ∀ d < U, corr d = .num (x d)) :
    Reduced x U U (corr, id) :=
  ⟨fun i hi => ⟨hi, h i hi⟩, fun d hd => ⟨d, hd, le_refl _⟩⟩

/-- One horizontal pass halves the array. -/
theorem reduced_horizontalReduction {x : ℕ → K} {U offset : ℕ} {s : (ℕ → Dbl K) × (ℕ → ℕ)}
    (h : Reduced x U (2 * offset) s) : Reduced x U offset (horizontalReduction offset s) := by
  have hstep : ∀ i < offset, (horizontalReduction offset s).2 i =
      (if x (s.2 (i + offset)) ≤ x (s.2 i) then s.2 i else s.2 (i + offset)) ∧
      (horizontalReduction offset s).1 i =
        .num (x (if x (s.2 (i + offset)) ≤ x (s.2 i) then s.2 i else s.2 (i + offset))) := by
    intro i hi
    obtain ⟨_, hval⟩ := h.isEntry i (by omega)
    obtain ⟨_, hval'⟩ := h.isEntry (i + offset) (by omega)
    unfold horizontalReduction
    simp only [if_pos hi, hval, hval', Dbl.ge_num, decide_eq_true_eq]
    by_cases hle : x (s.2 (i + offset)) ≤ x (s.2 i)
    · simp [hle]
    · simp [hle]
  constructor
  · intro i hi
    rw [(hstep i hi).2, (hstep i hi).1]
    refine ⟨?_, rfl⟩
    split
    · exact (h.isEntry i (by omega)).1
    · exact (h.isEntry (i + offset) (by omega)).1
  · intro d hd
    obtain ⟨i, hi, hle⟩ := h.dominates d hd
    -- entry `i` of the longer array competes at position `i % offset`
    by_cases hlow : i < offset
    · refine ⟨i, hlow, ?_⟩
      rw [(hstep i hlow).1]
      split
      · exact hle
      · next hgt => exact hle.trans (le_of_lt (not_le.mp hgt))
    · refine ⟨i - offset, by omega, ?_⟩
      rw [(hstep (i - offset) (by omega)).1, Nat.sub_add_cancel (by omega)]
      split
      · next hge => exact hle.trans hge
      · exact hle

/-- The remaining passes leave one entry. -/
theorem reduced_reduceFrom {x : ℕ → K} {U : ℕ} (k : ℕ) :
    ∀ s, Reduced x U (2 ^ k) s → Reduced x U 1 (reduceFrom (2 ^ k / 2) s) := by
  induction k with
  | zero =>
      intro s h
      rw [show 2 ^ 0 / 2 = 0 by decide, reduceFrom, if_pos rfl]
      exact h
  | succ k ih =>
      intro s h
      have hpos : 2 ^ k ≠ 0 := pow_ne_zero k two_ne_zero
      rw [pow_succ, Nat.mul_div_cancel _ (by decide), reduceFrom, if_neg hpos]
      refine ih _ (reduced_horizontalReduction ?_)
      rwa [mul_comm, ← pow_succ]

/-- **The hand-written reduction** returns a largest entry of the row and a position of it, for rows whose
    length is a power of two. -/
theorem manualReduction_spec {U : ℕ} (hU : ∃ k, U = 2 ^ k) {corr : ℕ → Dbl K} {x : ℕ → K}
    (h : ∀ d < U, corr d = .num (x d)) :
    ∃ i < U, (reduceFrom (U / 4) (horizontalReduction (U / 2) (corr, id))).1 0 = .num (x i) ∧
      (reduceFrom (U / 4) (horizontalReduction (U / 2) (corr, id))).2 0 = i ∧ ∀ d < U, x d ≤ x i := by
  obtain ⟨k, rfl⟩ := hU
  have hlast : Reduced x (2 ^ k) 1
      (reduceFrom (2 ^ k / 4) (horizontalReduction (2 ^ k / 2) (corr, id))) := by
    cases k with
    | zero =>
        -- a row of one entry is not touched
        rw [show 2 ^ 0 / 4 = 0 by decide, show 2 ^ 0 / 2 = 0 by decide, reduceFrom, if_pos rfl]
        exact reduced_init h
    | succ k =>
        have hhalf : 2 ^ (k + 1) / 2 = 2 ^ k := by rw [pow_succ, Nat.mul_div_cancel _ (by decide)]
        have hquarter : 2 ^ (k + 1) / 4 = 2 ^ k / 2 := by
          rw [show (4 : ℕ) = 2 * 2 from rfl, ← Nat.div_div_eq_div_mul, hhalf]
        rw [hhalf, hquarter]
        apply reduced_reduceFrom
        apply reduced_horizontalReduction
        rw [mul_comm, ← pow_succ]
        exact reduced_init h
  refine ⟨_, (hlast.isEntry 0 Nat.one_pos).1, (hlast.isEntry 0 Nat.one_pos).2, rfl, fun d hd => ?_⟩
  obtain ⟨i, hi, hle⟩ := hlast.dominates d hd
  obtain rfl : i = 0 := by omega
  exact hle

end

section
variable {K : Type} [Field K] [LinearOrder K] {corr : Vec (Dbl K)} {x : ℕ → K}

/-- A reduction with an index finds a largest entry of a row without NaNs. -/
def FindsMax (reduced : Dbl K × ℕ) (x : ℕ → K) (len : ℕ) : Prop :=
  ∃ i < len, reduced = (.num (x i), i) ∧ ∀ d < len, x d ≤ x i

/-- The reduction of a fast row with an index looks at every entry: Eigen's does, and so does the
    hand-written one when it can halve the row down to one entry. -/
def ReducesWholeRow (bld : KernelBuild K) : Prop :=
  bld.eigenIndexReduction = true ∨ ∃ k, bld.unrollWid = 2 ^ k

omit [Field K] in
theorem Build.reducesWholeRow (bld : Build K) : ReducesWholeRow bld.toKernelBuild := by
  obtain ⟨k, hk⟩ := bld.unrollWid_pow
  exact Or.inr ⟨k + 1, hk⟩

theorem reduceRowEigen_index (bld : KernelBuild K) (thresh : K) (hpos : 0 < corr.size)
    (h : ∀ d < corr.size, corr.get d = .num (x d)) :
    FindsMax (reduceRowEigen bld .oneNNIndex corr thresh) x corr.size :=
  bld.maxCoeff_spec corr x hpos h

theorem reduceRowFast_index {bld : KernelBuild K} (hbld : ReducesWholeRow bld) (thresh : K)
    (hlen : corr.size = bld.unrollWid) (h : ∀ d < corr.size, corr.get d = .num (x d)) :
    FindsMax (reduceRowFast bld .oneNNIndex corr thresh) x corr.size := by
  unfold reduceRowFast
  dsimp only
  split
  · apply bld.maxCoeff_spec corr x _ h
    rw [hlen]
    exact bld.unrollWid_pos
  · next heigen =>
      have hpow := hbld.resolve_left heigen
      obtain ⟨i, hi, h1, h2, hmax⟩ := manualReduction_spec hpow (fun d hd => h d (hlen ▸ hd))
      exact ⟨i, hlen ▸ hi, Prod.ext h1 h2, fun d hd => hmax d (hlen ▸ hd)⟩

/-- A reduction that scans the row and keeps the first of its largest entries. -/
def scanMax (corr : Vec (Dbl K)) : Dbl K × ℕ :=
  (List.range corr.size).foldl
    (fun best d => if (corr.get d).gt best.1 then (corr.get d, d) else best) (corr.get 0, 0)

omit [Field K] in
theorem scanMax_spec (hpos : 0 < corr.size) (h : ∀ d < corr.size, corr.get d = .num (x d)) :
    FindsMax (scanMax corr) x corr.size := by
  -- before step `n`, the best is the largest of the first `n` entries, or entry `0`
  have hinv := Lib.foldl_range_inv
    (f := fun best d => if (corr.get d).gt best.1 then (corr.get d, d) else best)
    (fun n best => ∃ i < corr.size, best = (.num (x i), i) ∧ ∀ d < n, x d ≤ x i) corr.size
    (corr.get 0, 0) ⟨0, hpos, by rw [h 0 hpos], fun d hd => absurd hd (Nat.not_lt_zero d)⟩ ?_
  · exact hinv
  · rintro n _ hn ⟨i, hi, rfl, hmax⟩
    rw [h n hn, Dbl.gt_num]
    by_cases hlt : x i < x n
    · rw [if_pos (decide_eq_true hlt)]
      refine ⟨n, hn, rfl, fun d hd => ?_⟩
      rcases Nat.lt_succ_iff_lt_or_eq.mp hd with hd | rfl
      · exact (hmax d hd).trans hlt.le
      · exact le_refl _
    · rw [if_neg (by simpa using hlt)]
      refine ⟨i, hi, rfl, fun d hd => ?_⟩
      rcases Nat.lt_succ_iff_lt_or_eq.mp hd with hd | rfl
      · exact hmax d hd
      · exact not_lt.mp hlt

omit [Field K] in
/-- A build whose `maxCoeff` scans the row. -/
def scanBuild : Build K where
  unrollWid := 256
  unrollWid_pos := by decide
  unrollWid_pow := ⟨7, rfl⟩
  eigenIndexReduction := true
  maxCoeff := scanMax
  maxCoeff_spec _ _ := scanMax_spec

/-- The sum of the entries above the threshold. -/
theorem sumAbove_eq (thresh : K) (h : ∀ d < corr.size, corr.get d = .num (x d)) :
    sumAbove corr thresh =
      .num (((List.range corr.size).map fun d => if thresh < x d then x d else 0).sum) := by
  have hterms : (List.range corr.size).map (fun d =>
      if (corr.get d).gt (.num thresh) then corr.get d else .num 0) =
      ((List.range corr.size).map fun d => if thresh < x d then x d else 0).map Dbl.num := by
    rw [List.map_map]
    refine List.map_congr_left fun d hd => ?_
    rw [h d (List.mem_range.mp hd), Dbl.gt_num]
    by_cases hlt : thresh < x d
    · simp [hlt]
    · simp [hlt]
  have hfold : ∀ (xs : List K) (v : K), (xs.map Dbl.num).foldl Dbl.add (.num v) = .num (v + xs.sum) := by
    intro xs
    induction xs with
    | nil =>
        intro v
        simp
    | cons y ys ih =>
        intro v
        rw [List.map_cons, List.foldl_cons, Dbl.add_num, ih, List.sum_cons, add_assoc]
  unfold sumAbove
  rw [hterms, hfold, zero_add]

end

end Scamp
