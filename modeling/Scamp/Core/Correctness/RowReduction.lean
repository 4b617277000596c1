import Scamp.Core.RowReduction
import Scamp.Core.Correctness.Reduction
import Scamp.Lib.Tournament

/-!
# `Core.Correctness.RowReduction` — the manual reduction is a tournament

Each loop of the manual reduction plays one round of a tournament in place: an iteration reads an entry that
no iteration before it has written, and the one half the length further, which none ever writes (`Passed`).
The rounds leave the winner in front, with the position it came from.

So no access is outside an array and nothing is read of `corrIdx` that was not written, and the value is the
maximum of the row (`manualReduction_maxCoeff`). For the rows of the kernel the result is that of the passes
of `Core.Kernel` (`manualReduction_reduceRowFast`).
-/

namespace Scamp

namespace RowReduction

open Lib

section
variable {α : Type} {ge : α → α → Bool} {s s₀ : Arrays α} {n i : ℕ}

/-! ## Iterations -/

/-- Entry `i` of the arrays. -/
def Arrays.entry (s : Arrays α) (i : ℕ) : α × ℕ := (s.corr.get i, s.corrIdx.get i)

/-- Entry `i` of both arrays written. -/
def Arrays.record (s : Arrays α) (i : ℕ) (e : α × ℕ) : Arrays α := ⟨s.corr.set i e.1, s.corrIdx.set i e.2⟩

theorem entry_record (s : Arrays α) (i : ℕ) (e : α × ℕ) (j : ℕ) :
    (s.record i e).entry j = if j = i then e else s.entry j := by
  unfold Arrays.record Arrays.entry
  rw [Vec.get_set, Vec.get_set]
  by_cases hj : j = i
  · rw [if_pos hj, if_pos hj, if_pos hj]
  · rw [if_neg hj, if_neg hj, if_neg hj]

theorem atLeast_lt {corr : Vec α} {j : ℕ} (hi : i < corr.size) (hj : j < corr.size) :
    atLeast ge corr i j = some (ge (corr.get i) (corr.get j)) := by
  unfold atLeast
  rw [Vec.read_lt hi, Vec.read_lt hj]
  rfl

theorem keepLarger_lt {corr : Vec α} {j : ℕ} (hi : i < corr.size) (hj : j < corr.size) :
    keepLarger ge corr i j =
      some (corr.set i (if ge (corr.get i) (corr.get j) then corr.get i else corr.get j)) := by
  unfold keepLarger
  rw [atLeast_lt hi hj]
  cases ge (corr.get i) (corr.get j) with
  | true => simp [hi]
  | false => simp [hi, hj]

/-- An iteration of the first loop lets entry `i` meet entry `i + n` of the row. -/
theorem firstStep_lt (hcorr : i + n < s.corr.size) (hidx : i < s.corrIdx.size) :
    firstStep ge n s i = some (s.record i (playRound ge n (fun j => (s.corr.get j, j)) i)) := by
  unfold firstStep playRound Arrays.record
  rw [atLeast_lt (by omega) hcorr, keepLarger_lt (by omega) hcorr]
  cases ge (s.corr.get i) (s.corr.get (i + n)) with
  | true => simp [hidx]
  | false => simp [hidx]

/-- An iteration of `horizontal_reduction` lets entry `i` meet entry `i + n` of the arrays. -/
theorem reductionStep_lt (hcorr : i + n < s.corr.size) (hidx : i + n < s.corrIdx.size) :
    reductionStep ge n s i = some (s.record i (playRound ge n s.entry i)) := by
  have hi : i < s.corrIdx.size := by omega
  unfold reductionStep playRound Arrays.record Arrays.entry
  rw [atLeast_lt (by omega) hcorr, keepLarger_lt (by omega) hcorr]
  cases ge (s.corr.get i) (s.corr.get (i + n)) with
  | true => simp [hi]
  | false => simp [hi, hidx]

/-! ## Passes -/

/-- Before iteration `i` of a pass: the entries before it are those of the round, the others are as they
    were. -/
structure Passed (s₀ : Arrays α) (round : ℕ → α × ℕ) (i : ℕ) (s : Arrays α) : Prop where
  corr_size : s.corr.size = s₀.corr.size
  corrIdx_size : s.corrIdx.size = s₀.corrIdx.size
  done : ∀ j < i, s.entry j = round j
  ahead : ∀ j, i ≤ j → s.entry j = s₀.entry j

/-- **A pass** each iteration of which writes the entry of the round. -/
theorem passed_range {step : Arrays α → ℕ → Option (Arrays α)} {round : ℕ → α × ℕ}
    (hstep : ∀ i s, i < n → Passed s₀ round i s → step s i = some (s.record i (round i))) :
    ∃ s, (List.range n).foldlM step s₀ = some s ∧ Passed s₀ round n s := by
  refine foldlM_range_some (Passed s₀ round) n ⟨rfl, rfl, fun j hj => absurd hj (Nat.not_lt_zero j), fun _ _ => rfl⟩
    fun i s hi h => ⟨_, hstep i s hi h, h.corr_size, h.corrIdx_size, fun j hj => ?_, fun j hj => ?_⟩
  · rw [entry_record]
    by_cases hji : j = i
    · rw [if_pos hji, hji]
    · rw [if_neg hji]
      exact h.done j (by omega)
  · rw [entry_record, if_neg (by omega)]
    exact h.ahead j (by omega)

variable (ge)

/-- **The first loop** is a round over the row, whatever `corrIdx` holds. -/
theorem firstLoop_some {corr : Vec α} {corrIdx : Vec ℕ} (hcorr : 2 * n ≤ corr.size) (hidx : n ≤ corrIdx.size) :
    ∃ s, (List.range n).foldlM (firstStep ge n) ⟨corr, corrIdx⟩ = some s ∧
      Passed ⟨corr, corrIdx⟩ (playRound ge n fun j => (corr.get j, j)) n s := by
  refine passed_range fun i s hi h => ?_
  have hcorrSize : s.corr.size = corr.size := h.corr_size
  have hidxSize : s.corrIdx.size = corrIdx.size := h.corrIdx_size
  have hahead : ∀ j, i ≤ j → s.corr.get j = corr.get j := fun j hj => congrArg Prod.fst (h.ahead j hj)
  rw [firstStep_lt (by omega) (by omega)]
  refine congrArg (fun e => some (s.record i e)) (playRound_congr ?_ ?_)
  · rw [hahead i le_rfl]
  · rw [hahead (i + n) (by omega)]

/-- **A horizontal reduction** is a round over the arrays. -/
theorem horizontalReduction_some (hcorr : 2 * n ≤ s₀.corr.size) (hidx : 2 * n ≤ s₀.corrIdx.size) :
    ∃ s, horizontalReduction ge n s₀ = some s ∧ Passed s₀ (playRound ge n s₀.entry) n s := by
  refine passed_range fun i s hi h => ?_
  have hcorrSize := h.corr_size
  have hidxSize := h.corrIdx_size
  rw [reductionStep_lt (by omega) (by omega)]
  exact congrArg (fun e => some (s.record i e)) (playRound_congr (h.ahead i le_rfl) (h.ahead (i + n) (by omega)))

/-- **The loop over the offsets** plays the rounds that are left. -/
theorem reduceFrom_some {k : ℕ} (hcorr : 2 ^ k ≤ s.corr.size) (hidx : 2 ^ k ≤ s.corrIdx.size) :
    ∃ s', reduceFrom ge (2 ^ k / 2) s = some s' ∧ s'.corr.size = s.corr.size ∧
      s'.corrIdx.size = s.corrIdx.size ∧ s'.entry 0 = tournament ge k s.entry := by
  induction k generalizing s with
  | zero =>
      refine ⟨s, ?_, rfl, rfl, rfl⟩
      rw [reduceFrom, if_pos (by decide)]
  | succ k ih =>
      have hpos : 2 ^ k ≠ 0 := pow_ne_zero k two_ne_zero
      rw [Nat.pow_succ] at hcorr hidx
      rw [Nat.pow_succ, Nat.mul_div_cancel _ Nat.two_pos, reduceFrom, if_neg hpos]
      obtain ⟨t, ht, hpassed⟩ := horizontalReduction_some ge (show 2 * 2 ^ k ≤ s.corr.size by omega) (by omega)
      have hcorrSize := hpassed.corr_size
      have hidxSize := hpassed.corrIdx_size
      obtain ⟨s', hs', hcorr', hidx', hwinner⟩ := ih (s := t) (by omega) (by omega)
      refine ⟨s', ?_, hcorr'.trans hcorrSize, hidx'.trans hidxSize, ?_⟩
      · rw [ht]
        exact hs'
      · rw [hwinner]
        exact tournament_congr hpassed.done

/-- **The manual reduction is a tournament** of the entries of the row with their positions. -/
theorem manualReduction_some {k : ℕ} {corr : Vec α} (hsize : corr.size = 2 ^ (k + 1)) (uninit : ℕ → ℕ) :
    ∃ corr', manualReduction ge (2 ^ (k + 1)) corr uninit =
        some (corr', (tournament ge (k + 1) fun i => (corr.get i, i)).2) ∧
      corr'.size = corr.size ∧ corr'.get 0 = (tournament ge (k + 1) fun i => (corr.get i, i)).1 := by
  have hpos := Nat.two_pow_pos k
  have hdouble : 2 ^ (k + 1) = 2 ^ k * 2 := Nat.pow_succ 2 k
  have hhalf : 2 ^ (k + 1) / 2 = 2 ^ k := by omega
  have hquarter : 2 ^ (k + 1) / 4 = 2 ^ k / 2 := by omega
  have hinit : 2 ^ k ≤ (⟨2 ^ (k + 1), uninit⟩ : Vec ℕ).size := Nat.pow_le_pow_right Nat.two_pos k.le_succ
  obtain ⟨s, hs, hpassed⟩ := firstLoop_some ge (show 2 * 2 ^ k ≤ corr.size by omega) hinit
  have hcorrSize : s.corr.size = corr.size := hpassed.corr_size
  have hidxSize : s.corrIdx.size = 2 ^ (k + 1) := hpassed.corrIdx_size
  obtain ⟨s', hs', hcorr', hidx', hwinner⟩ := reduceFrom_some ge (k := k) (s := s) (by omega) (by omega)
  have hentry : s'.entry 0 = tournament ge (k + 1) fun i => (corr.get i, i) :=
    hwinner.trans (tournament_congr hpassed.done)
  refine ⟨s'.corr, ?_, hcorr'.trans hcorrSize, congrArg Prod.fst hentry⟩
  unfold manualReduction
  rw [hhalf, hquarter, hs]
  show (reduceFrom ge (2 ^ k / 2) s).bind _ = _
  rw [hs']
  show (s'.corrIdx.read 0).bind _ = _
  rw [Vec.read_lt (by omega)]
  exact congrArg (fun e : α × ℕ => some (s'.corr, e.2)) hentry

end

/-! ## The maximum of a row -/

section
variable {α : Type} [LinearOrder α]

/-- The winner of a tournament of the entries of a row with their positions. -/
theorem isArgmax_tournament {ge : α → α → Bool} (hge : ∀ x y, ge x y = true ↔ y ≤ x) {k : ℕ} {corr : Vec α}
    (hsize : corr.size = 2 ^ k) :
    IsArgmax corr (tournament ge k fun i => (corr.get i, i)).1 (tournament ge k fun i => (corr.get i, i)).2 := by
  obtain ⟨i, hi, hwins⟩ := tournament_mem ge k fun i => (corr.get i, i)
  refine ⟨?_, ?_, fun d hd => ?_⟩
  · rw [hwins, hsize]
    exact hi
  · rw [hwins]
  · exact le_tournament hge (hsize ▸ hd) fun i => (corr.get i, i)

/-- The maximum of a row is one value. -/
theorem IsArgmax.unique {corr : Vec α} {x y : α} {i j : ℕ} (hx : IsArgmax corr x i) (hy : IsArgmax corr y j) :
    x = y :=
  le_antisymm (hx.get_index ▸ hy.le_max i hx.index_lt) (hy.get_index ▸ hx.le_max j hy.index_lt)

/-- **The manual reduction** of a row leaves its maximum in front and gives a position of it, as Eigen's does,
    for every unroll width that is a power of two and at least 2. -/
theorem manualReduction_maxCoeff (eigen : MaxCoeff α) {unrollWid : ℕ} (hpow : ∃ k, unrollWid = 2 ^ k)
    (hwid : 2 ≤ unrollWid) {corr : Vec α} (hsize : corr.size = unrollWid) (uninit : ℕ → ℕ) :
    ∃ corr' index,
      manualReduction (fun x y => decide (y ≤ x)) unrollWid corr uninit = some (corr', index) ∧
      corr'.size = unrollWid ∧ IsArgmax corr (corr'.get 0) index ∧ corr'.get 0 = (eigen.coeff corr).1 := by
  have hge : ∀ x y : α, decide (y ≤ x) = true ↔ y ≤ x := fun x y => decide_eq_true_iff
  obtain ⟨k, rfl⟩ := hpow
  cases k with
  | zero => exact absurd hwid (by decide)
  | succ k =>
      obtain ⟨corr', hrun, hsize', hfront⟩ :=
        manualReduction_some (fun x y : α => decide (y ≤ x)) hsize uninit
      have hmax := isArgmax_tournament hge hsize
      rw [← hfront] at hmax
      have heigen := eigen.isArgmax corr (hsize ▸ Nat.two_pow_pos (k + 1))
      exact ⟨corr', _, hrun, hsize'.trans hsize, hmax, hmax.unique heigen⟩

/-- A `maxCoeff` that searches the row from its front. -/
def scanMaxCoeff (α : Type) [LinearOrder α] : MaxCoeff α where
  coeff corr := (List.range corr.size).foldl
    (fun best d => if best.1 < corr.get d then (corr.get d, d) else best) (corr.get 0, 0)
  isArgmax corr hpos := by
    -- before entry `n`, the best is the largest of the first `n`, or the front
    refine (foldl_range_inv (fun n best => best.2 < corr.size ∧ corr.get best.2 = best.1 ∧
      ∀ d < n, corr.get d ≤ best.1) corr.size (corr.get 0, 0) ⟨hpos, rfl, fun d hd => by omega⟩ ?_).elim
      fun hlt hrest => ⟨hlt, hrest.1, hrest.2⟩
    rintro n ⟨x, i⟩ hn ⟨hi, hget, hmax⟩
    dsimp only
    by_cases hlt : x < corr.get n
    · rw [if_pos hlt]
      refine ⟨hn, rfl, fun d hd => ?_⟩
      rcases Nat.lt_succ_iff_lt_or_eq.mp hd with hd | rfl
      · exact (hmax d hd).trans hlt.le
      · exact le_rfl
    · rw [if_neg hlt]
      refine ⟨hi, hget, fun d hd => ?_⟩
      rcases Nat.lt_succ_iff_lt_or_eq.mp hd with hd | rfl
      · exact hmax d hd
      · exact not_lt.mp hlt

/-- A row with its maximum twice. -/
def tiedRow : Vec ℤ := ⟨4, fun i => if i = 1 ∨ i = 2 then 7 else 3⟩

theorem manualReduction_maxCoeff_tied :
    ∃ corr' index, manualReduction (fun x y => decide (y ≤ x)) 4 tiedRow id = some (corr', index) ∧
      corr'.size = 4 ∧ IsArgmax tiedRow (corr'.get 0) index ∧
      corr'.get 0 = ((scanMaxCoeff ℤ).coeff tiedRow).1 :=
  manualReduction_maxCoeff (scanMaxCoeff ℤ) ⟨2, rfl⟩ (by decide) rfl id

/-- Of equal values the manual reduction may give another position than a search from the front. -/
example : (tournament (fun x y : ℤ => decide (y ≤ x)) 2 fun i => (tiedRow.get i, i)) = (7, 2) ∧
    (scanMaxCoeff ℤ).coeff tiedRow = (7, 1) := by decide

end

/-! ## The rows of the kernel -/

section
variable {K : Type} [Field K] [LinearOrder K]

omit [Field K] in
/-- The passes of the kernel are rounds too. -/
theorem round_horizontalReduction {n i : ℕ} (hi : i < n) (t : (ℕ → Dbl K) × (ℕ → ℕ)) :
    ((Scamp.horizontalReduction n t).1 i, (Scamp.horizontalReduction n t).2 i) =
      playRound Dbl.ge n (fun j => (t.1 j, t.2 j)) i := by
  unfold Scamp.horizontalReduction playRound
  dsimp only
  rw [if_pos hi, if_pos hi]
  cases (t.1 i).ge (t.1 (i + n)) with
  | true => rfl
  | false => rfl

omit [Field K] in
theorem tournament_reduceFrom (k : ℕ) (t : (ℕ → Dbl K) × (ℕ → ℕ)) :
    ((Scamp.reduceFrom (2 ^ k / 2) t).1 0, (Scamp.reduceFrom (2 ^ k / 2) t).2 0) =
      tournament Dbl.ge k fun j => (t.1 j, t.2 j) := by
  induction k generalizing t with
  | zero =>
      rw [Scamp.reduceFrom, if_pos (by decide)]
      rfl
  | succ k ih =>
      have hpos : 2 ^ k ≠ 0 := pow_ne_zero k two_ne_zero
      rw [Nat.pow_succ, Nat.mul_div_cancel _ Nat.two_pos, Scamp.reduceFrom, if_neg hpos, ih]
      exact tournament_congr fun i hi => round_horizontalReduction hi t

/-- **Refinement.** In place, the loops compute what the kernel's row reduction does, NaNs included. -/
theorem manualReduction_reduceRowFast {bld : KernelBuild K} {k : ℕ} (hwid : bld.unrollWid = 2 ^ (k + 1))
    (heigen : bld.eigenIndexReduction = false) {corr : Vec (Dbl K)} (hsize : corr.size = bld.unrollWid)
    (thresh : K) (uninit : ℕ → ℕ) :
    ∃ corr', manualReduction Dbl.ge bld.unrollWid corr uninit =
        some (corr', (reduceRowFast bld .oneNNIndex corr thresh).2) ∧
      corr'.get 0 = (reduceRowFast bld .oneNNIndex corr thresh).1 := by
  have hdouble : 2 ^ (k + 1) = 2 ^ k * 2 := Nat.pow_succ 2 k
  have hhalf : 2 ^ (k + 1) / 2 = 2 ^ k := by omega
  have hquarter : 2 ^ (k + 1) / 4 = 2 ^ k / 2 := by omega
  have hkernel : reduceRowFast bld .oneNNIndex corr thresh =
      tournament Dbl.ge (k + 1) fun i => (corr.get i, i) := by
    unfold reduceRowFast
    simp only [heigen, Bool.false_eq_true, if_false, hwid, hhalf, hquarter]
    rw [tournament_reduceFrom]
    exact tournament_congr fun i hi => round_horizontalReduction hi (corr.get, id)
  rw [hwid] at hsize ⊢
  obtain ⟨corr', hrun, -, hfront⟩ := manualReduction_some Dbl.ge hsize uninit
  rw [hkernel]
  exact ⟨corr', hrun, hfront⟩

end

end RowReduction

end Scamp
