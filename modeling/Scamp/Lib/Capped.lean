import Mathlib.Algebra.BigOperators.Group.Finset.Basic
import Mathlib.Algebra.BigOperators.Group.Finset.Piecewise
import Mathlib.Algebra.Order.BigOperators.Group.Finset
import Mathlib.Algebra.Group.Action.Defs
import Mathlib.Data.List.Perm.Subperm

/-!
# `Lib.Capped` — lists in which no key occurs too often

How long can a part of a list be in which no key occurs more than `cap` times? As long as all keys together
when each is counted at most `cap` times (`exists_capped_iff`). Read the other way this is the pigeonhole
principle: in a longer part, some key occurs more than `cap` times (`exists_lt_keyCount`).
-/

namespace Lib

section
variable {α : Type*} {key : α → ℕ} {cap n : ℕ}

/-- The number of elements with a key. -/
def keyCount (key : α → ℕ) (l : List α) (k : ℕ) : ℕ := l.countP fun x => key x = k

theorem keyCount_cons (key : α → ℕ) (x : α) (l : List α) (k : ℕ) :
    keyCount key (x :: l) k = keyCount key l k + if k = key x then 1 else 0 := by
  unfold keyCount
  rw [List.countP_cons]
  by_cases h : k = key x
  · simp [h]
  · simp [h, Ne.symm h]

/-- Every element has one key. -/
theorem sum_keyCount {l : List α} (hkeys : ∀ x ∈ l, key x < n) :
    ∑ k ∈ Finset.range n, keyCount key l k = l.length := by
  induction l with
  | nil => exact Finset.sum_const_zero
  | cons x l ih =>
      have hx : key x ∈ Finset.range n := Finset.mem_range.mpr (hkeys x List.mem_cons_self)
      simp only [keyCount_cons]
      rw [Finset.sum_add_distrib, ih fun y hy => hkeys y (List.mem_cons_of_mem x hy), Finset.sum_ite_eq',
        if_pos hx, List.length_cons]

theorem keyCount_le_of_subperm {l l' : List α} (h : l'.Subperm l) (k : ℕ) : keyCount key l' k ≤ keyCount key l k :=
  h.countP_le _

/-- The elements of a list, but none that has `cap` with its key behind it. -/
def capped (key : α → ℕ) (cap : ℕ) : List α → List α
  | [] => []
  | x :: l => if keyCount key (capped key cap l) (key x) < cap then x :: capped key cap l else capped key cap l

theorem capped_sublist (key : α → ℕ) (cap : ℕ) (l : List α) : (capped key cap l).Sublist l := by
  induction l with
  | nil => exact .slnil
  | cons x l ih =>
      unfold capped
      split
      · exact ih.cons_cons x
      · exact ih.cons x

theorem keyCount_capped (key : α → ℕ) (cap : ℕ) (l : List α) (k : ℕ) :
    keyCount key (capped key cap l) k = min (keyCount key l k) cap := by
  induction l with
  | nil => exact (Nat.zero_min cap).symm
  | cons x l ih =>
      unfold capped
      by_cases hk : k = key x
      · subst hk
        rw [keyCount_cons, if_pos rfl]
        split
        · rw [keyCount_cons, if_pos rfl]
          omega
        · omega
      · rw [keyCount_cons, if_neg hk]
        split
        · rw [keyCount_cons, if_neg hk]
          exact ih
        · exact ih

/-- **The longest part** of a list in which no key occurs more than `cap` times. -/
theorem exists_capped_iff {l : List α} (hkeys : ∀ x ∈ l, key x < n) {m : ℕ} :
    (∃ l', l'.Subperm l ∧ l'.length = m ∧ ∀ k, keyCount key l' k ≤ cap) ↔
      m ≤ ∑ k ∈ Finset.range n, min (keyCount key l k) cap := by
  constructor
  · rintro ⟨l', hsub, rfl, hcap⟩
    rw [← sum_keyCount fun x hx => hkeys x (hsub.subset hx)]
    exact Finset.sum_le_sum fun k _ => le_min (keyCount_le_of_subperm hsub k) (hcap k)
  · intro hm
    have hsub := capped_sublist key cap l
    have hlength : (capped key cap l).length = ∑ k ∈ Finset.range n, min (keyCount key l k) cap := by
      rw [← sum_keyCount fun x hx => hkeys x (hsub.subset hx)]
      exact Finset.sum_congr rfl fun k _ => keyCount_capped key cap l k
    have htake := List.take_sublist m (capped key cap l)
    refine ⟨(capped key cap l).take m, (htake.trans hsub).subperm, ?_, fun k => ?_⟩
    · rw [List.length_take, hlength]
      exact min_eq_left hm
    · apply (keyCount_le_of_subperm htake.subperm k).trans
      rw [keyCount_capped]
      exact min_le_right _ _

/-- **Pigeonholes.** In a part that is longer, some key occurs more often. -/
theorem exists_lt_keyCount {l l' : List α} (hkeys : ∀ x ∈ l, key x < n) (hsub : l'.Subperm l)
    (hlong : ∑ k ∈ Finset.range n, min (keyCount key l k) cap < l'.length) : ∃ k, cap < keyCount key l' k := by
  by_contra hcap
  push Not at hcap
  exact absurd ((exists_capped_iff hkeys).mp ⟨l', hsub, rfl, hcap⟩) (Nat.not_le_of_lt hlong)

/-- `n` keys, each counted at most `cap` times. -/
theorem sum_min_le (c : ℕ → ℕ) (n cap : ℕ) : ∑ k ∈ Finset.range n, min (c k) cap ≤ cap * n := by
  calc ∑ k ∈ Finset.range n, min (c k) cap ≤ ∑ _k ∈ Finset.range n, cap :=
        Finset.sum_le_sum fun k _ => min_le_right _ _
    _ = cap * n := by rw [Finset.sum_const, Finset.card_range, smul_eq_mul, Nat.mul_comm]

end

end Lib
