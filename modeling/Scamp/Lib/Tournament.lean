import Mathlib.Algebra.Order.Group.Nat
import Mathlib.Logic.Basic
import Mathlib.Order.Lattice

/-!
# `Lib.Tournament` — a tournament by halving

A tournament of `2 ^ k` entries, each a value with something that belongs to it. In a round every entry of
the first half meets the one as far into the second half, and the better of the two goes on. The winner is an
entry that took part (`tournament_mem`), and no entry has a larger value when the comparison is that of a
linear order (`le_tournament`).

The entries past those that take part play no role (`tournament_congr`), so an array that is reduced in place
may hold anything there.
-/

namespace Lib

variable {α β : Type*} (ge : α → α → Bool)

/-- Who goes on from place `i` of the first `n`: on equal values the entry that is there. -/
def playRound (n : ℕ) (t : ℕ → α × β) (i : ℕ) : α × β := if ge (t i).1 (t (i + n)).1 then t i else t (i + n)

/-- The winner of the first `2 ^ k` entries. -/
def tournament : ℕ → (ℕ → α × β) → α × β
  | 0, t => t 0
  | k + 1, t => tournament k (playRound ge (2 ^ k) t)

variable {ge} {t u : ℕ → α × β}

theorem playRound_congr {n i : ℕ} (hi : t i = u i) (hn : t (i + n) = u (i + n)) :
    playRound ge n t i = playRound ge n u i := by
  unfold playRound
  rw [hi, hn]

theorem tournament_congr {k : ℕ} (h : ∀ i < 2 ^ k, t i = u i) : tournament ge k t = tournament ge k u := by
  induction k generalizing t u with
  | zero => exact h 0 Nat.one_pos
  | succ k ih =>
      rw [Nat.pow_succ] at h
      exact ih fun i hi => playRound_congr (h i (by omega)) (h (i + 2 ^ k) (by omega))

/-- **The winner took part.** -/
theorem tournament_mem (ge : α → α → Bool) (k : ℕ) (t : ℕ → α × β) : ∃ i < 2 ^ k, tournament ge k t = t i := by
  induction k generalizing t with
  | zero => exact ⟨0, Nat.one_pos, rfl⟩
  | succ k ih =>
      obtain ⟨i, hi, hwins⟩ := ih (playRound ge (2 ^ k) t)
      have hround : playRound ge (2 ^ k) t i = t i ∨ playRound ge (2 ^ k) t i = t (i + 2 ^ k) := by
        unfold playRound
        exact ite_eq_or_eq _ _ _
      rw [Nat.pow_succ]
      rcases hround with hround | hround
      · exact ⟨i, by omega, hwins.trans hround⟩
      · exact ⟨i + 2 ^ k, by omega, hwins.trans hround⟩

section
variable [LinearOrder α] (hge : ∀ x y, ge x y = true ↔ y ≤ x)
include hge

/-- Who goes on is no worse than either. -/
theorem le_playRound (n : ℕ) (t : ℕ → α × β) (i : ℕ) :
    (t i).1 ≤ (playRound ge n t i).1 ∧ (t (i + n)).1 ≤ (playRound ge n t i).1 := by
  unfold playRound
  by_cases hle : ge (t i).1 (t (i + n)).1 = true
  · rw [if_pos hle]
    exact ⟨le_rfl, (hge _ _).mp hle⟩
  · rw [if_neg hle]
    exact ⟨le_of_not_ge (mt (hge _ _).mpr hle), le_rfl⟩

/-- **No entry has a larger value** than the winner. -/
theorem le_tournament {k d : ℕ} (hd : d < 2 ^ k) (t : ℕ → α × β) : (t d).1 ≤ (tournament ge k t).1 := by
  induction k generalizing d t with
  | zero =>
      obtain rfl : d = 0 := by omega
      exact le_rfl
  | succ k ih =>
      rw [Nat.pow_succ] at hd
      by_cases hfirst : d < 2 ^ k
      · exact (le_playRound hge (2 ^ k) t d).1.trans (ih hfirst _)
      · -- an entry of the second half meets the one `2 ^ k` places before
        obtain ⟨i, rfl⟩ := Nat.exists_eq_add_of_le' (not_lt.mp hfirst)
        exact (le_playRound hge (2 ^ k) t i).2.trans (ih (by omega) _)

end

end Lib
