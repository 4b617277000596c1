import Mathlib.Data.List.Nodup
import Mathlib.Data.List.Range
import Mathlib.Algebra.BigOperators.Group.List.Basic
import Mathlib.Tactic.Ring

/-!
# `Lib.Loop` — counting loops

`for (i = start; i < stop; i += step)` as the list of its counter values, with the rules a proof about
such a loop uses: the unfolding of one iteration, the induction over the start value, the partition of
`[start, stop)` into the blocks of one iteration, and the invariant rules for a `foldl` over the
counters.

Nothing here depends on the program the loops come from.
-/

namespace Lib

/-! ## The counters of a loop -/

/-- The values the counter takes in `for (i = start; i < stop; i += step)`. -/
def forRange (start stop step : ℕ) : List ℕ :=
  List.range' start ((stop - start + step - 1) / step) step

section
variable {start stop step : ℕ}

/-- A loop whose start is past its bound does not run. -/
theorem forRange_nil (h : stop ≤ start) : forRange start stop step = [] := by
  unfold forRange
  rcases Nat.eq_zero_or_pos step with rfl | hpos
  · simp
  · have : (stop - start + step - 1) / step = 0 := Nat.div_eq_of_lt (by omega)
    rw [this, List.range'_zero]

/-- One iteration of a loop: the start value, then the loop from the next value on. -/
theorem forRange_cons (hstep : 0 < step) (h : start < stop) :
    forRange start stop step = start :: forRange (start + step) stop step := by
  unfold forRange
  have hcount : (stop - start + step - 1) / step =
      (stop - (start + step) + step - 1) / step + 1 := by
    rw [← Nat.add_div_right _ hstep]
    rcases Nat.lt_or_ge stop (start + step) with hlast | hmore
    · have h1 : (stop - start + step - 1) / step = 1 := by
        rw [Nat.div_eq_iff hstep]
        omega
      have h2 : (stop - (start + step) + step - 1 + step) / step = 1 := by
        rw [Nat.div_eq_iff hstep]
        omega
      rw [h1, h2]
    · congr 1
      omega
  rw [hcount, List.range'_succ]

/-- Induction over the start value of a loop with a fixed bound, from the last iteration back. -/
theorem forRange_rec {P : ℕ → Prop} (hstep : 0 < step)
    (hdone : ∀ start, stop ≤ start → P start)
    (hnext : ∀ start, start < stop → P (start + step) → P start) (start : ℕ) : P start := by
  induction hn : stop - start using Nat.strong_induction_on generalizing start with
  | _ n ih =>
      rcases Nat.lt_or_ge start stop with hlt | hge
      · exact hnext start hlt (ih (stop - (start + step)) (by omega) _ rfl)
      · exact hdone start hge

theorem mem_forRange (hstep : 0 < step) {x : ℕ} :
    x ∈ forRange start stop step ↔ x < stop ∧ ∃ k, x = start + step * k := by
  induction start using @forRange_rec stop step _ hstep with
  | hdone start h =>
      rw [forRange_nil h]
      constructor
      · intro hx
        exact absurd hx List.not_mem_nil
      · rintro ⟨hx, k, rfl⟩
        exact absurd hx (by have := Nat.zero_le (step * k); omega)
  | hnext start h ih =>
      rw [forRange_cons hstep h, List.mem_cons, ih]
      constructor
      · rintro (rfl | ⟨hx, k, rfl⟩)
        · exact ⟨h, 0, by simp⟩
        · exact ⟨hx, k + 1, by ring⟩
      · rintro ⟨hx, k, rfl⟩
        cases k with
        | zero => exact Or.inl (by simp)
        | succ k => exact Or.inr ⟨hx, k, by ring⟩

theorem lt_of_mem_forRange (hstep : 0 < step) {x : ℕ} (h : x ∈ forRange start stop step) :
    x < stop := ((mem_forRange hstep).mp h).1

theorem le_of_mem_forRange (hstep : 0 < step) {x : ℕ} (h : x ∈ forRange start stop step) :
    start ≤ x := by
  obtain ⟨_, k, rfl⟩ := (mem_forRange hstep).mp h
  exact Nat.le_add_right _ _

theorem nodup_forRange (hstep : 0 < step) : (forRange start stop step).Nodup :=
  List.nodup_range' step hstep

/-- A loop from `0` in two parts. -/
theorem range_split {k n : ℕ} (h : k ≤ n) :
    List.range n = List.range k ++ List.range' k (n - k) := by
  have happend := @List.range'_append_1 0 k (n - k)
  rw [Nat.zero_add, Nat.add_sub_cancel' h] at happend
  rw [List.range_eq_range', List.range_eq_range', happend]

/-! ## The blocks of a loop -/

/-- Every value of `[start, stop)` lies in the block of some iteration. -/
theorem exists_block (hstep : 0 < step) {d : ℕ} (h1 : start ≤ d) (h2 : d < stop) :
    ∃ b ∈ forRange start stop step, b ≤ d ∧ d < b + step := by
  have hle : step * ((d - start) / step) ≤ d - start := Nat.mul_div_le _ _
  have hlt : d - start < step * ((d - start) / step) + step := by
    have := Nat.lt_mul_div_succ (d - start) hstep
    rwa [Nat.mul_succ] at this
  refine ⟨start + step * ((d - start) / step), ?_, by omega, by omega⟩
  exact (mem_forRange hstep).mpr ⟨by omega, _, rfl⟩

/-- Two iterations whose blocks share a value are the same iteration. -/
theorem block_unique (hstep : 0 < step) {b b' d : ℕ} (hb : b ∈ forRange start stop step)
    (hb' : b' ∈ forRange start stop step) (h1 : b ≤ d) (h2 : d < b + step) (h1' : b' ≤ d)
    (h2' : d < b' + step) : b = b' := by
  obtain ⟨_, k, rfl⟩ := (mem_forRange hstep).mp hb
  obtain ⟨_, k', rfl⟩ := (mem_forRange hstep).mp hb'
  have hlt : step * k < step * (k' + 1) := by rw [Nat.mul_succ]; omega
  have hlt' : step * k' < step * (k + 1) := by rw [Nat.mul_succ]; omega
  have := Nat.lt_of_mul_lt_mul_left hlt
  have := Nat.lt_of_mul_lt_mul_left hlt'
  obtain rfl : k = k' := by omega
  rfl

end

/-- Iterations that each produce distinct results and share none produce distinct results together. -/
theorem nodup_flatMap_of_inj {α β : Type*} {l : List α} {f : α → List β} (hl : l.Nodup)
    (hf : ∀ x ∈ l, (f x).Nodup) (hinj : ∀ x ∈ l, ∀ y ∈ l, ∀ z, z ∈ f x → z ∈ f y → x = y) :
    (l.flatMap f).Nodup := by
  rw [List.nodup_flatMap]
  refine ⟨hf, List.Pairwise.imp_of_mem ?_ hl⟩
  intro x y hx hy hne z hzx hzy
  exact hne (hinj x hx y hy z hzx hzy)

/-- A list of lists of which only one member is not empty. -/
theorem flatMap_single {α β : Type*} [DecidableEq α] {l : List α} (hl : l.Nodup) {f : α → List β} {b : α}
    (hb : b ∈ l) (hf : ∀ x ∈ l, x ≠ b → f x = []) : l.flatMap f = f b := by
  induction l with
  | nil => exact absurd hb List.not_mem_nil
  | cons x l ih =>
      obtain ⟨hx, hnodup⟩ := List.nodup_cons.mp hl
      rw [List.flatMap_cons]
      by_cases hxb : x = b
      · subst hxb
        have hrest : l.flatMap f = [] := by
          rw [List.flatMap_eq_nil_iff]
          intro y hy
          exact hf y (List.mem_cons_of_mem _ hy) fun h => hx (h ▸ hy)
        rw [hrest, List.append_nil]
      · have hmem : b ∈ l := (List.mem_cons.mp hb).resolve_left (Ne.symm hxb)
        rw [hf x List.mem_cons_self hxb, List.nil_append]
        exact ih hnodup hmem fun y hy => hf y (List.mem_cons_of_mem _ hy)

/-! ## Invariant rules for a fold over the counters -/

/-- **Loop invariant.** `I i s` holds before iteration `i`; each iteration carries it to the next value of
    the counter. -/
theorem foldl_range'_inv {σ : Type*} {f : σ → ℕ → σ} (I : ℕ → σ → Prop) (n : ℕ) :
    ∀ (a : ℕ) (s : σ), I a s → (∀ i s, a ≤ i → i < a + n → I i s → I (i + 1) (f s i)) →
      I (a + n) ((List.range' a n).foldl f s) := by
  induction n with
  | zero =>
      intro a s h0 _
      simpa using h0
  | succ n ih =>
      intro a s h0 hstep
      rw [List.range'_succ, List.foldl_cons]
      have h1 : I (a + 1) (f s a) := hstep a s (Nat.le_refl a) (by omega) h0
      have := ih (a + 1) (f s a) h1 (fun i s hi hn => hstep i s (by omega) (by omega))
      rwa [show a + (n + 1) = a + 1 + n by omega]

/-- The invariant rule for a loop that counts from `0`. -/
theorem foldl_range_inv {σ : Type*} {f : σ → ℕ → σ} (I : ℕ → σ → Prop) (n : ℕ) (s : σ) (h0 : I 0 s)
    (hstep : ∀ i s, i < n → I i s → I (i + 1) (f s i)) : I n ((List.range n).foldl f s) := by
  have := @foldl_range'_inv σ f I n 0 s h0 (fun i s _ hi => hstep i s (by omega))
  rwa [Nat.zero_add, ← List.range_eq_range'] at this

end Lib
