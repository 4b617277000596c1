import Mathlib.Data.List.Range

/-!
# `Lib.Checked` — counting loops whose iterations may fail

A loop that checks what it does is a `foldlM` over its counters in `Option`: `none` is a failed check. The
two rules say when such a loop finishes and when it cannot.

Nothing here depends on the program the loops come from.
-/

namespace Lib

/-- A check that passes, followed by the rest of the program. -/
theorem bind_some {α β : Type*} {x : Option α} {f : α → Option β} {a : α} {b : β} (hx : x = some a)
    (hf : f a = some b) : x.bind f = some b := by
  rw [hx]
  exact hf

/-- **Loop invariant.** `I i s` holds before iteration `i`; each iteration passes its checks and carries it
    to the next value of the counter. -/
theorem foldlM_range'_some {σ : Type*} {f : σ → ℕ → Option σ} (I : ℕ → σ → Prop) (n : ℕ) :
    ∀ {a : ℕ} {s : σ}, I a s →
      (∀ i s, a ≤ i → i < a + n → I i s → ∃ s', f s i = some s' ∧ I (i + 1) s') →
      ∃ s', (List.range' a n).foldlM f s = some s' ∧ I (a + n) s' := by
  induction n with
  | zero =>
      intro a s h0 _
      exact ⟨s, rfl, h0⟩
  | succ n ih =>
      intro a s h0 hstep
      obtain ⟨s1, hs1, h1⟩ := hstep a s (Nat.le_refl a) (by omega) h0
      obtain ⟨s', hs', h'⟩ := ih h1 fun i s hi hn => hstep i s (by omega) (by omega)
      refine ⟨s', ?_, ?_⟩
      · rw [List.range'_succ, List.foldlM_cons, hs1]
        exact hs'
      · rwa [show a + (n + 1) = a + 1 + n by omega]

/-- The invariant rule for a loop that counts from `0`. -/
theorem foldlM_range_some {σ : Type*} {f : σ → ℕ → Option σ} (I : ℕ → σ → Prop) (n : ℕ) {s : σ} (h0 : I 0 s)
    (hstep : ∀ i s, i < n → I i s → ∃ s', f s i = some s' ∧ I (i + 1) s') :
    ∃ s', (List.range n).foldlM f s = some s' ∧ I n s' := by
  have := foldlM_range'_some I n h0 fun i s _ hi => hstep i s (by omega)
  rwa [Nat.zero_add, ← List.range_eq_range'] at this

/-- A loop none of whose iterations fails is a fold. -/
theorem foldlM_eq_some {σ α : Type*} {f : σ → α → Option σ} {g : σ → α → σ} {l : List α}
    (h : ∀ s, ∀ x ∈ l, f s x = some (g s x)) : ∀ s, l.foldlM f s = some (l.foldl g s) := by
  induction l with
  | nil =>
      intro s
      rfl
  | cons x l ih =>
      intro s
      rw [List.foldlM_cons, h s x List.mem_cons_self, List.foldl_cons]
      exact ih (fun s y hy => h s y (List.mem_cons_of_mem _ hy)) (g s x)

/-- A loop with an iteration that fails in every state does not finish. -/
theorem foldlM_eq_none {σ α : Type*} {f : σ → α → Option σ} {l : List α} {x : α} (hx : x ∈ l)
    (hf : ∀ s, f s x = none) : ∀ s, l.foldlM f s = none := by
  induction l with
  | nil => exact absurd hx List.not_mem_nil
  | cons y l ih =>
      intro s
      rw [List.foldlM_cons]
      cases hy : f s y with
      | none => rfl
      | some s' =>
          rcases List.mem_cons.mp hx with rfl | hmem
          · exact absurd ((hf s).symm.trans hy) (by simp)
          · exact ih hmem s'

end Lib
