import Mathlib.Algebra.BigOperators.Group.Finset.Basic
import Mathlib.Algebra.Order.Monoid.Defs
import Mathlib.Order.WellFounded
import Mathlib.Logic.Relation
import Mathlib.Tactic.Abel

/-!
# `Lib.Run` — runs of a transition system

A system is a relation `Step` on its states; a run is `Relation.ReflTransGen Step`. The rules here turn
facts about one step into facts about runs: an invariant, and a measure that shows that every run can be
completed. For a system of several components that move one at a time, `sum_update` follows a sum over the
components.
-/

namespace Lib

section
variable {σ : Type*} {Step : σ → σ → Prop}

/-- What every step preserves holds at the end of a run. -/
theorem run_inv {I : σ → Prop} (hstep : ∀ s s', I s → Step s s' → I s') {s s' : σ}
    (hrun : Relation.ReflTransGen Step s s') (hs : I s) : I s' := by
  induction hrun with
  | refl => exact hs
  | tail _ h ih => exact hstep _ _ ih h

/-- A run is one of another system whose steps are the same where the invariant holds. -/
theorem run_congr {Step' : σ → σ → Prop} {I : σ → Prop} (hstep : ∀ s s', I s → Step s s' → I s')
    (hsame : ∀ s s', I s → Step s s' → Step' s s') {s s' : σ} (hrun : Relation.ReflTransGen Step s s') (hs : I s) :
    Relation.ReflTransGen Step' s s' := by
  induction hrun with
  | refl => exact .refl
  | tail hrun h ih => exact ih.tail (hsame _ _ (run_inv hstep hrun hs) h)

/-- **Runs end.** If a state that is not final can take a step, and every step makes the measure smaller,
    then from every state some run leads to a final one. -/
theorem reaches_final {α : Type*} [Preorder α] [WellFoundedLT α] {I F : σ → Prop} (μ : σ → α)
    (hstep : ∀ s s', I s → Step s s' → I s') (hsmaller : ∀ s s', I s → Step s s' → μ s' < μ s)
    (hprogress : ∀ s, I s → ¬F s → ∃ s', Step s s') {s : σ} (hs : I s) :
    ∃ s', Relation.ReflTransGen Step s s' ∧ F s' := by
  induction hn : μ s using WellFoundedLT.induction generalizing s with
  | _ n ih =>
      by_cases hfinal : F s
      · exact ⟨s, .refl, hfinal⟩
      · obtain ⟨s', hs'⟩ := hprogress s hs hfinal
        have hlt : μ s' < n := hn ▸ hsmaller s s' hs hs'
        obtain ⟨s'', hrun, hfinal'⟩ := ih _ hlt (hstep s s' hs hs') rfl
        exact ⟨s'', hrun.head hs', hfinal'⟩

/-- **One component after the other.** If each component can be brought to its end, and those that have ended
    stay there, then all of them can. -/
theorem all_final {I : σ → Prop} {F : ℕ → σ → Prop} {n : ℕ}
    (hone : ∀ i < n, ∀ s, I s → ∃ s', Relation.ReflTransGen Step s s' ∧ I s' ∧ F i s' ∧ ∀ j, F j s → F j s')
    {s : σ} (hs : I s) : ∃ s', Relation.ReflTransGen Step s s' ∧ I s' ∧ ∀ i < n, F i s' := by
  induction n with
  | zero => exact ⟨s, .refl, hs, fun i hi => absurd hi (Nat.not_lt_zero i)⟩
  | succ n ih =>
      obtain ⟨s', hrun, hs', hall⟩ := ih fun i hi => hone i (Nat.lt_succ_of_lt hi)
      obtain ⟨s'', hrun', hs'', hlast, hkeep⟩ := hone n (Nat.lt_succ_self n) s' hs'
      refine ⟨s'', hrun.trans hrun', hs'', fun i hi => ?_⟩
      rcases Nat.lt_succ_iff_lt_or_eq.mp hi with hlt | rfl
      · exact hkeep i (hall i hlt)
      · exact hlast

end

/-- When component `i` of a system changes, a sum over its components changes by that component alone. -/
theorem sum_update {ω α : Type*} [AddCommMonoid α] {n i : ℕ} (hi : i < n) (f : ω → α) (w : ℕ → ω) (x : ω) :
    ∑ j ∈ Finset.range n, f (Function.update w i x j) + f (w i) =
      ∑ j ∈ Finset.range n, f (w j) + f x := by
  have hmem : i ∈ Finset.range n := Finset.mem_range.mpr hi
  have hrest : ∑ j ∈ (Finset.range n).erase i, f (Function.update w i x j) =
      ∑ j ∈ (Finset.range n).erase i, f (w j) :=
    Finset.sum_congr rfl fun j hj => by rw [Function.update_of_ne (Finset.ne_of_mem_erase hj)]
  rw [← Finset.add_sum_erase _ _ hmem, ← Finset.add_sum_erase _ (fun j => f (w j)) hmem, hrest,
    Function.update_self]
  abel

/-- An account over a queue and the components: what is done, queued and held together stays the total when
    one component moves from holding `h` to holding `h'`. -/
theorem account_step {α : Type*} [AddCancelCommMonoid α] {total done new q q' held held' h h' : α}
    (hold : done + (q + held) = total) (hnew : new + (q' + h') = q + h) (hsum : held' + h = held + h') :
    done + new + (q' + held') = total := by
  refine add_right_cancel (b := h) ?_
  calc done + new + (q' + held') + h
      = done + new + q' + (held' + h) := by abel
    _ = done + (new + (q' + h')) + held := by rw [hsum]; abel
    _ = done + (q + held) + h := by rw [hnew]; abel
    _ = total + h := by rw [hold]

/-- The same for an account that may lose something: it only gets smaller. -/
theorem account_step_le {α : Type*} [AddCommMonoid α] [PartialOrder α] [IsOrderedCancelAddMonoid α]
    {done done' q q' held held' h h' : α} (hmoves : done' + (q' + h') ≤ done + (q + h))
    (hsum : held' + h = held + h') : done' + (q' + held') ≤ done + (q + held) := by
  refine le_of_add_le_add_right (a := h) ?_
  calc done' + (q' + held') + h
      = done' + q' + (held' + h) := by abel
    _ = done' + (q' + h') + held := by rw [hsum]; abel
    _ ≤ done + (q + h) + held := add_le_add_left hmoves held
    _ = done + (q + held) + h := by abel

end Lib
