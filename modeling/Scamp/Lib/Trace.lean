import Mathlib.Logic.Relation
import Mathlib.Data.List.Basic

/-!
# `Lib.Trace` — runs with the labels of their steps

`Trace Step start labels s` is a run from `start` to `s` of a system whose steps carry labels. The rules
are those of `Lib.Run` with the labels in view: an invariant may speak of the labels so far
(`Trace.inv`), and a system that matches every step of another by a run of its own, with the same
observations, matches every run (`Trace.refine`).
-/

namespace Lib

variable {σ τ α β ι : Type*}

/-- The runs of a labelled system, with the labels in their order. -/
inductive Trace (Step : σ → α → σ → Prop) (start : σ) : List α → σ → Prop
  | nil : Trace Step start [] start
  | snoc {labels s a s'} : Trace Step start labels s → Step s a s' → Trace Step start (labels ++ [a]) s'

namespace Trace
variable {Step : σ → α → σ → Prop} {start s : σ} {labels : List α}

theorem single {a : α} {s' : σ} (h : Step s a s') : Trace Step s [a] s' := Trace.nil.snoc h

/-- A run without steps. -/
theorem of_nil (h : Trace Step start [] s) : s = start := by
  generalize hl : ([] : List α) = l at h
  cases h with
  | nil => rfl
  | snoc _ _ => simp at hl

/-- The last step of a run. -/
theorem of_snoc (labels : List α) {a : α} {s' : σ} (h : Trace Step start (labels ++ [a]) s') :
    ∃ s, Trace Step start labels s ∧ Step s a s' := by
  generalize hl : labels ++ [a] = l at h
  cases h with
  | nil => simp at hl
  | snoc hrun hstep =>
      obtain ⟨rfl, rfl⟩ := List.append_singleton_inj.mp hl
      exact ⟨_, hrun, hstep⟩

/-- What holds at the start and is preserved by every step of a run holds at its end. -/
theorem inv {I : List α → σ → Prop} (hstart : I [] start)
    (hstep : ∀ labels s a s', Trace Step start labels s → I labels s → Step s a s' → I (labels ++ [a]) s')
    (h : Trace Step start labels s) : I labels s := by
  induction h with
  | nil => exact hstart
  | snoc hrun h ih => exact hstep _ _ _ _ hrun ih h

theorem append {labels' : List α} {s' : σ} (h : Trace Step start labels s) (h' : Trace Step s labels' s') :
    Trace Step start (labels ++ labels') s' := by
  induction h' with
  | nil => rwa [List.append_nil]
  | snoc _ hstep ih =>
      rw [← List.append_assoc]
      exact ih.snoc hstep

/-- A run of steps that meet a weaker condition. -/
theorem mono {Step' : σ → α → σ → Prop} (hle : ∀ s a s', Step s a s' → Step' s a s')
    (h : Trace Step start labels s) : Trace Step' start labels s := by
  induction h with
  | nil => exact .nil
  | snoc _ hstep ih => exact ih.snoc (hle _ _ _ hstep)

/-- A run of steps that meet another condition in the states that runs reach. -/
theorem strengthen {Step' : σ → α → σ → Prop}
    (hle : ∀ labels s a s', Trace Step start labels s → Step s a s' → Step' s a s')
    (h : Trace Step start labels s) : Trace Step' start labels s := by
  induction h with
  | nil => exact .nil
  | snoc hrun hstep ih => exact ih.snoc (hle _ _ _ _ hrun hstep)

/-- **Refinement.** If every step is matched by a run of the abstract system with the same observations, so
    is every run. -/
theorem refine {Step' : τ → β → τ → Prop} (abs : σ → τ) (observe : α → List ι) (observe' : β → List ι)
    (I : σ → Prop) (hstart : I start) (hI : ∀ s a s', I s → Step s a s' → I s')
    (hmatch : ∀ s a s', I s → Step s a s' →
      ∃ labels', Trace Step' (abs s) labels' (abs s') ∧ labels'.flatMap observe' = observe a)
    (h : Trace Step start labels s) :
    I s ∧ ∃ labels', Trace Step' (abs start) labels' (abs s) ∧
      labels'.flatMap observe' = labels.flatMap observe := by
  induction h with
  | nil => exact ⟨hstart, [], .nil, rfl⟩
  | snoc _ hstep ih =>
      obtain ⟨hs, l, hl, hobs⟩ := ih
      obtain ⟨l', hl', hobs'⟩ := hmatch _ _ _ hs hstep
      refine ⟨hI _ _ _ hs hstep, l ++ l', hl.append hl', ?_⟩
      simp [hobs, hobs']

end Trace

end Lib
