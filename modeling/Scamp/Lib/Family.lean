import Scamp.Lib.Trace
import Mathlib.Logic.Function.Basic

/-!
# `Lib.Family` — a family of components that grows

A system of components, of which some exist. A component is added, or one of them takes a step of its own
and the others stay as they are. What happens to one component does not depend on how the steps of the
others come in between: its part of a run of the family is a run of the component alone, from the state in
which it was added (`component_run`).
-/

namespace Lib

variable {ι σ α β : Type*}

/-- What happens to a family: a component is added, or takes a step. -/
inductive Happening (ι α β : Type*)
  | added (i : ι) (x : β)
  | moved (i : ι) (a : α)

variable [DecidableEq ι]

/-- The steps of component `i`. -/
def stepsOf (i : ι) (hs : List (Happening ι α β)) : List α :=
  hs.flatMap fun h =>
    match h with
    | .added _ _ => []
    | .moved j a => if j = i then [a] else []

/-- One thing happens to the family. -/
inductive Happens (New : ι → β → σ → Prop) (Step : ι → σ → α → σ → Prop) :
    (ι → Option σ) → Happening ι α β → (ι → Option σ) → Prop
  | added {f i x s} : f i = none → New i x s → Happens New Step f (.added i x) (Function.update f i (some s))
  | moved {f i a s s'} : f i = some s → Step i s a s' →
      Happens New Step f (.moved i a) (Function.update f i (some s'))

variable {New : ι → β → σ → Prop} {Step : ι → σ → α → σ → Prop} {hs : List (Happening ι α β)}
variable {f : ι → Option σ} {i : ι}

@[simp] theorem stepsOf_append (i : ι) (hs hs' : List (Happening ι α β)) :
    stepsOf i (hs ++ hs') = stepsOf i hs ++ stepsOf i hs' := by
  simp [stepsOf]

@[simp] theorem stepsOf_added (i j : ι) (x : β) : stepsOf (α := α) i [.added j x] = [] := rfl

@[simp] theorem stepsOf_moved (i j : ι) (a : α) :
    stepsOf (β := β) i [.moved j a] = if j = i then [a] else [] := by
  simp [stepsOf]

theorem mem_stepsOf {i : ι} {a : α} {hs : List (Happening ι α β)} : a ∈ stepsOf i hs ↔ .moved i a ∈ hs := by
  unfold stepsOf
  rw [List.mem_flatMap]
  constructor
  · rintro ⟨e, he, ha⟩
    cases e with
    | added j x => cases ha
    | moved j b =>
        dsimp only at ha
        split at ha
        · next hj =>
            obtain rfl := List.mem_singleton.mp ha
            exact hj ▸ he
        · cases ha
  · exact fun h => ⟨_, h, by simp⟩

/-- Only components that exist take steps. -/
theorem stepsOf_of_none (h : Trace (Happens New Step) (fun _ => none) hs f) (hnone : f i = none) :
    stepsOf i hs = [] := by
  induction h with
  | nil => rfl
  | snoc _ hstep ih =>
      cases hstep with
      | @added j x s hj hnew =>
          by_cases hij : i = j
          · subst hij
            simp at hnone
          · rw [Function.update_of_ne hij] at hnone
            rw [stepsOf_append, ih hnone, stepsOf_added, List.nil_append]
      | @moved j a s s' hj hs =>
          by_cases hij : i = j
          · subst hij
            simp at hnone
          · rw [Function.update_of_ne hij] at hnone
            rw [stepsOf_append, ih hnone, stepsOf_moved, if_neg fun h => hij h.symm, List.nil_append]

/-- **A component runs alone.** Its steps lead from the state in which it was added to its state in the
    family. -/
theorem component_run (h : Trace (Happens New Step) (fun _ => none) hs f) {x : β} (hadded : .added i x ∈ hs) :
    ∃ start s, New i x start ∧ f i = some s ∧ Trace (Step i) start (stepsOf i hs) s := by
  induction h with
  | nil => cases hadded
  | @snoc hs f₀ a f' hrun hstep ih =>
      rcases List.mem_append.mp hadded with hold | hlast
      · obtain ⟨start, s, hnew, hs, htrace⟩ := ih hold
        cases hstep with
        | @added j y t hj hnew' =>
            have hij : i ≠ j := by
              rintro rfl
              rw [hj] at hs
              cases hs
            refine ⟨start, s, hnew, by rw [Function.update_of_ne hij, hs], ?_⟩
            rwa [stepsOf_append, stepsOf_added, List.append_nil]
        | @moved j a t t' hj hmove =>
            by_cases hij : i = j
            · subst hij
              obtain rfl : t = s := Option.some.inj (hj.symm.trans hs)
              refine ⟨start, t', hnew, by simp, ?_⟩
              rw [stepsOf_append, stepsOf_moved, if_pos rfl]
              exact htrace.snoc hmove
            · refine ⟨start, s, hnew, by rw [Function.update_of_ne hij, hs], ?_⟩
              rwa [stepsOf_append, stepsOf_moved, if_neg fun h => hij h.symm, List.append_nil]
      · rw [List.mem_singleton] at hlast
        subst hlast
        cases hstep with
        | @added _ _ t hj hnew =>
            refine ⟨t, t, hnew, by simp, ?_⟩
            rw [stepsOf_append, stepsOf_of_none hrun hj, stepsOf_added]
            exact .nil

/-- A component that exists was added. -/
theorem exists_added (h : Trace (Happens New Step) (fun _ => none) hs f) {s : σ} (hs' : f i = some s) :
    ∃ x, .added i x ∈ hs := by
  induction h generalizing s with
  | nil => cases hs'
  | @snoc _ f₀ _ _ _ hstep ih =>
      cases hstep with
      | @added j x t hj hnew =>
          by_cases hij : i = j
          · exact ⟨x, by simp [hij]⟩
          · rw [Function.update_of_ne hij] at hs'
            obtain ⟨y, hy⟩ := ih hs'
            exact ⟨y, List.mem_append_left _ hy⟩
      | @moved j a t t' hj hmove =>
          obtain ⟨u, hu⟩ : ∃ u, f₀ i = some u := by
            by_cases hij : i = j
            · exact ⟨t, hij ▸ hj⟩
            · rw [Function.update_of_ne hij] at hs'
              exact ⟨s, hs'⟩
          obtain ⟨y, hy⟩ := ih hu
          exact ⟨y, List.mem_append_left _ hy⟩

/-- A component is added once. -/
theorem added_unique (h : Trace (Happens New Step) (fun _ => none) hs f) {x y : β} (hx : .added i x ∈ hs)
    (hy : .added i y ∈ hs) : x = y := by
  induction h with
  | nil => cases hx
  | @snoc hs f₀ a f' hrun hstep ih =>
      -- a component that was added before cannot be added now
      have hnone : ∀ z z', .added i z ∈ hs → a ≠ .added i z' := by
        rintro z z' hz rfl
        obtain ⟨-, s, -, hs, -⟩ := component_run hrun hz
        cases hstep with
        | added hfree _ =>
            rw [hfree] at hs
            cases hs
      rcases List.mem_append.mp hx with hx | hx <;> rcases List.mem_append.mp hy with hy | hy
      · exact ih hx hy
      · exact absurd (List.mem_singleton.mp hy).symm (hnone x y hx)
      · exact absurd (List.mem_singleton.mp hx).symm (hnone y x hy)
      · exact (Happening.added.inj ((List.mem_singleton.mp hx).trans (List.mem_singleton.mp hy).symm)).2

end Lib
