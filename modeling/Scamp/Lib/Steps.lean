import Mathlib.Data.List.Basic
import Mathlib.Data.List.Range
import Mathlib.Logic.Relation

/-!
# `Lib.Steps` — statements that may fail, one after the other

A piece of code is a list of statements, each of which changes a state or fails. `Achieves exec Q steps s`
says that none of `steps` fails when they are executed from `s`, and that `Q` holds in the end. The rules
follow the way such a list is put together: one statement, two pieces, an optional piece, a loop.

A run that has not failed keeps what its statements keep (`invariant_of_run`), and has executed each of them
(`executed_of_run`).

Statements may give something out on the way (`emitted`), each from the state it is executed in.

`OnceAfter F C steps` is a property of the list itself: one statement in it is an `F`, and every `C` comes
before that one.
-/

namespace Lib

variable {σ α : Type*} {exec : σ → α → Option σ} {P Q R : σ → Prop} {steps rest : List α} {s s' : σ}

/-- Executing the statements does not fail, and ends in a state with `Q`. -/
def Achieves (exec : σ → α → Option σ) (Q : σ → Prop) (steps : List α) (s : σ) : Prop :=
  ∃ s', steps.foldlM exec s = some s' ∧ Q s'

theorem achieves_nil (h : Q s) : Achieves exec Q [] s := ⟨s, rfl, h⟩

theorem achieves_one {x : α} (h : exec s x = some s') (hQ : Q s') : Achieves exec Q [x] s :=
  ⟨s', by simp [h], hQ⟩

/-- One piece of code after the other. -/
theorem Achieves.append (h : Achieves exec P steps s) (hrest : ∀ t, P t → Achieves exec Q rest t) :
    Achieves exec Q (steps ++ rest) s := by
  obtain ⟨t, ht, hP⟩ := h
  obtain ⟨u, hu, hQ⟩ := hrest t hP
  refine ⟨u, ?_, hQ⟩
  rw [List.foldlM_append, ht]
  exact hu

/-- A piece that is there only when `p` holds. -/
theorem achieves_if {p : Prop} [Decidable p] (hon : p → Achieves exec Q steps s) (hoff : ¬p → Q s) :
    Achieves exec Q (if p then steps else []) s := by
  by_cases hp : p
  · rw [if_pos hp]
    exact hon hp
  · rw [if_neg hp]
    exact achieves_nil (hoff hp)

/-- **A loop** whose iterations take its invariant from one counter to the next. -/
theorem achieves_loop {I : ℕ → σ → Prop} {body : ℕ → List α} {n : ℕ} (hstart : I 0 s)
    (hbody : ∀ j < n, ∀ t, I j t → Achieves exec (I (j + 1)) (body j) t) :
    Achieves exec (I n) ((List.range n).flatMap body) s := by
  induction n with
  | zero => exact achieves_nil hstart
  | succ n ih =>
      rw [List.range_succ, List.flatMap_append, List.flatMap_singleton]
      exact (ih fun j hj => hbody j (by omega)).append (hbody n (by omega))

/-- A loop of single statements. -/
theorem achieves_loop_map {I : ℕ → σ → Prop} {body : ℕ → α} {n : ℕ} (hstart : I 0 s)
    (hbody : ∀ j < n, ∀ t, I j t → Achieves exec (I (j + 1)) [body j] t) :
    Achieves exec (I n) ((List.range n).map body) s := by
  rw [List.map_eq_flatMap]
  exact achieves_loop hstart hbody

/-- **A run keeps what its statements keep.** -/
theorem invariant_of_run {I : σ → Prop} (hI : ∀ s x s', I s → exec s x = some s' → I s')
    (hrun : steps.foldlM exec s = some s') (hs : I s) : I s' := by
  induction steps generalizing s with
  | nil =>
      obtain rfl := Option.some.inj hrun
      exact hs
  | cons x steps ih =>
      rw [List.foldlM_cons] at hrun
      cases hstep : exec s x with
      | none =>
          rw [hstep] at hrun
          cases hrun
      | some t =>
          rw [hstep] at hrun
          exact ih hrun (hI s x t hs hstep)

/-- **Every statement of a run was executed**, in a state with the invariant of the run. -/
theorem executed_of_run {I : σ → Prop} (hI : ∀ s x s', I s → exec s x = some s' → I s')
    (hrun : steps.foldlM exec s = some s') (hs : I s) {x : α} (hx : x ∈ steps) :
    ∃ t t', I t ∧ exec t x = some t' := by
  induction steps generalizing s with
  | nil => cases hx
  | cons y steps ih =>
      rw [List.foldlM_cons] at hrun
      cases hstep : exec s y with
      | none =>
          rw [hstep] at hrun
          cases hrun
      | some t =>
          rw [hstep] at hrun
          rcases List.mem_cons.mp hx with rfl | hx
          · exact ⟨s, t, hs, hstep⟩
          · exact ih hrun (hI s y t hs hstep) hx

/-- What no statement changes is the same after a run. -/
theorem kept_of_run {γ : Type*} {f : σ → γ} (hkeep : ∀ x ∈ steps, ∀ s s', exec s x = some s' → f s' = f s)
    (hrun : steps.foldlM exec s = some s') : f s' = f s := by
  induction steps generalizing s with
  | nil => rw [Option.some.inj hrun]
  | cons x steps ih =>
      rw [List.foldlM_cons] at hrun
      obtain ⟨t, hstep, hrest⟩ := Option.bind_eq_some_iff.mp hrun
      rw [ih (fun y hy => hkeep y (List.mem_cons_of_mem x hy)) hrest, hkeep x List.mem_cons_self s t hstep]

/-- A run, split at one of its statements. -/
theorem split_run (hrun : steps.foldlM exec s = some s') {x : α} (hx : x ∈ steps) :
    ∃ pre post t, steps = pre ++ x :: post ∧ pre.foldlM exec s = some t ∧ (x :: post).foldlM exec t = some s' := by
  obtain ⟨pre, post, rfl⟩ := List.append_of_mem hx
  rw [List.foldlM_append] at hrun
  obtain ⟨t, hpre, hpost⟩ := Option.bind_eq_some_iff.mp hrun
  exact ⟨pre, post, t, rfl, hpre, hpost⟩

/-- Single steps, one after the other. -/
theorem exists_run {exec : σ → α → Option σ} {s s' : σ}
    (h : Relation.ReflTransGen (fun s s' => ∃ x, exec s x = some s') s s') :
    ∃ steps : List α, steps.foldlM exec s = some s' := by
  induction h with
  | refl => exact ⟨[], rfl⟩
  | tail _ hstep ih =>
      obtain ⟨steps, hrun⟩ := ih
      obtain ⟨x, hx⟩ := hstep
      refine ⟨steps ++ [x], ?_⟩
      rw [List.foldlM_append, hrun]
      simpa using hx

/-! ## What the statements give out -/

section
universe u
variable {σ β : Type u} {exec : σ → α → Option σ} {emit : σ → α → List β} {s s' : σ}

/-- What statements executed from `s` on give out. -/
def emitted (exec : σ → α → Option σ) (emit : σ → α → List β) : List α → σ → List β
  | [], _ => []
  | x :: rest, s => emit s x ++ (exec s x).elim [] (emitted exec emit rest)

/-- A run that collects what its statements give out. -/
theorem foldlM_collect (steps : List α) (s : σ) (out : List β) :
    steps.foldlM (fun t x => do let t' ← exec t.1 x; return (t', t.2 ++ emit t.1 x)) (s, out) =
      (steps.foldlM exec s).map fun s' => (s', out ++ emitted exec emit steps s) := by
  induction steps generalizing s out with
  | nil => simp [emitted]
  | cons x steps ih =>
      rw [List.foldlM_cons, List.foldlM_cons]
      unfold emitted
      cases hstep : exec s x with
      | none => rfl
      | some t => simpa [List.append_assoc] using ih t (out ++ emit s x)

/-- **What a run gives out** was given out by one of its statements. -/
theorem mem_emitted (hrun : steps.foldlM exec s = some s') {y : β} : y ∈ emitted exec emit steps s ↔
    ∃ pre x post t, steps = pre ++ x :: post ∧ pre.foldlM exec s = some t ∧ (x :: post).foldlM exec t = some s' ∧
      y ∈ emit t x := by
  induction steps generalizing s with
  | nil => simp [emitted]
  | cons x steps ih =>
      have hcons := hrun
      rw [List.foldlM_cons] at hcons
      obtain ⟨t, hstep, hrest⟩ := Option.bind_eq_some_iff.mp hcons
      unfold emitted
      rw [hstep, List.mem_append]
      constructor
      · rintro (hy | hy)
        · exact ⟨[], x, steps, s, rfl, rfl, hrun, hy⟩
        · obtain ⟨pre, x', post, u, rfl, hpre, hpost, hy⟩ := (ih hrest).mp hy
          refine ⟨x :: pre, x', post, u, rfl, ?_, hpost, hy⟩
          rw [List.foldlM_cons, hstep]
          exact hpre
      · rintro ⟨pre, x', post, u, heq, hpre, hpost, hy⟩
        cases pre with
        | nil =>
            obtain ⟨rfl, rfl⟩ := List.cons.inj heq
            obtain rfl := Option.some.inj hpre
            exact Or.inl hy
        | cons x'' pre =>
            obtain ⟨rfl, rfl⟩ := List.cons.inj heq
            rw [List.foldlM_cons, hstep] at hpre
            exact Or.inr ((ih hrest).mpr ⟨pre, x', post, u, rfl, hpre, hpost, hy⟩)

end

/-! ## Once, after all that matters -/

section
variable {F C : α → Prop}

/-- Exactly one of the statements is an `F`, and no `C` comes after it. -/
def OnceAfter (F C : α → Prop) (steps : List α) : Prop :=
  ∃ pre x post, steps = pre ++ x :: post ∧ F x ∧ (∀ y ∈ pre ++ post, ¬F y) ∧ ∀ y ∈ post, ¬C y

/-- Where the `F` is, the rest of the statements hold no `C`. -/
theorem OnceAfter.not_after (h : OnceAfter F C steps) {pre post : List α} {x : α} (heq : steps = pre ++ x :: post)
    (hx : F x) : ∀ y ∈ post, ¬C y := by
  obtain ⟨pre', x', post', rfl, -, hother, hlate⟩ := h
  rcases List.append_eq_append_iff.mp heq with ⟨mid, rfl, hmid⟩ | ⟨mid, rfl, hmid⟩
  · cases mid with
    | nil =>
        obtain ⟨rfl, rfl⟩ := List.cons.inj hmid
        exact hlate
    | cons y mid =>
        obtain ⟨rfl, rfl⟩ := List.cons.inj hmid
        exact absurd hx (hother x (by simp))
  · cases mid with
    | nil =>
        obtain ⟨rfl, rfl⟩ := List.cons.inj hmid
        exact hlate
    | cons y mid =>
        obtain ⟨rfl, rfl⟩ := List.cons.inj hmid
        exact absurd hx (hother x (by simp))

/-- What the `F` finds that only a `C` changes is there in the end. -/
theorem OnceAfter.final {γ : Type*} {f : σ → γ} (h : OnceAfter F C steps)
    (hkeep : ∀ y s s', exec s y = some s' → ¬C y → f s' = f s) {pre post : List α} {x : α}
    (heq : steps = pre ++ x :: post) (hx : F x) (hout : ¬C x) (hrun : (x :: post).foldlM exec s = some s') :
    f s = f s' := by
  refine (kept_of_run (f := f) (fun y hy t t' hstep => hkeep y t t' hstep ?_) hrun).symm
  rcases List.mem_cons.mp hy with rfl | hy
  · exact hout
  · exact h.not_after heq hx y hy

/-- There is an `F`. -/
theorem OnceAfter.exists_mem (h : OnceAfter F C steps) : ∃ x ∈ steps, F x := by
  obtain ⟨pre, x, post, rfl, hx, -⟩ := h
  exact ⟨x, by simp, hx⟩

theorem onceAfter_one {x : α} (h : F x) : OnceAfter F C [x] := ⟨[], x, [], rfl, h, by simp, by simp⟩

theorem OnceAfter.append_right (h : OnceAfter F C steps) (hrest : ∀ y ∈ rest, ¬F y ∧ ¬C y) :
    OnceAfter F C (steps ++ rest) := by
  obtain ⟨pre, x, post, rfl, hx, hother, hlate⟩ := h
  refine ⟨pre, x, post ++ rest, by simp, hx, fun y hy => ?_, fun y hy => ?_⟩
  · rw [← List.append_assoc] at hy
    rcases List.mem_append.mp hy with hy | hy
    · exact hother y hy
    · exact (hrest y hy).1
  · rcases List.mem_append.mp hy with hy | hy
    · exact hlate y hy
    · exact (hrest y hy).2

theorem OnceAfter.append_left (h : OnceAfter F C rest) (hsteps : ∀ y ∈ steps, ¬F y) :
    OnceAfter F C (steps ++ rest) := by
  obtain ⟨pre, x, post, rfl, hx, hother, hlate⟩ := h
  refine ⟨steps ++ pre, x, post, by simp, hx, fun y hy => ?_, hlate⟩
  rw [List.append_assoc] at hy
  rcases List.mem_append.mp hy with hy | hy
  · exact hsteps y hy
  · exact hother y hy

/-- A loop with the `F` in iteration `j`. -/
theorem onceAfter_loop {body : ℕ → List α} {n j : ℕ} (hj : j < n) (h : OnceAfter F C (body j))
    (hbefore : ∀ i < j, ∀ y ∈ body i, ¬F y) (hafter : ∀ i < n, j < i → ∀ y ∈ body i, ¬F y ∧ ¬C y) :
    OnceAfter F C ((List.range n).flatMap body) := by
  induction n with
  | zero => omega
  | succ n ih =>
      rw [List.range_succ, List.flatMap_append, List.flatMap_singleton]
      rcases Nat.lt_succ_iff_lt_or_eq.mp hj with hlt | rfl
      · exact (ih hlt fun i hi => hafter i (by omega)).append_right (hafter n (by omega) hlt)
      · refine h.append_left fun y hy => ?_
        obtain ⟨i, hi, hy⟩ := List.mem_flatMap.mp hy
        exact hbefore i (List.mem_range.mp hi) y hy

end

end Lib
