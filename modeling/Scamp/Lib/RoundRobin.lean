import Mathlib.Data.List.Rotate

/-!
# `Lib.RoundRobin` — taking turns around a queue

Members wait in a queue. A turn goes to the first member that is ready; it and those passed over go to the
end of the queue, in their order. A member that is ready at every turn moves towards the front until it has
its turn, however the others behave.

Nothing here depends on what the members are.

## Contents
- **One turn.** `Turn`, and the rotation it makes (`Turn.rotate`).
- **Fairness.** `turn_advances`, `fair_of_ready`, and `everyone_once` when all are always ready.
-/

namespace Lib

variable {α : Type*} {ready : α → Prop} {q q' : List α} {r : Option α}

/-! ## One turn -/

/-- A turn around the queue: who has it, and the queue afterwards. -/
inductive Turn (ready : α → Prop) : List α → Option α → List α → Prop
  | found (pre : List α) (x : α) (post : List α) (hpre : ∀ y ∈ pre, ¬ready y) (hx : ready x) :
      Turn ready (pre ++ x :: post) (some x) (post ++ (pre ++ [x]))
  | idle (q : List α) (hq : ∀ y ∈ q, ¬ready y) : Turn ready q none q

/-- A turn rotates the queue. -/
theorem Turn.rotate (h : Turn ready q r q') : ∃ n ≤ q.length, q' = q.rotate n := by
  cases h with
  | found pre x post _ _ =>
      refine ⟨(pre ++ [x]).length, by simp, ?_⟩
      rw [List.append_cons pre x post, List.rotate_append_length_eq]
  | idle _ _ => exact ⟨0, Nat.zero_le _, (List.rotate_zero q).symm⟩

theorem Turn.length_eq (h : Turn ready q r q') : q'.length = q.length := by
  obtain ⟨n, -, rfl⟩ := h.rotate
  exact List.length_rotate q n

/-! ## Fairness -/

/-- **A ready member advances.** At each turn that is not its own, someone in front of it goes behind it. -/
theorem turn_advances {pre post : List α} {x : α} (h : Turn ready q r q') (hq : q = pre ++ x :: post)
    (hx : ready x) :
    r = some x ∨ ∃ pre' post', q' = pre' ++ x :: post' ∧ pre'.length < pre.length := by
  cases h with
  | idle _ hidle => exact absurd hx (hidle x (by simp [hq]))
  | found passed y rest hpassed _ =>
      rcases List.append_eq_append_iff.mp hq with ⟨mid, hpre, hrest⟩ | ⟨mid, hpassedEq, hrest⟩
      · cases mid with
        | nil =>
            rw [List.nil_append, List.cons.injEq] at hrest
            exact Or.inl (congrArg some hrest.1)
        | cons z mid =>
            -- the member that has the turn was in front of `x`
            obtain ⟨rfl, hpost⟩ := List.cons.inj hrest
            refine Or.inr ⟨mid, post ++ (passed ++ [y]), ?_, ?_⟩
            · rw [hpost]
              exact List.append_assoc mid (x :: post) (passed ++ [y])
            · rw [hpre, List.length_append, List.length_cons]
              omega
      · cases mid with
        | nil =>
            rw [List.nil_append, List.cons.injEq] at hrest
            exact Or.inl (congrArg some hrest.1.symm)
        | cons z mid =>
            obtain ⟨rfl, -⟩ := List.cons.inj hrest
            exact absurd hx (hpassed x (by simp [hpassedEq]))

/-- The turns of a queue, one after the other. -/
def Turns (ready : ℕ → α → Prop) (q : ℕ → List α) (r : ℕ → Option α) : Prop :=
  ∀ n, Turn (ready n) (q n) (r n) (q (n + 1))

variable {ready : ℕ → α → Prop} {q : ℕ → List α} {r : ℕ → Option α}

/-- The queue keeps its members, in their cyclic order. -/
theorem Turns.rotate (h : Turns ready q r) (n : ℕ) : ∃ m, q n = (q 0).rotate m := by
  induction n with
  | zero => exact ⟨0, (List.rotate_zero _).symm⟩
  | succ n ih =>
      obtain ⟨m, hm⟩ := ih
      obtain ⟨k, -, hk⟩ := (h n).rotate
      exact ⟨m + k, by rw [hk, hm, List.rotate_rotate]⟩

/-- A member with `d` others in front of it that is ready at the next `d + 1` turns has one of them. -/
theorem turn_within (h : Turns ready q r) {x : α} (d : ℕ) :
    ∀ n pre post, (∀ j ≤ d, ready (n + j) x) → q n = pre ++ x :: post → pre.length ≤ d →
      ∃ j ≤ d, r (n + j) = some x := by
  induction d with
  | zero =>
      intro n pre post hx hq hlen
      rcases turn_advances (h n) hq (hx 0 (Nat.le_refl 0)) with hr | ⟨pre', _, _, hlt⟩
      · exact ⟨0, Nat.le_refl 0, hr⟩
      · omega
  | succ d ih =>
      intro n pre post hx hq hlen
      have hlater : ∀ j ≤ d, ready (n + 1 + j) x := by
        intro j hj
        rw [show n + 1 + j = n + (j + 1) by omega]
        exact hx (j + 1) (by omega)
      rcases turn_advances (h n) hq (hx 0 (Nat.zero_le _)) with hr | ⟨pre', post', hq', hlt⟩
      · exact ⟨0, Nat.zero_le _, hr⟩
      · obtain ⟨j, hj, hr⟩ := ih (n + 1) pre' post' hlater hq' (by omega)
        exact ⟨j + 1, by omega, by rwa [show n + (j + 1) = n + 1 + j by omega]⟩

/-- **Fairness.** A member that is ready throughout a window as long as the queue has a turn in it. -/
theorem fair_of_ready (h : Turns ready q r) {x : α} (n : ℕ) (hx : ∀ j < (q n).length, ready (n + j) x)
    (hmem : x ∈ q n) : ∃ j < (q n).length, r (n + j) = some x := by
  obtain ⟨pre, post, hq⟩ := List.append_of_mem hmem
  have hlen : pre.length < (q n).length := by
    rw [hq, List.length_append, List.length_cons]
    omega
  obtain ⟨j, hj, hr⟩ := turn_within h pre.length n pre post (fun j hj => hx j (by omega)) hq (Nat.le_refl _)
  exact ⟨j, by omega, hr⟩

/-- While every member is ready, the turns go down the queue. -/
theorem turns_of_all_ready (h : Turns ready q r) (front : List α) :
    ∀ n rest, (∀ j < front.length, ∀ x ∈ q (n + j), ready (n + j) x) → q n = front ++ rest →
      (List.range front.length).map (fun j => r (n + j)) = front.map some := by
  induction front with
  | nil =>
      intro n rest _ _
      rfl
  | cons x front ih =>
      intro n rest hall hq
      have hx : ready n x := hall 0 (Nat.succ_pos _) x (by simp [hq])
      -- the first in the queue has the turn
      have hturn : r n = some x ∧ q (n + 1) = front ++ (rest ++ [x]) := by
        have hstep := h n
        rw [hq] at hstep
        generalize hc : x :: front ++ rest = c at hstep
        generalize r n = r1 at hstep ⊢
        generalize q (n + 1) = q1 at hstep ⊢
        cases hstep with
        | idle _ hidle => exact absurd hx (hidle x (by simp [← hc]))
        | found passed y rest' hpassed hy =>
            cases passed with
            | nil =>
                obtain ⟨rfl, hrest⟩ := List.cons.inj hc
                exact ⟨rfl, by rw [← hrest]; simp⟩
            | cons z passed =>
                obtain ⟨rfl, -⟩ := List.cons.inj hc
                exact absurd hx (hpassed x List.mem_cons_self)
      have hlater : ∀ j < front.length, ∀ y ∈ q (n + 1 + j), ready (n + 1 + j) y := by
        intro j hj
        rw [show n + 1 + j = n + (j + 1) by omega]
        exact hall (j + 1) (Nat.succ_lt_succ hj)
      have htail := ih (n + 1) (rest ++ [x]) hlater hturn.2
      rw [List.length_cons, List.range_succ_eq_map, List.map_cons, List.map_map, List.map_cons]
      refine congrArg₂ List.cons hturn.1 ?_
      rw [← htail]
      exact List.map_congr_left fun j _ => by
        show r (n + (j + 1)) = r (n + 1 + j)
        rw [show n + (j + 1) = n + 1 + j by omega]

/-- **One turn each.** When all are ready throughout a window as long as the queue, its turns go to each of
    them, in the order of the queue. -/
theorem everyone_once (h : Turns ready q r) (n : ℕ)
    (hall : ∀ j < (q n).length, ∀ x ∈ q (n + j), ready (n + j) x) :
    (List.range (q n).length).map (fun j => r (n + j)) = (q n).map some :=
  turns_of_all_ready h (q n) n [] hall (List.append_nil _).symm

end Lib
