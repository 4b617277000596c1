import Mathlib.Data.List.MinMax
import Mathlib.Order.BoundedOrder.Basic

/-!
# `Lib.FirstLeast` — the first least element of a list

A loop that replaces its best element by every strictly better one ends with the first least element, which is
`List.argmin` of the elements that are better than the one it starts with (`foldl_better`). The comparison need
not be an order: it has to agree with one wherever the best element can be.

Nothing here depends on what is compared.
-/

namespace Lib

variable {α β γ δ : Type*}

section
variable [LinearOrder γ] [LinearOrder δ]

/-- Values that order the elements of a list alike have the same first least element. -/
theorem argmin_congr {f : α → γ} {g : α → δ} {l : List α} (h : ∀ a ∈ l, ∀ b ∈ l, (f a < f b ↔ g a < g b)) :
    l.argmin f = l.argmin g := by
  induction l with
  | nil => rfl
  | cons a l ih =>
      rw [List.argmin_cons, List.argmin_cons, ih fun b hb c hc => h b (List.mem_cons_of_mem _ hb) c
        (List.mem_cons_of_mem _ hc)]
      cases hg : l.argmin g with
      | none => rfl
      | some c =>
          have hlt := h c (List.mem_cons_of_mem _ (List.argmin_mem hg)) a List.mem_cons_self
          simp only [hlt]

/-- The first element with the least value there is. -/
theorem argmin_of_find? [OrderBot γ] {f : α → γ} {p : α → Bool} (hp : ∀ a, p a = true ↔ f a = ⊥) {l : List α} {c : α}
    (h : l.find? p = some c) : l.argmin f = some c := by
  induction l with
  | nil => cases h
  | cons a l ih =>
      rw [List.find?_cons] at h
      rw [List.argmin_cons]
      cases hpa : p a with
      | true =>
          rw [hpa] at h
          cases h
          cases l.argmin f with
          | none => rfl
          | some c' => exact if_neg (by rw [(hp c).mp hpa]; exact not_lt_bot)
      | false =>
          rw [hpa] at h
          rw [ih h]
          have hbot : f c = ⊥ := (hp c).mp (List.find?_some h)
          have hne : f a ≠ ⊥ := fun hbot => by
            rw [(hp a).mpr hbot] at hpa
            exact Bool.noConfusion hpa
          exact if_pos (by rw [hbot]; exact bot_lt_iff_ne_bot.mpr hne)

end

variable [LinearOrder γ] [OrderTop γ]

/-- **A loop that keeps the best element so far** ends with the first least one, or with the one it starts with
    when none is below the top. -/
theorem foldl_better {better : β → β → Bool} {rank : β → γ} {value : α → β} {start : β} {d : α}
    (hstart : ∀ x, better x start = true ↔ rank x < ⊤)
    (hbetter : ∀ x y, rank y < ⊤ → (better x y = true ↔ rank x < rank y)) (l : List α) :
    l.foldl (fun best a => if better (value a) best.1 then (value a, a) else best) (start, d) =
      match (l.filter fun a => rank (value a) < ⊤).argmin (fun a => rank (value a)) with
      | none => (start, d)
      | some a => (value a, a) := by
  induction l using List.reverseRecOn with
  | nil => rfl
  | append_singleton l a ih =>
      rw [List.foldl_append, ih, List.filter_append]
      simp only [List.foldl_cons, List.foldl_nil]
      by_cases ha : rank (value a) < ⊤
      · rw [List.filter_cons_of_pos (by simpa using ha), List.filter_nil, List.argmin_concat]
        cases hbest : (l.filter fun a => rank (value a) < ⊤).argmin (fun a => rank (value a)) with
        | none => exact if_pos ((hstart _).mpr ha)
        | some c =>
            have hc : rank (value c) < ⊤ := by simpa using (List.mem_filter.mp (List.argmin_mem hbest)).2
            dsimp only
            by_cases hlt : rank (value a) < rank (value c)
            · rw [if_pos ((hbetter _ _ hc).mpr hlt), if_pos hlt]
            · rw [if_neg fun h => hlt ((hbetter _ _ hc).mp h), if_neg hlt]
      · rw [List.filter_cons_of_neg (by simpa using ha), List.filter_nil, List.append_nil]
        cases hbest : (l.filter fun a => rank (value a) < ⊤).argmin (fun a => rank (value a)) with
        | none => exact if_neg fun h => ha ((hstart _).mp h)
        | some c =>
            have hc : rank (value c) < ⊤ := by simpa using (List.mem_filter.mp (List.argmin_mem hbest)).2
            exact if_neg fun h => ha (((hbetter _ _ hc).mp h).trans hc)

end Lib
