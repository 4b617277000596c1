import Mathlib.Data.List.TakeWhile
import Mathlib.Data.List.Sort

/-!
# `Lib.Groups` — loops over the groups of a sorted list

A list sorted by a key falls into groups of equal keys. `foldGroups` is the loop that handles one group
after the other; `foldGroups_slot` says what such a loop does when the group of a key only changes the slot
of that key: each slot is changed once, by the elements of the list that have its key.
-/

namespace Lib

section
variable {α κ σ τ : Type*} [DecidableEq κ]

/-- `while (i < size) { handle the group that starts at i; i += its length }`. `f` is given what is left of
    the list, from the group on. -/
def foldGroups (key : α → κ) (f : σ → List α → σ) (s : σ) : List α → σ
  | [] => s
  | x :: rest =>
      foldGroups key f (f s (x :: rest)) (rest.dropWhile fun y => key y = key x)
termination_by l => l.length
decreasing_by
  have := (List.dropWhile_sublist (l := rest) fun y => decide (key y = key x)).length_le
  rw [List.length_cons]
  omega

/-- What the handling of a group preserves, when all elements of the list have a property. -/
theorem foldGroups_inv {key : α → κ} {f : σ → List α → σ} {I : σ → Prop} {P : α → Prop}
    (hstep : ∀ s l, I s → (∀ x ∈ l, P x) → I (f s l)) {l : List α} (hl : ∀ x ∈ l, P x) {s : σ} (hs : I s) :
    I (foldGroups key f s l) := by
  induction hn : l.length using Nat.strong_induction_on generalizing l s with
  | _ n ih =>
      cases l with
      | nil =>
          rw [foldGroups]
          exact hs
      | cons x rest =>
          have hsub := List.dropWhile_sublist (l := rest) fun y => decide (key y = key x)
          have hshorter := hsub.length_le
          rw [List.length_cons] at hn
          rw [foldGroups]
          exact ih _ (by omega) (fun y hy => hl y (List.mem_cons_of_mem x (hsub.subset hy))) (hstep s _ hs hl) rfl

/-- In a sorted list the elements of the first key come first. -/
theorem takeWhile_eq_filter [LinearOrder κ] {key : α → κ} (k : κ) :
    ∀ {l : List α}, l.Pairwise (fun x y => key x ≤ key y) → (∀ x ∈ l, k ≤ key x) →
      l.takeWhile (fun y => key y = k) = l.filter fun y => key y = k
  | [], _, _ => rfl
  | x :: l, hsorted, hle => by
      obtain ⟨hx, hl⟩ := List.pairwise_cons.mp hsorted
      by_cases hkey : key x = k
      · rw [List.takeWhile_cons_of_pos (by simpa using hkey), List.filter_cons_of_pos (by simpa using hkey),
          takeWhile_eq_filter k hl fun y hy => hle y (List.mem_cons_of_mem x hy)]
      · have hlt : k < key x := lt_of_le_of_ne (hle x List.mem_cons_self) (Ne.symm hkey)
        rw [List.takeWhile_cons_of_neg (by simpa using hkey), List.filter_cons_of_neg (by simpa using hkey),
          List.filter_eq_nil_iff.mpr fun y hy => by
            have := hlt.trans_le (hx y hy)
            simpa using this.ne']

/-- What is left behind the first group has all elements that are none of the group's. -/
theorem filter_dropWhile_of_ne {key : α → κ} {k : κ} {q : α → Bool} (h : ∀ y, key y = k → q y = false)
    (l : List α) : (l.dropWhile fun y => key y = k).filter q = l.filter q := by
  induction l with
  | nil => rfl
  | cons x l ih =>
      by_cases hkey : key x = k
      · rw [List.dropWhile_cons_of_pos (by simpa using hkey), ih,
          List.filter_cons_of_neg (by simpa using h x hkey)]
      · rw [List.dropWhile_cons_of_neg (by simpa using hkey)]

/-- Behind the first group of a sorted list its key is not found again. -/
theorem filter_dropWhile_self [LinearOrder κ] {key : α → κ} (k : κ) :
    ∀ {l : List α}, l.Pairwise (fun x y => key x ≤ key y) → (∀ x ∈ l, k ≤ key x) →
      (l.dropWhile fun y => key y = k).filter (fun y => key y = k) = []
  | [], _, _ => rfl
  | x :: l, hsorted, hle => by
      obtain ⟨hx, hl⟩ := List.pairwise_cons.mp hsorted
      by_cases hkey : key x = k
      · rw [List.dropWhile_cons_of_pos (by simpa using hkey)]
        exact filter_dropWhile_self k hl fun y hy => hle y (List.mem_cons_of_mem x hy)
      · have hlt : k < key x := lt_of_le_of_ne (hle x List.mem_cons_self) (Ne.symm hkey)
        rw [List.dropWhile_cons_of_neg (by simpa using hkey), List.filter_eq_nil_iff]
        intro y hy
        rcases List.mem_cons.mp hy with rfl | hy
        · simpa using hlt.ne'
        · simpa using (hlt.trans_le (hx y hy)).ne'

/-- **One slot of a loop over groups.** Each key has a slot of its own, `pos key`. When the group of a key
    changes its slot by `g`, and no other slot, then the loop over a sorted list changes each slot that has a
    group by `g`, once. -/
theorem foldGroups_slot {ι : Type*} [DecidableEq ι] [LinearOrder κ] {key : α → κ} {f : σ → List α → σ}
    (pos : κ → ι) (hpos : Function.Injective pos) (slot : σ → ι → τ) (g : τ → List α → τ)
    (hown : ∀ s x rest, slot (f s (x :: rest)) (pos (key x)) =
      g (slot s (pos (key x))) (x :: rest.takeWhile fun y => key y = key x))
    (hother : ∀ s x rest i, i ≠ pos (key x) → slot (f s (x :: rest)) i = slot s i) (i : ι) (l : List α)
    (s : σ) (hsorted : l.Pairwise fun x y => key x ≤ key y) :
    slot (foldGroups key f s l) i =
      if (l.filter fun y => pos (key y) = i) = [] then slot s i
      else g (slot s i) (l.filter fun y => pos (key y) = i) := by
  induction hn : l.length using Nat.strong_induction_on generalizing l s with
  | _ n ih =>
      cases l with
      | nil =>
          rw [foldGroups]
          exact (if_pos rfl).symm
      | cons x rest =>
          obtain ⟨hx, hrest⟩ := List.pairwise_cons.mp hsorted
          have hsub := List.dropWhile_sublist (l := rest) fun y => decide (key y = key x)
          have hshorter := hsub.length_le
          rw [List.length_cons] at hn
          rw [foldGroups, ih _ (by omega) _ _ (hrest.sublist hsub) rfl]
          by_cases hi : i = pos (key x)
          · subst hi
            have hkey : (fun y => decide (pos (key y) = pos (key x))) = fun y => decide (key y = key x) :=
              funext fun y => decide_eq_decide.mpr hpos.eq_iff
            rw [hkey, filter_dropWhile_self _ hrest hx, if_pos rfl, hown, takeWhile_eq_filter _ hrest hx,
              List.filter_cons_of_pos (by simp), if_neg (List.cons_ne_nil _ _)]
          · have hne : ∀ y, key y = key x → decide (pos (key y) = i) = false := by
              intro y hy
              rw [hy]
              simpa using Ne.symm hi
            rw [filter_dropWhile_of_ne hne, hother s x rest i hi,
              List.filter_cons_of_neg (by simpa using Ne.symm hi)]

end

end Lib
