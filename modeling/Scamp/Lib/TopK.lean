import Mathlib.Data.Multiset.Sort
import Mathlib.Data.Finset.Max

/-!
# `Lib.TopK` — the `k` largest elements of a multiset

`topK k s` keeps the `k` largest elements of `s`, equal ones counted. Two multisets over a linear order are
equal when they have as many elements from every bound on (`ext_countGE`), and `topK k` cuts that number off
at `k` (`countGE_topK`), so that facts about top `k` lists are arithmetic about the counts.

A top `k` list may be computed from less than all elements. `Harmless k q c v` says when those of the pending
elements `c` that are at most `v` do not matter (`topK_add_filter_iff`), `Spare k q c v` that none could.
-/

namespace Lib

section
variable {α : Type*} [LinearOrder α]

/-! ## Counting from a bound on -/

/-- The number of elements that are at least `v`. -/
def countGE (s : Multiset α) (v : α) : ℕ := s.countP (v ≤ ·)

/-- The number of elements above `v`. -/
def countGT (s : Multiset α) (v : α) : ℕ := s.countP (v < ·)

@[simp] theorem countGE_zero (v : α) : countGE 0 v = 0 := Multiset.countP_zero _

@[simp] theorem countGE_add (s t : Multiset α) (v : α) :
    countGE (s + t) v = countGE s v + countGE t v := Multiset.countP_add _ _ _

@[simp] theorem countGT_add (s t : Multiset α) (v : α) :
    countGT (s + t) v = countGT s v + countGT t v := Multiset.countP_add _ _ _

theorem countGE_cons (x : α) (s : Multiset α) (v : α) :
    countGE (x ::ₘ s) v = countGE s v + if v ≤ x then 1 else 0 := Multiset.countP_cons _ _ _

theorem countGE_le_card (s : Multiset α) (v : α) : countGE s v ≤ s.card := Multiset.countP_le_card _ _

theorem countGT_of_le {s t : Multiset α} (h : s ≤ t) (v : α) : countGT s v ≤ countGT t v :=
  Multiset.countP_le_of_le _ h

omit [LinearOrder α] in
/-- Fewer elements meet the stronger condition. -/
theorem countP_mono {p q : α → Prop} [DecidablePred p] [DecidablePred q] (h : ∀ x, p x → q x)
    (s : Multiset α) : s.countP p ≤ s.countP q := by
  rw [Multiset.countP_eq_card_filter, Multiset.countP_eq_card_filter]
  exact Multiset.card_le_card (Multiset.monotone_filter_right s h)

theorem countGE_antitone (s : Multiset α) {v w : α} (h : v ≤ w) : countGE s w ≤ countGE s v :=
  countP_mono (fun _ hw => h.trans hw) s

theorem countGT_le_countGE (s : Multiset α) (v : α) : countGT s v ≤ countGE s v :=
  countP_mono (fun _ h => le_of_lt h) s

theorem countGE_of_forall_le {s : Multiset α} {v : α} (h : ∀ x ∈ s, v ≤ x) : countGE s v = s.card :=
  Multiset.countP_eq_card.mpr h

theorem countGE_of_forall_lt {s : Multiset α} {v : α} (h : ∀ x ∈ s, x < v) : countGE s v = 0 :=
  Multiset.countP_eq_zero.mpr fun x hx => not_le_of_gt (h x hx)

/-- The elements above `v`, counted from a bound on. -/
theorem countGE_filter_gt (s : Multiset α) (v w : α) :
    countGE (s.filter (v < ·)) w = if v < w then countGE s w else countGT s v := by
  unfold countGE countGT
  rw [Multiset.countP_filter]
  split
  · next hlt => exact Multiset.countP_congr rfl fun x _ => propext ⟨And.left, fun h => ⟨h, hlt.trans_le h⟩⟩
  · next hle =>
      exact Multiset.countP_congr rfl fun x _ =>
        propext ⟨And.right, fun h => ⟨(not_lt.mp hle).trans h.le, h⟩⟩

/-- A multiset is known from how many elements it has from each bound on. -/
theorem ext_countGE {s t : Multiset α} (h : ∀ v, countGE s v = countGE t v) : s = t := by
  have hcount : ∀ (s : Multiset α) (x : α), s.count x + countGT s x = countGE s x := by
    intro s x
    induction s using Multiset.induction_on with
    | empty => simp [countGT]
    | cons y s ih =>
        unfold countGT countGE at ih ⊢
        rw [Multiset.count_cons, Multiset.countP_cons, Multiset.countP_cons]
        rcases lt_trichotomy x y with hlt | rfl | hgt
        · simp only [hlt.ne, hlt, hlt.le, if_true, if_false]
          omega
        · simp only [lt_irrefl, le_refl, if_true, if_false]
          omega
        · simp only [hgt.ne', hgt.not_gt, hgt.not_ge, if_false]
          omega
  have habove : ∀ x, countGT s x = countGT t x := by
    intro x
    -- the least element above `x`, if there is one
    rcases ((s + t).filter (x < ·)).toFinset.eq_empty_or_nonempty with hnone | hsome
    · have hnil := Multiset.toFinset_eq_empty.mp hnone
      have hno : ∀ y ∈ s + t, ¬x < y := fun y hy hlt => by
        have := Multiset.mem_filter.mpr ⟨hy, hlt⟩
        rw [hnil] at this
        exact Multiset.notMem_zero _ this
      unfold countGT
      rw [Multiset.countP_eq_zero.mpr fun y hy => hno y (Multiset.mem_add.mpr (Or.inl hy)),
        Multiset.countP_eq_zero.mpr fun y hy => hno y (Multiset.mem_add.mpr (Or.inr hy))]
    · obtain ⟨y, hy, hleast⟩ := Finset.exists_min_image _ id hsome
      obtain ⟨_, hxy⟩ := Multiset.mem_filter.mp (Multiset.mem_toFinset.mp hy)
      have hstep : ∀ u : Multiset α, u ≤ s + t → countGT u x = countGE u y := by
        intro u hu
        refine Multiset.countP_congr rfl fun z hz => propext ⟨fun hlt => ?_, hxy.trans_le⟩
        exact hleast z (Multiset.mem_toFinset.mpr
          (Multiset.mem_filter.mpr ⟨Multiset.mem_of_le hu hz, hlt⟩))
      rw [hstep s (Multiset.le_add_right s t), hstep t (Multiset.le_add_left t s), h]
  ext x
  have hs := hcount s x
  have ht := hcount t x
  rw [habove, h] at hs
  omega

/-! ## The `k` largest elements -/

/-- The `k` largest elements. -/
def topK (k : ℕ) (s : Multiset α) : Multiset α := ((s.sort (fun a b => b ≤ a)).take k : List α)

theorem topK_le (k : ℕ) (s : Multiset α) : topK k s ≤ s := by
  conv_rhs => rw [← Multiset.sort_eq s (fun a b => b ≤ a)]
  exact Multiset.coe_le.mpr (List.take_sublist _ _).subperm

/-- The top `k` list has `k` elements, or all when there are fewer. -/
@[simp] theorem card_topK (k : ℕ) (s : Multiset α) : (topK k s).card = min k s.card := by
  unfold topK
  rw [Multiset.coe_card, List.length_take, Multiset.length_sort]

/-- The first `k` elements of a list that begins with its largest ones, counted. -/
theorem countGE_take {l : List α} (hsorted : l.Pairwise fun a b => b ≤ a) (k : ℕ) (v : α) :
    countGE (l.take k : Multiset α) v = min k (countGE (l : Multiset α) v) := by
  induction l generalizing k with
  | nil => simp
  | cons x l ih =>
      obtain ⟨hx, hl⟩ := List.pairwise_cons.mp hsorted
      cases k with
      | zero => simp
      | succ k =>
          rw [List.take_succ_cons, ← Multiset.cons_coe, ← Multiset.cons_coe, countGE_cons, countGE_cons,
            ih hl k]
          split
          · omega
          · next hlt =>
              have hnone : countGE (l : Multiset α) v = 0 :=
                countGE_of_forall_lt fun y hy => (hx y hy).trans_lt (not_le.mp hlt)
              omega

/-- **The counts of a top `k` list** are those of the multiset, cut off at `k`. -/
@[simp] theorem countGE_topK (k : ℕ) (s : Multiset α) (v : α) :
    countGE (topK k s) v = min k (countGE s v) := by
  have := countGE_take (Multiset.pairwise_sort s (fun a b => b ≤ a)) k v
  rwa [Multiset.sort_eq] at this

theorem eq_topK_iff {k : ℕ} {s t : Multiset α} :
    t = topK k s ↔ ∀ v, countGE t v = min k (countGE s v) := by
  constructor
  · rintro rfl v
    exact countGE_topK k s v
  · intro h
    exact ext_countGE fun v => by rw [h, countGE_topK]

/-- A list that begins with its largest elements begins with the top `k` list. -/
theorem coe_take_eq_topK {l : List α} (hsorted : l.Pairwise fun a b => b ≤ a) (k : ℕ) :
    (l.take k : Multiset α) = topK k l :=
  eq_topK_iff.mpr (countGE_take hsorted k)

@[simp] theorem topK_zero (k : ℕ) : topK k (0 : Multiset α) = 0 := (eq_topK_iff.mpr fun v => by simp).symm

/-- **Merging into a top `k` list** loses nothing. -/
theorem topK_topK_add (k : ℕ) (s t : Multiset α) : topK k (topK k s + t) = topK k (s + t) :=
  eq_topK_iff.mpr fun v => by
    simp only [countGE_topK, countGE_add]
    omega

/-! ## Elements that can be left out -/

/-- Leaving out the elements of `c` up to `v` is harmless: each of them finds `k` others, in the list `q` or
    among the elements of `c` that stay, that come before it. -/
def Harmless (k : ℕ) (q c : Multiset α) (v : α) : Prop := ∀ x ∈ c, x ≤ v → k ≤ countGE q x + countGT c v

/-- With the list `q` at or above `v`, and the pending elements `c` above it, there are `k` elements that
    make those of `c` up to `v` superfluous. -/
def Spare (k : ℕ) (q c : Multiset α) (v : α) : Prop := k ≤ countGE q v + countGT c v

theorem Spare.harmless {k : ℕ} {q c : Multiset α} {v : α} (h : Spare k q c v) : Harmless k q c v := by
  intro x _ hx
  have := countGE_antitone q hx
  unfold Spare at h
  omega

/-- Nothing is left out below all pending elements. -/
theorem harmless_of_forall_lt {k : ℕ} {q c : Multiset α} {v : α} (h : ∀ x ∈ c, v < x) : Harmless k q c v :=
  fun x hx hle => absurd (h x hx) (not_lt.mpr hle)

theorem Spare.mono {k : ℕ} {q c c' : Multiset α} {v : α} (h : Spare k q c v) (hc : c ≤ c') :
    Spare k q c' v := by
  have := countGT_of_le hc v
  unfold Spare at h ⊢
  omega

/-- **When elements may be left out.** The top `k` list stays the same exactly when leaving them out is
    harmless. -/
theorem topK_add_filter_iff {k : ℕ} {q c : Multiset α} {v : α} :
    topK k (q + c.filter (v < ·)) = topK k (q + c) ↔ Harmless k q c v := by
  have hcounts : topK k (q + c.filter (v < ·)) = topK k (q + c) ↔
      ∀ w, min k (countGE q w + if v < w then countGE c w else countGT c v) =
        min k (countGE q w + countGE c w) := by
    rw [eq_topK_iff]
    simp only [countGE_topK, countGE_add, countGE_filter_gt]
  rw [hcounts]
  constructor
  · intro h x hx hle
    have hx' := h x
    rw [if_neg (not_lt.mpr hle)] at hx'
    have hmore : countGT c v < countGE c x := by
      have hsplit : countGE (c.filter (v < ·)) x = countGT c v := by
        rw [countGE_filter_gt, if_neg (not_lt.mpr hle)]
      have hrest : 0 < countGE (c.filter fun y => ¬v < y) x :=
        Multiset.countP_pos.mpr ⟨x, Multiset.mem_filter.mpr ⟨hx, not_lt.mpr hle⟩, le_refl x⟩
      have hwhole := congrArg (countGE · x) (Multiset.filter_add_not (v < ·) c)
      simp only [countGE_add] at hwhole
      omega
    omega
  · intro h w
    split
    · rfl
    · next hle =>
        have hle := not_lt.mp hle
        by_cases hleft : ∃ x ∈ c, w ≤ x ∧ x ≤ v
        · obtain ⟨x, hx, hwx, hxv⟩ := hleft
          have hk := h x hx hxv
          have h1 := countGE_antitone q hwx
          have h2 := countGE_antitone c hle
          have h3 := countGT_le_countGE c v
          omega
        · have hsame : countGE c w = countGT c v :=
            Multiset.countP_congr rfl fun x hx => propext
              ⟨fun hwx => not_le.mp fun hxv => hleft ⟨x, hx, hwx, hxv⟩, fun hvx => hle.trans hvx.le⟩
          rw [hsame]

/-- What stays spare when the pending elements above `v` have been merged. -/
theorem spare_topK {k : ℕ} {q c : Multiset α} {v : α} (h : Spare k q c v) :
    k ≤ countGE (topK k (q + c)) v := by
  have := countGT_le_countGE c v
  unfold Spare at h
  rw [countGE_topK, countGE_add]
  omega

/-! ## Replacing the least element -/

/-- A list that is full stays the top `k` list when a larger element takes the place of its least one. -/
theorem topK_cons_of_full {k : ℕ} {x y : α} {q : Multiset α} (hfull : (x ::ₘ q).card = k)
    (hleast : ∀ z ∈ q, x ≤ z) (hlt : x < y) : y ::ₘ q = topK k (y ::ₘ x ::ₘ q) := by
  refine eq_topK_iff.mpr fun v => ?_
  have hcard := countGE_le_card q v
  rw [Multiset.card_cons] at hfull
  rw [countGE_cons y (x ::ₘ q), countGE_cons x, countGE_cons y]
  by_cases hv : v ≤ x
  · have hall : countGE q v = q.card := countGE_of_forall_le fun z hz => hv.trans (hleast z hz)
    rw [if_pos hv, if_pos (hv.trans hlt.le)]
    omega
  · rw [if_neg hv]
    split <;> omega

/-- Elements up to the least one of a full list change nothing. -/
theorem topK_add_of_full {k : ℕ} {x : α} {q c : Multiset α} (hfull : q.card = k) (hleast : ∀ z ∈ q, x ≤ z)
    (hc : ∀ y ∈ c, y ≤ x) : q = topK k (q + c) := by
  refine eq_topK_iff.mpr fun v => ?_
  have hcard := countGE_le_card q v
  rw [countGE_add]
  by_cases hv : v ≤ x
  · have hall : countGE q v = q.card := countGE_of_forall_le fun z hz => hv.trans (hleast z hz)
    omega
  · have hnone : countGE c v = 0 := countGE_of_forall_lt fun y hy => (hc y hy).trans_lt (not_le.mp hv)
    omega

/-- A list that is not full takes everything. -/
theorem topK_of_card_le {k : ℕ} {s : Multiset α} (h : s.card ≤ k) : s = topK k s :=
  eq_topK_iff.mpr fun v => (min_eq_right ((countGE_le_card s v).trans h)).symm

end

end Lib
