import Mathlib.Data.Fintype.Card
import Mathlib.Data.List.Nodup
import Mathlib.Order.Basic

/-!
# `Lib.Versions` — a cell whose value only rises

The words a cell has held, the latest first (`Rising`). As each has a larger value than the one before, no
word comes back: a compare-and-swap that expects a word of the history succeeds exactly when it is the
latest one, and how far a word is behind is its position in the history. What the cell holds in the end is
what the writes leave one after the other (`Rising.exists_order`).
-/

namespace Lib

variable {ω ν : Type*} [LinearOrder ν] {val : ω → ν} {history : List ω} {e w : ω}

/-- Each word has a larger value than those before it. -/
def Rising (val : ω → ν) (history : List ω) : Prop := history.Pairwise fun newer older => val older < val newer

theorem rising_one (val : ω → ν) (e : ω) : Rising val [e] := List.pairwise_singleton _ e

theorem Rising.le_head (h : Rising val (e :: history)) (hw : w ∈ e :: history) : val w ≤ val e := by
  rcases List.mem_cons.mp hw with rfl | hw
  · exact le_rfl
  · exact (List.rel_of_pairwise_cons h hw).le

/-- **A new word** with a larger value than the latest one. -/
theorem Rising.push (h : Rising val (e :: history)) (hlt : val e < val w) : Rising val (w :: e :: history) :=
  List.pairwise_cons.mpr ⟨fun _ hold => (h.le_head hold).trans_lt hlt, h⟩

theorem Rising.notMem (h : Rising val (e :: history)) (hlt : val e < val w) : w ∉ e :: history :=
  fun hw => absurd hlt (not_lt.mpr (h.le_head hw))

theorem Rising.nodup (h : Rising val history) : history.Nodup :=
  h.imp fun hlt => fun heq => absurd (heq ▸ hlt) (lt_irrefl _)

/-- A history of words that are the initial one or one of finitely many is short. -/
theorem Rising.length_le {ι : Type*} [Fintype ι] {init : ω} {word : ι → ω} (h : Rising val history)
    (hfrom : ∀ w ∈ history, w = init ∨ ∃ i, w = word i) : history.length ≤ Fintype.card ι + 1 := by
  classical
  calc history.length = history.toFinset.card := (List.toFinset_card_of_nodup h.nodup).symm
    _ ≤ (insert init (Finset.univ.image word)).card := by
        refine Finset.card_le_card fun w hw => ?_
        rcases hfrom w (List.mem_toFinset.mp hw) with rfl | ⟨i, rfl⟩
        · exact Finset.mem_insert_self _ _
        · exact Finset.mem_insert_of_mem (Finset.mem_image_of_mem word (Finset.mem_univ i))
    _ ≤ (Finset.univ.image word).card + 1 := Finset.card_insert_le _ _
    _ ≤ Fintype.card ι + 1 := Nat.add_le_add_right Finset.card_image_le 1

/-! ## One after the other -/

/-- A word replaces one with a smaller value. -/
def raise (val : ω → ν) (e w : ω) : ω := if val e < val w then w else e

theorem raise_of_lt (h : val e < val w) : raise val e w = w := if_pos h

theorem raise_of_le (h : val w ≤ val e) : raise val e w = e := if_neg (not_lt.mpr h)

/-- The words of a history, from the first one on, replace each other. -/
theorem Rising.foldr_raise {init : ω} {later : List ω} (h : Rising val (later ++ [init])) :
    (later ++ [init]).head? = some (later.foldr (fun w e => raise val e w) init) := by
  induction later with
  | nil => rfl
  | cons w later ih =>
      obtain ⟨hw, hlater⟩ := List.pairwise_cons.mp h
      have hhead := ih hlater
      have hlt := hw _ (List.mem_of_mem_head? hhead)
      rw [List.foldr_cons, raise_of_lt hlt]
      rfl

/-- The words after the first are written by different ones. -/
theorem Rising.exists_writers {ι : Type*} {init : ω} {word : ι → ω} {later : List ω}
    (h : Rising val (later ++ [init])) (hfrom : ∀ w ∈ later, w = init ∨ ∃ i, w = word i) :
    ∃ writers : List ι, writers.Nodup ∧ writers.map word = later := by
  have hnodup := h.nodup
  have hrange : ∀ w ∈ later, w ∈ Set.range word := by
    intro w hw
    rcases hfrom w hw with rfl | ⟨i, rfl⟩
    · exact absurd rfl ((List.nodup_append.mp hnodup).2.2 w hw w List.mem_cons_self)
    · exact ⟨i, rfl⟩
  obtain ⟨writers, rfl⟩ : later ∈ Set.range (List.map word) := by
    rw [Set.range_list_map]
    exact hrange
  exact ⟨writers, (List.nodup_append.mp hnodup).1.of_map word, rfl⟩

/-- **The latest word** is that of all writes, one after the other in some order, when none of them has a
    larger value. -/
theorem Rising.exists_order {ι : Type*} [Fintype ι] {init : ω} {word : ι → ω} {later : List ω}
    (h : Rising val (later ++ [init])) (hfrom : ∀ w ∈ later, w = init ∨ ∃ i, w = word i)
    (hlatest : (later ++ [init]).head? = some e) (hall : ∀ i, val (word i) ≤ val e) :
    ∃ order : List ι, order.Nodup ∧ (∀ i, i ∈ order) ∧ order.foldl (fun e i => raise val e (word i)) init = e := by
  classical
  obtain ⟨writers, hnodup, rfl⟩ := h.exists_writers hfrom
  have hwriters : writers.reverse.foldl (fun e i => raise val e (word i)) init = e := by
    have hhead := h.foldr_raise
    rw [hlatest, List.foldr_map] at hhead
    rw [List.foldl_reverse]
    exact (Option.some.inj hhead).symm
  -- the others come too late to change anything
  have hothers : ∀ others : List ι, others.foldl (fun e i => raise val e (word i)) e = e := by
    intro others
    induction others with
    | nil => rfl
    | cons i others ih =>
        rw [List.foldl_cons, raise_of_le (hall i)]
        exact ih
  refine ⟨writers.reverse ++ (Finset.univ.filter (· ∉ writers)).toList, ?_, fun i => ?_, ?_⟩
  · refine List.nodup_append.mpr ⟨List.nodup_reverse.mpr hnodup, Finset.nodup_toList _, ?_⟩
    rintro i hi j hj rfl
    exact (Finset.mem_filter.mp (Finset.mem_toList.mp hj)).2 (List.mem_reverse.mp hi)
  · by_cases hi : i ∈ writers
    · exact List.mem_append_left _ (List.mem_reverse.mpr hi)
    · exact List.mem_append_right _ (Finset.mem_toList.mpr (Finset.mem_filter.mpr ⟨Finset.mem_univ i, hi⟩))
  · rw [List.foldl_append, hwriters, hothers]

/-! ## Words behind the latest -/

section
variable [DecidableEq ω]

/-- A word of the history that is not the latest one is behind. -/
theorem idxOf_pos (hne : w ≠ e) : 0 < (e :: history).idxOf w := by
  rw [List.idxOf_cons_ne _ (Ne.symm hne)]
  exact Nat.succ_pos _

/-- A new word leaves every other word one further behind. -/
theorem idxOf_push (hne : e ≠ w) : (w :: history).idxOf e = history.idxOf e + 1 :=
  List.idxOf_cons_ne _ (Ne.symm hne)

end

end Lib
