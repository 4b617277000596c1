import Scamp.Gpu.SlidingWindow
import Scamp.Core.Correctness.Absorption

/-!
# `Gpu.Correctness.Registers` — merging into registers first, or into shared memory at once

`do_iteration_fast` merges the correlations of a column, or of a row, into a register that starts at `-2`,
and takes the register to shared memory at the end; `do_row_edge` merges those of a column into shared memory
one by one, and those of a row only when they are above `-2`. What both leave is told by `Best`, and the two
agree exactly when the `-2` of the register does not get in the way (`indexColumn_agrees_iff`,
`valueColumn_agrees_iff`, `indexRow_agrees_iff`, `valueRow_agrees`).
-/

namespace Scamp

open SlidingWindow

section
variable {K : Type} [Field K] [LinearOrder K]

/-! ## Offers -/

/-- The numbers among correlations that are offered together with the positions of their matches. -/
def numbers (offers : List (Dbl K × ℕ)) : Block K :=
  offers.filterMap fun o => match o.1 with
    | .num v => some ⟨v, o.2⟩
    | .nan => none

omit [Field K] [LinearOrder K] in
@[simp] theorem numbers_nil : numbers ([] : List (Dbl K × ℕ)) = [] := rfl

omit [Field K] [LinearOrder K] in
@[simp] theorem numbers_num (v : K) (n : ℕ) (offers : List (Dbl K × ℕ)) :
    numbers ((.num v, n) :: offers) = ⟨v, n⟩ :: numbers offers := rfl

omit [Field K] [LinearOrder K] in
@[simp] theorem numbers_nan (n : ℕ) (offers : List (Dbl K × ℕ)) :
    numbers ((.nan, n) :: offers) = numbers offers := rfl

omit [Field K] [LinearOrder K] in
theorem mem_numbers {offers : List (Dbl K × ℕ)} {h : Hit K} :
    h ∈ numbers offers ↔ (.num h.corr, h.pos) ∈ offers := by
  induction offers with
  | nil => simp
  | cons o offers ih =>
      obtain ⟨d, n⟩ := o
      cases d with
      | num v =>
          rw [numbers_num, List.mem_cons, List.mem_cons, ih, Prod.mk.injEq, Dbl.num.injEq]
          constructor
          · rintro (rfl | hmem)
            · exact Or.inl ⟨rfl, rfl⟩
            · exact Or.inr hmem
          · rintro (⟨rfl, rfl⟩ | hmem)
            · exact Or.inl rfl
            · exact Or.inr hmem
      | nan =>
          rw [numbers_nan, ih, List.mem_cons]
          simp

omit [Field K] in
/-- How hits are grouped into blocks does not matter. -/
theorem best_regroup {keeps : Bool} {e e' : MpEntry K} {bs bs' : Multiset (Block K)}
    (hsame : ∀ h : Hit K, (∃ b ∈ bs, h ∈ b) ↔ ∃ b ∈ bs', h ∈ b) (hbest : Best keeps e bs e') :
    Best keeps e bs' e' := by
  intro v hv
  obtain ⟨v', hv', hle, hdom, hatt⟩ := hbest v hv
  refine ⟨v', hv', hle, ?_, ?_⟩
  · intro b hb h hh
    obtain ⟨b', hb', hh'⟩ := (hsame h).mpr ⟨b, hb, hh⟩
    exact hdom b' hb' h hh'
  · rcases hatt with rfl | ⟨b, hb, h, hh, hrest⟩
    · exact Or.inl rfl
    · obtain ⟨b', hb', hh'⟩ := (hsame h).mp ⟨b, hb, hh⟩
      exact Or.inr ⟨b', hb', h, hh', hrest⟩

omit [Field K] in
/-- **Offers merged one by one**: a merge that takes in a number and ignores a NaN. -/
theorem best_foldl {keeps : Bool} {f : MpEntry K → Dbl K × ℕ → MpEntry K}
    (hnum : ∀ e v n, Best keeps e {[⟨v, n⟩]} (f e (.num v, n))) (hnan : ∀ e n, f e (.nan, n) = e)
    (offers : List (Dbl K × ℕ)) (e : MpEntry K) : Best keeps e {numbers offers} (offers.foldl f e) := by
  induction offers generalizing e with
  | nil => exact best_regroup (by simp) (best_refl keeps e)
  | cons o offers ih =>
      obtain ⟨d, n⟩ := o
      rw [List.foldl_cons]
      cases d with
      | num v =>
          refine best_regroup (fun h => ?_) (best_trans (hnum e v n) (ih _))
          simp
      | nan =>
          rw [hnan]
          exact ih e

omit [Field K] [LinearOrder K] in
/-- An entry that is NaN stays as it is. -/
theorem foldl_nan {f : MpEntry K → Dbl K × ℕ → MpEntry K} (hstay : ∀ e o, e.value = .nan → f e o = e)
    (offers : List (Dbl K × ℕ)) {e : MpEntry K} (he : e.value = .nan) : offers.foldl f e = e := by
  induction offers with
  | nil => rfl
  | cons o offers ih => rw [List.foldl_cons, hstay e o he, ih]

/-! ## Best-so-far values over hits -/

omit [Field K] in
/-- `Best` for one block of hits, from a number on. -/
theorem best_hits {keeps : Bool} {e e' : MpEntry K} {hits : Block K} (hbest : Best keeps e {hits} e') {v : K}
    (hv : e.value = .num v) : ∃ v', e'.value = .num v' ∧ v ≤ v' ∧ (∀ h ∈ hits, h.corr ≤ v') ∧
      (e' = e ∨ ∃ h ∈ hits, v < h.corr ∧ v' = h.corr ∧ (keeps = true → e'.index = UInt32.ofNat h.pos)) := by
  obtain ⟨v', hv', hle, hdom, hatt⟩ := hbest v hv
  refine ⟨v', hv', hle, hdom hits (Multiset.mem_singleton_self hits), ?_⟩
  rcases hatt with rfl | ⟨b, hb, h, hh, hrest⟩
  · exact Or.inl rfl
  · rw [Multiset.mem_singleton.mp hb] at hh
    exact Or.inr ⟨h, hh, hrest⟩

/-- The entry is not below the `-2` the registers start from; a NaN is not. -/
def NotBelowInit (e : MpEntry K) : Prop := (Dbl.num (-2)).gt e.value = false

theorem notBelowInit_nan {e : MpEntry K} (he : e.value = .nan) : NotBelowInit e := by
  unfold NotBelowInit
  rw [he]
  rfl

theorem notBelowInit_num {e : MpEntry K} {s : K} (he : e.value = .num s) : NotBelowInit e ↔ -2 ≤ s := by
  unfold NotBelowInit
  rw [he, Dbl.gt_num, decide_eq_false_iff_not, not_lt]

/-- An entry a call may leave: the one it found, or one that holds a hit with its position. -/
def Attained (hits : Block K) (stored e : MpEntry K) : Prop :=
  e = stored ∨ ∃ h ∈ hits, e.value = .num h.corr ∧ e.index = UInt32.ofNat h.pos

/-! ## A register against shared memory -/

section
variable {hits : Block K} {stored reg edge : MpEntry K} {g : UInt32}

/-- What is left of a register that starts from `-2` and the index `g`. -/
theorem register_cases {keeps : Bool} (hreg : Best keeps ⟨.num (-2), g⟩ {hits} reg) :
    ∃ v, reg.value = .num v ∧ -2 ≤ v ∧ (∀ h ∈ hits, h.corr ≤ v) ∧
      (v = -2 ∧ reg = ⟨.num (-2), g⟩ ∨
        ∃ h ∈ hits, -2 < v ∧ v = h.corr ∧ (keeps = true → reg.index = UInt32.ofNat h.pos)) := by
  obtain ⟨v, hv, hle, hdom, hatt⟩ := best_hits hreg rfl
  refine ⟨v, hv, hle, hdom, ?_⟩
  rcases hatt with rfl | ⟨h, hh, hlt, heq, hidx⟩
  · exact Or.inl ⟨(Dbl.num.inj hv).symm, rfl⟩
  · exact Or.inr ⟨h, hh, heq ▸ hlt, heq, hidx⟩

omit [Field K] in
/-- Both ways of merging end with the same value when the register holds a hit, or is no better than the
    entry. -/
theorem edge_value_eq {keeps : Bool} {v s : K} (hs : stored.value = .num s)
    (hedge : Best keeps stored {hits} edge) (hdom : ∀ h ∈ hits, h.corr ≤ v)
    (hv : v ≤ s ∨ ∃ h ∈ hits, v = h.corr) : edge.value = .num (max s v) := by
  obtain ⟨w, hw, hle, hdom', hatt⟩ := best_hits hedge hs
  rw [hw]
  congr 1
  apply le_antisymm
  · rcases hatt with rfl | ⟨h, hh, _, rfl, _⟩
    · rw [Dbl.num.inj (hw.symm.trans hs)]
      exact le_max_left s v
    · exact (hdom h hh).trans (le_max_right s v)
  · refine max_le hle ?_
    rcases hv with hv | ⟨h, hh, rfl⟩
    · exact hv.trans hle
    · exact hdom' h hh

omit [Field K] in
/-- A register that is taken to an entry replaces it exactly when it is better. -/
theorem flushed_num {v s : K} (hs : stored.value = .num s) (hv : reg.value = .num v) :
    mpAtomicMaxCheck stored reg.value reg.index (.num s) = if s < v then reg else stored := by
  unfold mpAtomicMaxCheck mpAtomicMax
  rw [hs, hv, Dbl.gt_num]
  by_cases hlt : s < v
  · rw [if_pos hlt, if_pos (decide_eq_true hlt), if_pos (decide_eq_true hlt), ← hv]
  · rw [if_neg hlt, if_neg (by simpa using hlt)]

omit [Field K] in
theorem flushed_nan {v : K} {check : Dbl K} (hs : stored.value = .nan) (hv : reg.value = .num v) :
    mpAtomicMaxCheck stored reg.value reg.index check = stored := by
  unfold mpAtomicMaxCheck mpAtomicMax
  rw [hs, hv]
  split <;> rfl

/-- **A column of a type that keeps an index.** -/
theorem indexColumn_agrees_iff (hreg : Best true ⟨.num (-2), g⟩ {hits} reg)
    (hedge : Best true stored {hits} edge) (hstay : stored.value = .nan → edge = stored) :
    ((mpAtomicMaxCheck stored reg.value reg.index stored.value).value = edge.value ∧
        Attained hits stored (mpAtomicMaxCheck stored reg.value reg.index stored.value)) ↔
      NotBelowInit stored ∨ (∃ h ∈ hits, -2 < h.corr) ∨ ∃ h ∈ hits, h.corr = -2 ∧ UInt32.ofNat h.pos = g := by
  obtain ⟨v, hv, hle, hdom, hatt⟩ := register_cases hreg
  cases hs : stored.value with
  | nan =>
      rw [flushed_nan hs hv, hstay hs]
      exact ⟨fun _ => Or.inl (notBelowInit_nan hs), fun _ => ⟨rfl, Or.inl rfl⟩⟩
  | num s =>
      rw [flushed_num hs hv, notBelowInit_num hs]
      by_cases hlt : s < v
      · rw [if_pos hlt, hv]
        rcases hatt with ⟨rfl, rfl⟩ | ⟨h, hh, hgt, rfl, hidx⟩
        · -- the register still holds its `-2`
          constructor
          · rintro ⟨_, hkept | ⟨h, hh, hcorr, hidx⟩⟩
            · exact absurd (Dbl.num.inj ((congrArg MpEntry.value hkept).trans hs)) (ne_of_gt hlt)
            · exact Or.inr (Or.inr ⟨h, hh, (Dbl.num.inj hcorr).symm, hidx.symm⟩)
          · rintro (hge | ⟨h, hh, hgt⟩ | ⟨h, hh, hcorr, hidx⟩)
            · exact absurd hge (not_le.mpr hlt)
            · exact absurd (hdom h hh) (not_le.mpr hgt)
            · refine ⟨?_, Or.inr ⟨h, hh, by rw [hcorr], hidx.symm⟩⟩
              rw [edge_value_eq hs hedge hdom (Or.inr ⟨h, hh, hcorr.symm⟩), max_eq_right hlt.le]
        · refine ⟨fun _ => Or.inr (Or.inl ⟨h, hh, hgt⟩), fun _ => ⟨?_, Or.inr ⟨h, hh, hv, hidx rfl⟩⟩⟩
          rw [edge_value_eq hs hedge hdom (Or.inr ⟨h, hh, rfl⟩), max_eq_right hlt.le]
      · have hvs := not_lt.mp hlt
        rw [if_neg hlt, hs, edge_value_eq hs hedge hdom (Or.inl hvs), max_eq_left hvs]
        exact ⟨fun _ => Or.inl (hle.trans hvs), fun _ => ⟨rfl, Or.inl rfl⟩⟩

/-- **A column of `1NN`.** -/
theorem valueColumn_agrees_iff (hreg : Best false ⟨.num (-2), g⟩ {hits} reg)
    (hedge : Best false stored {hits} edge) (hstay : stored.value = .nan → edge = stored) :
    fAtomicMaxCheck stored.value reg.value stored.value = edge.value ↔
      NotBelowInit stored ∨ ∃ h ∈ hits, -2 ≤ h.corr := by
  obtain ⟨v, hv, hle, hdom, hatt⟩ := register_cases hreg
  rw [hv]
  cases hs : stored.value with
  | nan =>
      rw [hstay hs, hs]
      exact ⟨fun _ => Or.inl (notBelowInit_nan hs), fun _ => rfl⟩
  | num s =>
      have hfast : fAtomicMaxCheck (.num s) (.num v) (.num s) = .num (max s v) := by
        unfold fAtomicMaxCheck fAtomicMax
        rw [Dbl.gt_num]
        split
        · next hlt => rw [max_eq_left (le_of_lt (of_decide_eq_true hlt))]
        · rfl
      rw [hfast, notBelowInit_num hs]
      constructor
      · intro heq
        obtain ⟨w, hw, _, _, hatt'⟩ := best_hits hedge hs
        obtain rfl := Dbl.num.inj (heq.trans hw)
        rcases hatt' with rfl | ⟨h, hh, _, hcorr, _⟩
        · have hmax : max s v = s := Dbl.num.inj (hw.symm.trans hs)
          exact Or.inl (hle.trans (hmax ▸ le_max_right s v))
        · exact Or.inr ⟨h, hh, hcorr ▸ hle.trans (le_max_right s v)⟩
      · intro hcond
        refine (edge_value_eq hs hedge hdom ?_).symm
        rcases hatt with ⟨rfl, _⟩ | ⟨h, hh, _, hcorr, _⟩
        · rcases hcond with hge | ⟨h, hh, hge⟩
          · exact Or.inl hge
          · exact Or.inr ⟨h, hh, le_antisymm hge (hdom h hh)⟩
        · exact Or.inr ⟨h, hh, hcorr⟩

/-- Two registers that take in the same hits end with the same value. -/
theorem registers_value_eq {keeps keeps' : Bool} {g' : UInt32} {acc : MpEntry K}
    (hreg : Best keeps ⟨.num (-2), g⟩ {hits} reg) (hacc : Best keeps' ⟨.num (-2), g'⟩ {hits} acc) :
    acc.value = reg.value := by
  obtain ⟨v, hv, hle, hdom, hatt⟩ := register_cases hreg
  obtain ⟨w, hw, hle', hdom', hatt'⟩ := register_cases hacc
  rw [hv, hw]
  congr 1
  apply le_antisymm
  · rcases hatt' with ⟨rfl, _⟩ | ⟨h, hh, _, rfl, _⟩
    · exact hle
    · exact hdom h hh
  · rcases hatt with ⟨rfl, _⟩ | ⟨h, hh, _, rfl, _⟩
    · exact hle'
    · exact hdom' h hh

/-- **A row of a type that keeps an index.** -/
theorem indexRow_agrees_iff {acc : MpEntry K} (hreg : Best true ⟨.num (-2), g⟩ {hits} reg)
    (hacc : Best true ⟨.num (-2), 0⟩ {hits} acc) :
    ((mpAtomicMaxCheck stored reg.value reg.index stored.value).value =
        (mpAtomicMaxCheck stored acc.value acc.index (.num (-2))).value ∧
      Attained hits stored (mpAtomicMaxCheck stored reg.value reg.index stored.value)) ↔
      NotBelowInit stored ∨ ∃ h ∈ hits, -2 < h.corr := by
  obtain ⟨v, hv, hle, hdom, hatt⟩ := register_cases hreg
  have hacc_value := (registers_value_eq hreg hacc).trans hv
  cases hs : stored.value with
  | nan =>
      rw [flushed_nan hs hv, flushed_nan hs hacc_value]
      exact ⟨fun _ => Or.inl (notBelowInit_nan hs), fun _ => ⟨rfl, Or.inl rfl⟩⟩
  | num s =>
      have hedge : mpAtomicMaxCheck stored acc.value acc.index (.num (-2)) =
          if -2 < v ∧ s < v then acc else stored := by
        unfold mpAtomicMaxCheck mpAtomicMax
        rw [hs, hacc_value, Dbl.gt_num, Dbl.gt_num]
        by_cases hgt : -2 < v
        · by_cases hlt : s < v
          · rw [if_pos (decide_eq_true hgt), if_pos (decide_eq_true hlt), if_pos ⟨hgt, hlt⟩, ← hacc_value]
          · rw [if_pos (decide_eq_true hgt), if_neg (by simpa using hlt), if_neg fun h => hlt h.2]
        · rw [if_neg (by simpa using hgt), if_neg fun h => hgt h.1]
      rw [flushed_num hs hv, hedge, notBelowInit_num hs]
      by_cases hlt : s < v
      · rw [if_pos hlt, hv]
        rcases hatt with ⟨rfl, -⟩ | ⟨h, hh, hgt, rfl, hidx⟩
        · -- the register still holds its `-2`, which the other way never stores
          rw [if_neg fun h => lt_irrefl _ h.1, hs]
          constructor
          · rintro ⟨heq, -⟩
            exact absurd (Dbl.num.inj heq).symm (ne_of_lt hlt)
          · rintro (hge | ⟨h, hh, hgt⟩)
            · exact absurd hge (not_le.mpr hlt)
            · exact absurd (hdom h hh) (not_le.mpr hgt)
        · rw [if_pos ⟨hgt, hlt⟩, hacc_value]
          exact ⟨fun _ => Or.inr ⟨h, hh, hgt⟩, fun _ => ⟨rfl, Or.inr ⟨h, hh, hv, hidx rfl⟩⟩⟩
      · rw [if_neg hlt, if_neg fun h => hlt h.2]
        exact ⟨fun _ => Or.inl (hle.trans (not_lt.mp hlt)), fun _ => ⟨rfl, Or.inl rfl⟩⟩

/-- **A row of `1NN`.** -/
theorem valueRow_agrees {acc : MpEntry K} (hreg : Best false ⟨.num (-2), g⟩ {hits} reg)
    (hacc : Best false ⟨.num (-2), 0⟩ {hits} acc) :
    fAtomicMaxCheck stored.value reg.value stored.value =
      fAtomicMaxCheck stored.value acc.value (.num (-2)) := by
  obtain ⟨v, hv, hle, -⟩ := register_cases hreg
  rw [registers_value_eq hreg hacc, hv]
  have hcheck : fAtomicMaxCheck stored.value (.num v) (.num (-2)) = fAtomicMax stored.value (.num v) := by
    unfold fAtomicMaxCheck
    rw [Dbl.gt_num, if_neg (by simpa using hle)]
  rw [hcheck]
  unfold fAtomicMaxCheck
  split
  · next hgt =>
      cases hs : stored.value with
      | nan => rfl
      | num s =>
          rw [hs, Dbl.gt_num] at hgt
          show Dbl.num s = Dbl.num (max s v)
          rw [max_eq_left (le_of_lt (of_decide_eq_true hgt))]
  · rfl

end

end

end Scamp
