import Scamp.Gpu.Correctness.IterationAgrees
import Scamp.Gpu.DoTile

/-!
# `Gpu.Correctness.Offers` — what an access offers an entry

For the types that keep a maximum, an access that merges offers an entry, and the entry at its address takes
it when it is larger (`Takes`). What was read ahead may be out of date by then; entries only grow, so an
offer that is left out for it is left out rightly (`flushEntry_takes`). An entry that has only taken
correlations of some hits is the one it started as, or one of the hits (`Attains`).
-/

namespace Scamp

namespace SlidingWindow

namespace DoTile

section
variable {K : Type} [Field K] [LinearOrder K] {keeps : Bool} {e e' o base : MpEntry K} {hits hits' : Set (Hit K)}
  {u v w : K}

/-! ## Taking an offer -/

/-- The entry `e` has become `e'` by an offer `o`. -/
structure Takes (keeps : Bool) (e o e' : MpEntry K) : Prop where
  same_or : e' = e ∨ ∃ v w, e.value = .num v ∧ o.value = .num w ∧ v < w ∧ e'.value = .num w ∧
    (keeps = true → e'.index = o.index)
  covers : ∀ w, o.value = .num w → ∃ v', e'.value = .num v' ∧ w ≤ v'

/-- The value of an entry is a number, and at least `w`. -/
def AtLeast (w : K) (e : MpEntry K) : Prop := ∃ v, e.value = .num v ∧ w ≤ v

omit [Field K] in
theorem AtLeast.trans (h : AtLeast v e) (hle : w ≤ v) : AtLeast w e := by
  obtain ⟨v', hv', hle'⟩ := h
  exact ⟨v', hv', hle.trans hle'⟩

omit [Field K] in
/-- An entry only grows. -/
theorem AtLeast.takes (h : AtLeast w e) (htakes : Takes keeps e o e') : AtLeast w e' := by
  rcases htakes.same_or with rfl | ⟨v, v', hv, -, hlt, hv', -⟩
  · exact h
  · obtain ⟨u, hu, hle⟩ := h
    obtain rfl := Dbl.num.inj (hu.symm.trans hv)
    exact ⟨v', hv', hle.trans hlt.le⟩

omit [Field K] in
/-- An offer that is not above the entry. -/
theorem takes_refused (hv : e.value = .num v) (hle : ∀ w, o.value = .num w → w ≤ v) : Takes keeps e o e :=
  ⟨Or.inl rfl, fun w hw => ⟨v, hv, hle w hw⟩⟩

omit [Field K] in
theorem takes_taken (hv : e.value = .num v) (hw : o.value = .num w) (hlt : v < w) (hvalue : e'.value = .num w)
    (hindex : keeps = true → e'.index = o.index) : Takes keeps e o e' := by
  refine ⟨Or.inr ⟨v, w, hv, hw, hlt, hvalue, hindex⟩, fun w' hw' => ⟨w, hvalue, ?_⟩⟩
  exact (Dbl.num.inj (hw'.symm.trans hw)).le

omit [Field K] in
theorem mpAtomicMax_takes (hv : e.value = .num v) : Takes keeps e o (mpAtomicMax e o.value o.index) := by
  unfold mpAtomicMax
  rw [hv]
  cases hw : o.value with
  | nan => exact takes_refused hv fun w h => by rw [hw] at h; cases h
  | num w =>
      rw [Dbl.gt_num]
      by_cases hlt : v < w
      · rw [if_pos (decide_eq_true hlt)]
        exact takes_taken hv hw hlt rfl fun _ => rfl
      · rw [if_neg (by simpa using hlt)]
        exact takes_refused hv fun w' h => (Dbl.num.inj (h.symm.trans hw)).le.trans (not_lt.mp hlt)

theorem fAtomicMax_takes (hv : e.value = .num v) (hw : o.value = .num w) :
    Takes false e o { e with value := fAtomicMax e.value o.value } := by
  rw [hv, hw]
  show Takes false e o { e with value := .num (max v w) }
  rcases lt_or_ge v w with hlt | hle
  · rw [max_eq_right hlt.le]
    exact takes_taken hv hw hlt rfl nofun
  · rw [max_eq_left hle, ← hv]
    exact takes_refused hv fun w' h => (Dbl.num.inj (h.symm.trans hw)).le.trans hle

omit [Field K] in
theorem mpAtomicMaxCheck_takes (hv : e.value = .num v) {check : K} (hcheck : check ≤ v) :
    Takes keeps e o (mpAtomicMaxCheck e o.value o.index (.num check)) := by
  unfold mpAtomicMaxCheck
  split
  · exact mpAtomicMax_takes hv
  · next hgt =>
      refine takes_refused hv fun w hw => ?_
      rw [hw, Dbl.gt_num, decide_eq_true_eq, not_lt] at hgt
      exact hgt.trans hcheck

theorem fAtomicMaxCheck_takes (hv : e.value = .num v) (hw : o.value = .num w) {check : K} (hcheck : check ≤ v) :
    Takes false e o { e with value := fAtomicMaxCheck e.value o.value (.num check) } := by
  unfold fAtomicMaxCheck
  rw [hw, Dbl.gt_num]
  by_cases hlt : w < check
  · rw [if_pos (decide_eq_true hlt)]
    exact takes_refused hv fun w' h => (Dbl.num.inj (h.symm.trans hw)).le.trans (hlt.le.trans hcheck)
  · rw [if_neg (by simpa using hlt), ← hw]
    exact fAtomicMax_takes hv hw

/-! ## The accesses -/

/-- What an access offers, and where. -/
def Access.offer : Access K → Option (Side × ℕ × MpEntry K)
  | .flush side slot best => some (side, slot, best)
  | .reduceEdge slot globalRow dist => some (.a, slot, ⟨dist, UInt32.ofNat globalRow⟩)
  | .reduceRow slot distRow => some (.b, slot, distRow)
  | _ => none

section
variable {L : Launch K} (hmax : KeepsMax L.type)
include hmax

/-- **`update_cols` and `update_rows`**, with a value read ahead that the entry has had. -/
theorem flushEntry_takes {check : K} (hv : e.value = .num v) (hw : o.value = .num w) (hcheck : check ≤ v)
    (hflush : flushEntry L (some (.num check)) e o = some e') : Takes (keepsIndex L.type) e o e' := by
  unfold flushEntry at hflush
  rcases hmax with hkeeps | hone
  · rcases keepsIndex_cases hkeeps with h | h | h <;> rw [h] at hflush ⊢ <;> obtain rfl := Option.some.inj hflush <;>
      exact mpAtomicMaxCheck_takes hv hcheck
  · rw [hone] at hflush ⊢
    obtain rfl := Option.some.inj hflush
    exact fAtomicMaxCheck_takes hv hw hcheck

/-- **`reduce_edge`**, for a column. -/
theorem edgeColumn_takes (hv : e.value = .num v) (globalRow : ℕ) (dist : Dbl K) :
    Takes (keepsIndex L.type) e ⟨dist, UInt32.ofNat globalRow⟩ (edgeColumn L.inst globalRow e dist) := by
  rcases hmax with hkeeps | hone
  · rw [edgeColumn_index (show keepsIndex L.inst.type = true from hkeeps)]
    exact mpAtomicMax_takes hv
  · unfold edgeColumn
    rw [show L.inst.type = .oneNN from hone, hone]
    cases dist with
    | nan => exact takes_refused hv nofun
    | num w => exact fAtomicMax_takes (o := ⟨.num w, UInt32.ofNat globalRow⟩) hv rfl

/-- **`reduce_row`**: offers up to `-2` are left out. -/
theorem reduceRow_takes (hv : e.value = .num v) (hinit : -2 ≤ v) (hw : o.value = .num w) :
    Takes (keepsIndex L.type) e o (SlidingWindow.reduceRow L.inst e o) := by
  rcases hmax with hkeeps | hone
  · rw [reduceRow_index (show keepsIndex L.inst.type = true from hkeeps)]
    exact mpAtomicMaxCheck_takes hv hinit
  · unfold SlidingWindow.reduceRow
    rw [show L.inst.type = .oneNN from hone, hone]
    exact fAtomicMaxCheck_takes hv hw hinit

end

/-! ## Entries that come from hits -/

/-- The entry is the one it started as, or a hit that is better. -/
def Attains (keeps : Bool) (base : MpEntry K) (hits : Set (Hit K)) (e : MpEntry K) : Prop :=
  e = base ∨ ∃ h ∈ hits, (∃ v, base.value = .num v ∧ v < h.corr) ∧ e.value = .num h.corr ∧
    (keeps = true → e.index = UInt32.ofNat h.pos)

/-- What may be offered to an entry: a hit, or nothing above `-2`. -/
def Genuine (keeps : Bool) (hits : Set (Hit K)) (o : MpEntry K) : Prop :=
  ∀ w, o.value = .num w → -2 < w → ∃ h ∈ hits, h.corr = w ∧ (keeps = true → o.index = UInt32.ofNat h.pos)

omit [Field K] in
theorem attains_refl : Attains keeps base hits base := Or.inl rfl

omit [Field K] in
theorem Attains.mono (h : Attains keeps base hits e) (hsub : hits ⊆ hits') : Attains keeps base hits' e := by
  rcases h with rfl | ⟨x, hx, hrest⟩
  · exact Or.inl rfl
  · exact Or.inr ⟨x, hsub hx, hrest⟩

omit [Field K] in
theorem Attains.atLeast (h : Attains keeps base hits e) (hv : base.value = .num v) : AtLeast v e := by
  rcases h with rfl | ⟨x, -, ⟨u, hu, hlt⟩, hvalue, -⟩
  · exact ⟨v, hv, le_rfl⟩
  · obtain rfl := Dbl.num.inj (hu.symm.trans hv)
    exact ⟨x.corr, hvalue, hlt.le⟩

theorem Genuine.mono (h : Genuine keeps hits o) (hsub : hits ⊆ hits') : Genuine keeps hits' o := by
  intro w hw hlt
  obtain ⟨x, hx, hrest⟩ := h w hw hlt
  exact ⟨x, hsub hx, hrest⟩

/-- **Taking genuine offers.** -/
theorem Attains.takes (h : Attains keeps base hits e) (hbase : AtLeast (-2) base) (ho : Genuine keeps hits o)
    (htakes : Takes keeps e o e') : Attains keeps base hits e' := by
  rcases htakes.same_or with rfl | ⟨v, w, hv, hw, hlt, hvalue, hindex⟩
  · exact h
  · obtain ⟨u, hu, hinit⟩ := hbase
    obtain ⟨v', hv', hle⟩ := h.atLeast hu
    obtain rfl := Dbl.num.inj (hv'.symm.trans hv)
    obtain ⟨x, hx, rfl, hpos⟩ := ho w hw (hinit.trans_lt (hle.trans_lt hlt))
    exact Or.inr ⟨x, hx, ⟨u, hu, hle.trans_lt hlt⟩, hvalue, fun hk => (hindex hk).trans (hpos hk)⟩

omit [Field K] in
/-- **Merging two entries** that started as the same one. -/
theorem Attains.merge (h : Attains keeps base hits e) (ho : Attains keeps base hits o)
    (hbase : base.value = .num u) (htakes : Takes keeps e o e') : Attains keeps base hits e' := by
  rcases htakes.same_or with rfl | ⟨v, w, hv, hw, hlt, hvalue, hindex⟩
  · exact h
  · obtain ⟨v', hv', hle⟩ := h.atLeast hbase
    obtain rfl := Dbl.num.inj (hv'.symm.trans hv)
    rcases ho with rfl | ⟨x, hx, hbetter, hcorr, hpos⟩
    · obtain rfl := Dbl.num.inj (hbase.symm.trans hw)
      exact absurd hlt hle.not_gt
    · exact Or.inr ⟨x, hx, hbetter, hvalue.trans (hw.symm.trans hcorr), fun hk => (hindex hk).trans (hpos hk)⟩

end

end DoTile

end SlidingWindow

end Scamp
