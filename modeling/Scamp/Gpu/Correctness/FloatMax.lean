import Scamp.Gpu.AtomicBits
import Scamp.Gpu.Atomics
import Mathlib.Order.Bounds.Basic

/-!
# `Gpu.Correctness.FloatMax` — what a run of `fAtomicMax` leaves

The signed comparison of the bits is right for a value that is not negative, and the unsigned one for a
negative value, whatever the cell holds (`fAtomicMax_key`). The one value in between is `-0`: it passes the
test `value >= 0`, but its bits are the least signed integer, so the update is lost (`fAtomicMax_negZero`).
-/

namespace Scamp

namespace AtomicBits

open Lib.Binary32

/-! ## One update -/

section
variable {cell u : BitVec 32}

theorem isNaN_zero : isNaN 0#32 = false := by decide

theorem key_zero : key 0#32 = 0 := by decide

/-- Which of the two operations is taken. -/
theorem ge_zero_iff (hu : isNaN u = false) : ge u 0#32 = true ↔ 0 ≤ key u := by
  rw [ge_iff hu isNaN_zero, value_le_iff isNaN_zero hu, key_zero]

theorem fAtomicMax_of_nonneg (hu : isNaN u = false) (hkey : 0 ≤ key u) :
    (fAtomicMax cell u).1 = if cell.toInt < u.toInt then u else cell := by
  unfold fAtomicMax
  rw [if_pos ((ge_zero_iff hu).mpr hkey)]
  rfl

theorem fAtomicMax_of_neg (hu : isNaN u = false) (hkey : key u < 0) :
    (fAtomicMax cell u).1 = if u.toNat < cell.toNat then u else cell := by
  unfold fAtomicMax
  rw [if_neg fun h => absurd ((ge_zero_iff hu).mp h) (not_le.mpr hkey)]
  rfl

/-- **An update with `-0` is lost.** -/
theorem fAtomicMax_negZero (cell : BitVec 32) : (fAtomicMax cell negZero).1 = cell := by
  have hmin : negZero.toInt = -2 ^ 31 := by decide
  have hle := BitVec.le_toInt cell
  rw [fAtomicMax_of_nonneg isNaN_negZero (by decide), if_neg]
  rw [hmin]
  omega

/-- **Any other update** leaves the larger of the two. -/
theorem fAtomicMax_spec (cell : BitVec 32) (hu : isNaN u = false) (hne : u ≠ negZero) :
    ((fAtomicMax cell u).1 = cell ∨ (fAtomicMax cell u).1 = u) ∧
      key (fAtomicMax cell u).1 = max (key cell) (key u) := by
  have hcell := magnitude_lt cell
  have hmag := magnitude_lt u
  cases hs : sign u with
  | false =>
      -- as a signed integer, an update without a sign is above every cell with one
      have hkey := key_nonneg hs
      have hint := toInt_eq u
      have hint' := toInt_eq cell
      rw [hs, if_neg (by decide)] at hint
      rw [fAtomicMax_of_nonneg hu (by omega)]
      cases hc : sign cell with
      | false =>
          have hkey' := key_nonneg hc
          rw [hc, if_neg (by decide)] at hint'
          by_cases hlt : cell.toInt < u.toInt
          · rw [if_pos hlt, max_eq_right (by omega)]
            exact ⟨Or.inr rfl, rfl⟩
          · rw [if_neg hlt, max_eq_left (by omega)]
            exact ⟨Or.inl rfl, rfl⟩
      | true =>
          have hkey' := key_neg hc
          rw [hc, if_pos rfl] at hint'
          rw [if_pos (by omega), max_eq_right (by omega)]
          exact ⟨Or.inr rfl, rfl⟩
  | true =>
      -- as an unsigned integer, it is above every cell without one
      have hkey := key_neg hs
      have hpos : magnitude u ≠ 0 := fun h => hne (eq_negZero_iff.mpr ⟨hs, h⟩)
      have hnat := toNat_eq u
      have hnat' := toNat_eq cell
      rw [hs, if_pos rfl] at hnat
      rw [fAtomicMax_of_neg hu (by omega)]
      cases hc : sign cell with
      | false =>
          have hkey' := key_nonneg hc
          rw [hc, if_neg (by decide)] at hnat'
          rw [if_neg (by omega), max_eq_left (by omega)]
          exact ⟨Or.inl rfl, rfl⟩
      | true =>
          have hkey' := key_neg hc
          rw [hc, if_pos rfl] at hnat'
          by_cases hlt : u.toNat < cell.toNat
          · rw [if_pos hlt, max_eq_right (by omega)]
            exact ⟨Or.inr rfl, rfl⟩
          · rw [if_neg hlt, max_eq_left (by omega)]
            exact ⟨Or.inl rfl, rfl⟩

end

/-! ## A run -/

/-- What a run of updates leaves in the cell: the initial value or an update, but for the `-0`s, that is at
    least all of them. -/
structure RunLeaves (init : BitVec 32) (updates : List (BitVec 32)) (cell : BitVec 32) : Prop where
  isNumber : isNaN cell = false
  isOne : cell = init ∨ cell ∈ updates ∧ cell ≠ negZero
  init_le : value init ≤ value cell
  update_le : ∀ u ∈ updates, u ≠ negZero → value u ≤ value cell

theorem isNaN_fAtomicMax {cell u : BitVec 32} (hcell : isNaN cell = false) (hu : isNaN u = false) :
    isNaN (fAtomicMax cell u).1 = false := by
  by_cases hzero : u = negZero
  · rw [hzero, fAtomicMax_negZero]
    exact hcell
  · rcases (fAtomicMax_spec cell hu hzero).1 with hone | hone <;> rw [hone] <;> assumption

/-- One update in front of a run. -/
theorem runLeaves_cons {init u cell : BitVec 32} {updates : List (BitVec 32)} (hinit : isNaN init = false)
    (hu : isNaN u = false) (h : RunLeaves (fAtomicMax init u).1 updates cell) :
    RunLeaves init (u :: updates) cell := by
  by_cases hzero : u = negZero
  · subst hzero
    rw [fAtomicMax_negZero] at h
    refine ⟨h.isNumber, h.isOne.imp_right fun hmem => ⟨List.mem_cons_of_mem _ hmem.1, hmem.2⟩, h.init_le, ?_⟩
    intro w hw hne
    exact h.update_le w ((List.mem_cons.mp hw).resolve_left hne) hne
  · obtain ⟨hone, hkey⟩ := fAtomicMax_spec init hu hzero
    have hnan := isNaN_fAtomicMax hinit hu
    have hle : value init ≤ value (fAtomicMax init u).1 := by
      rw [value_le_iff hinit hnan, hkey]
      exact le_max_left _ _
    have hle' : value u ≤ value (fAtomicMax init u).1 := by
      rw [value_le_iff hu hnan, hkey]
      exact le_max_right _ _
    refine ⟨h.isNumber, ?_, hle.trans h.init_le, fun w hw hne => ?_⟩
    · rcases h.isOne with heq | ⟨hmem, hne⟩
      · rcases hone with hone | hone
        · exact Or.inl (heq.trans hone)
        · have hcell := heq.trans hone
          exact Or.inr ⟨hcell ▸ List.mem_cons_self, hcell ▸ hzero⟩
      · exact Or.inr ⟨List.mem_cons_of_mem _ hmem, hne⟩
    · rcases List.mem_cons.mp hw with rfl | hw
      · exact hle'.trans h.init_le
      · exact h.update_le w hw hne

/-- **A run of updates.** -/
theorem runLeaves {init : BitVec 32} {updates : List (BitVec 32)} (hinit : isNaN init = false)
    (hupdates : ∀ u ∈ updates, isNaN u = false) : RunLeaves init updates (fAtomicMaxRun init updates) := by
  induction updates generalizing init with
  | nil => exact ⟨hinit, Or.inl rfl, le_rfl, fun u hu => absurd hu List.not_mem_nil⟩
  | cons u updates ih =>
      have hu := hupdates u List.mem_cons_self
      exact runLeaves_cons hinit hu (ih (isNaN_fAtomicMax hinit hu)
        fun w hw => hupdates w (List.mem_cons_of_mem u hw))

/-! ## The maximum -/

/-- The cell compares equal to the maximum of the initial value and all updates. -/
def HoldsMax (init : BitVec 32) (updates : List (BitVec 32)) (cell : BitVec 32) : Prop :=
  isNaN cell = false ∧ IsGreatest (value '' {u | u ∈ init :: updates}) (value cell)

theorem value_negZero : value negZero = value 0#32 := by decide

/-- **`fAtomicMax`**: a run leaves the maximum exactly when no update is `-0`, or something else that takes
    part is at least `0`. -/
theorem fAtomicMaxRun_iff {init : BitVec 32} {updates : List (BitVec 32)} (hinit : isNaN init = false)
    (hupdates : ∀ u ∈ updates, isNaN u = false) :
    HoldsMax init updates (fAtomicMaxRun init updates) ↔
      (negZero ∈ updates → ge init 0#32 = true ∨ ∃ u ∈ updates, u ≠ negZero ∧ ge u 0#32 = true) := by
  have h := runLeaves hinit hupdates
  constructor
  · rintro ⟨-, -, hall⟩ hmem
    have hzero : value 0#32 ≤ value (fAtomicMaxRun init updates) := by
      rw [← value_negZero]
      exact hall ⟨negZero, List.mem_cons_of_mem init hmem, rfl⟩
    have hge := (ge_iff h.isNumber isNaN_zero).mpr hzero
    rcases h.isOne with heq | ⟨hone, hne⟩
    · exact Or.inl (heq ▸ hge)
    · exact Or.inr ⟨_, hone, hne, hge⟩
  · intro hcond
    refine ⟨h.isNumber, ?_, ?_⟩
    · rcases h.isOne with heq | ⟨hone, -⟩
      · exact ⟨init, List.mem_cons_self, congrArg value heq.symm⟩
      · exact ⟨_, List.mem_cons_of_mem init hone, rfl⟩
    · rintro v ⟨u, hu, rfl⟩
      rcases List.mem_cons.mp hu with rfl | hu
      · exact h.init_le
      · by_cases hne : u = negZero
        · -- the lost update is no larger than what is at least `0`
          rw [hne, value_negZero]
          rcases hcond (hne ▸ hu) with hge | ⟨w, hw, hwne, hge⟩
          · exact ((ge_iff hinit isNaN_zero).mp hge).trans h.init_le
          · exact ((ge_iff (hupdates w hw) isNaN_zero).mp hge).trans (h.update_le w hw hwne)
        · exact h.update_le u hu hne

/-- A cell at `-1` keeps it when it is updated with `-0`. -/
theorem fAtomicMaxRun_lost :
    ¬∀ (init : BitVec 32) (updates : List (BitVec 32)), isNaN init = false →
      (∀ u ∈ updates, isNaN u = false) → HoldsMax init updates (fAtomicMaxRun init updates) := by
  intro hall
  have hone : isNaN 0xbf800000#32 = false := by decide
  have hmax := (hall 0xbf800000#32 [negZero] hone (List.forall_mem_singleton.mpr isNaN_negZero)).2.2
    ⟨negZero, List.mem_cons_of_mem _ List.mem_cons_self, rfl⟩
  have hrun : fAtomicMaxRun 0xbf800000#32 [negZero] = 0xbf800000#32 := fAtomicMax_negZero _
  rw [hrun, value_le_iff isNaN_negZero hone] at hmax
  exact absurd hmax (by decide)

theorem fAtomicMaxRun_iff_mixed :
    HoldsMax 0xbf800000#32 [negZero, 0xc0000000#32, 0#32]
        (fAtomicMaxRun 0xbf800000#32 [negZero, 0xc0000000#32, 0#32]) ↔
      (negZero ∈ [negZero, 0xc0000000#32, 0#32] → ge 0xbf800000#32 0#32 = true ∨
        ∃ u ∈ [negZero, 0xc0000000#32, 0#32], u ≠ negZero ∧ ge u 0#32 = true) :=
  fAtomicMaxRun_iff (by decide) (List.forall_mem_cons.mpr ⟨isNaN_negZero,
    List.forall_mem_cons.mpr ⟨by decide, List.forall_mem_singleton.mpr isNaN_zero⟩⟩)

/-! ## Exact arithmetic -/

/-- The number a finite pattern stands for; an infinity is the one after the largest. -/
def toRat (x : BitVec 32) : ℚ := signedScaled (key x) / 2 ^ 149

theorem toRat_lt_iff {x y : BitVec 32} : toRat x < toRat y ↔ key x < key y := by
  have hunits : (0 : ℚ) < 2 ^ 149 := by positivity
  have hlt : ∀ {a b : BitVec 32}, key a < key b → toRat a < toRat b := fun {a b} h => by
    unfold toRat
    exact div_lt_div_of_pos_right (Int.cast_lt.mpr (signedScaled_lt h)) hunits
  constructor
  · intro h
    by_contra hle
    rcases (not_lt.mp hle).eq_or_lt with heq | hgt
    · unfold toRat at h
      rw [heq] at h
      exact absurd h (lt_irrefl _)
    · exact absurd h (not_lt.mpr (hlt hgt).le)
  · exact hlt

/-- **Refinement.** On numbers, an update other than `-0` is the maximum that `Gpu.Atomics` takes. -/
theorem toRat_fAtomicMax {cell u : BitVec 32} (hu : isNaN u = false) (hne : u ≠ negZero) :
    Scamp.fAtomicMax (.num (toRat cell)) (.num (toRat u)) = .num (toRat (fAtomicMax cell u).1) := by
  obtain ⟨hone, hkey⟩ := fAtomicMax_spec cell hu hne
  show Dbl.num (max (toRat cell) (toRat u)) = _
  congr 1
  apply le_antisymm
  · refine max_le ?_ ?_
    · rw [← not_lt, toRat_lt_iff, hkey]
      exact not_lt.mpr (le_max_left _ _)
    · rw [← not_lt, toRat_lt_iff, hkey]
      exact not_lt.mpr (le_max_right _ _)
  · rcases hone with hone | hone <;> rw [hone]
    · exact le_max_left _ _
    · exact le_max_right _ _

end AtomicBits

end Scamp
