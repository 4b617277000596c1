import Scamp.Gpu.Correctness.FloatMax
import Scamp.Lib.Steps
import Scamp.Lib.Versions
import Mathlib.Algebra.Order.BigOperators.Group.Finset
import Mathlib.Data.Fin.VecNotation
import Mathlib.Order.Bounds.Basic

/-!
# `Gpu.Correctness.MpAtomicMax` — concurrent calls of `MPatomicMax`

The invariant of every interleaving (`Inv`): the words the entry has held rise in value, each is the initial
one or one a call writes, and what a call compares against is among them. A swap succeeds only against the
latest word, and the word it writes has a larger value, so the history goes on rising. A swap that fails
returns a later word than the one expected, and one that succeeds leaves the caller one word behind, which
is what bounds the attempts.

So every run ends (`run_length_le`) and can be completed (`exists_returned`), and a completed run is one of the
calls made one after the other (`run_linearized`), which is how the kernels use them.
-/

namespace Scamp

namespace AtomicBits

open Lib Lib.Binary32

/-! ## Entries -/

@[simp] theorem float0_of (f n : BitVec 32) : (MpWord.of f n).float0 = f := by
  unfold MpWord.of MpWord.float0
  exact BitVec.extractLsb'_append_eq_right

@[simp] theorem int1_of (f n : BitVec 32) : (MpWord.of f n).int1 = n := by
  unfold MpWord.of MpWord.int1
  exact BitVec.extractLsb'_append_eq_left

/-! ## The invariant -/

section
variable {ι : Type} {calls : ι → Call} {init : MpWord} {s : State ι}

/-- The value of an entry. -/
def MpWord.value (e : MpWord) : Value := Binary32.value e.float0

theorem value_loc (c : Call) : c.loc.value = Binary32.value c.val := by
  unfold Call.loc MpWord.value
  rw [float0_of]

/-- What a call knows of the words so far. A call that is to compare is as many words behind as its `loctest`
    is in the history, and it has attempted no more swaps than it has caught up on, but for its own word. -/
def CallInv (c : Call) (history : List MpWord) (attempts : ℕ) : Pc → Prop
  | .called => attempts = 0
  | .entered => attempts = 0
  | .looping loctest =>
      loctest ∈ history ∧ attempts + history.idxOf loctest ≤ history.length ∧
        (c.loc ∉ history → attempts + history.idxOf loctest < history.length)
  | .returned => (∃ w ∈ history, c.loc.value ≤ w.value) ∧ attempts ≤ history.length

/-- **The invariant** of every interleaving. -/
structure Inv (calls : ι → Call) (init : MpWord) (s : State ι) : Prop where
  latest : ∃ rest, s.history = s.entry :: rest
  rising : Rising MpWord.value s.history
  written : ∀ w ∈ s.history, w = init ∨ ∃ i, w = (calls i).loc
  call : ∀ i, CallInv (calls i) s.history (s.attempts i) (s.pc i)

theorem inv_start (calls : ι → Call) (init : MpWord) : Inv calls init (start init) where
  latest := ⟨[], rfl⟩
  rising := rising_one MpWord.value init
  written := fun _ hw => Or.inl (List.mem_singleton.mp hw)
  call := fun _ => rfl

/-- What a call knows stays true when another word is written. -/
theorem CallInv.push {c : Call} {history : List MpWord} {attempts : ℕ} {pc : Pc} {w : MpWord}
    (h : CallInv c history attempts pc) (hw : w ∉ history) : CallInv c (w :: history) attempts pc := by
  cases pc with
  | called => exact h
  | entered => exact h
  | looping loctest =>
      obtain ⟨hmem, hle, hlt⟩ := h
      refine ⟨List.mem_cons_of_mem _ hmem, ?_, fun hloc => ?_⟩
      · rw [idxOf_push (ne_of_mem_of_not_mem hmem hw), List.length_cons]
        omega
      · have hold := hlt fun hin => hloc (List.mem_cons_of_mem _ hin)
        rw [idxOf_push (ne_of_mem_of_not_mem hmem hw), List.length_cons]
        omega
  | returned =>
      obtain ⟨⟨v, hv, hle⟩, hattempts⟩ := h
      refine ⟨⟨v, List.mem_cons_of_mem _ hv, hle⟩, ?_⟩
      rw [List.length_cons]
      omega

theorem Inv.entry_mem (h : Inv calls init s) : s.entry ∈ s.history := by
  obtain ⟨rest, hrest⟩ := h.latest
  rw [hrest]
  exact List.mem_cons_self

theorem Inv.idxOf_entry (h : Inv calls init s) : s.history.idxOf s.entry = 0 := by
  obtain ⟨rest, hrest⟩ := h.latest
  rw [hrest]
  exact List.idxOf_cons_self

/-- The entry has the largest value so far. -/
theorem Inv.le_entry (h : Inv calls init s) {w : MpWord} (hw : w ∈ s.history) : w.value ≤ s.entry.value := by
  obtain ⟨rest, hrest⟩ := h.latest
  have hrising := h.rising
  rw [hrest] at hrising hw
  exact hrising.le_head hw

/-- A call has returned when its word is no larger than the entry. -/
theorem Inv.loc_le_entry (h : Inv calls init s) {i : ι} (hpc : s.pc i = .returned) :
    (calls i).loc.value ≤ s.entry.value := by
  have hcall := h.call i
  rw [hpc] at hcall
  obtain ⟨⟨w, hw, hle⟩, -⟩ := hcall
  exact hle.trans (h.le_entry hw)

/-- The comparison of a call with a word the entry has held. -/
theorem Inv.lt_iff (h : Inv calls init s) (hinit : isNaN init.float0 = false)
    (hcalls : ∀ i, isNaN (calls i).val = false) {i : ι} {w : MpWord} (hw : w ∈ s.history) :
    lt w.float0 (calls i).val = true ↔ w.value < (calls i).loc.value := by
  have hnan : isNaN w.float0 = false := by
    rcases h.written w hw with rfl | ⟨j, rfl⟩
    · exact hinit
    · unfold Call.loc
      rw [float0_of]
      exact hcalls j
  rw [Binary32.lt_iff hnan (hcalls i), value_loc]
  exact Iff.rfl

/-- A call attempts a swap for each word at most. -/
theorem Inv.attempts_le [Fintype ι] (h : Inv calls init s) (i : ι) : s.attempts i ≤ Fintype.card ι + 1 := by
  have hlength := h.rising.length_le h.written
  have hcall := h.call i
  cases hpc : s.pc i with
  | called =>
      rw [hpc] at hcall
      exact hcall.le.trans (Nat.zero_le _)
  | entered =>
      rw [hpc] at hcall
      exact hcall.le.trans (Nat.zero_le _)
  | looping loctest =>
      rw [hpc] at hcall
      exact ((Nat.le_add_right _ _).trans hcall.2.1).trans hlength
  | returned =>
      rw [hpc] at hcall
      exact hcall.2.trans hlength

end

section
variable {ι : Type} [DecidableEq ι] {calls : ι → Call} {init : MpWord} {s s' : State ι} {i : ι} {curr : MpWord}

/-! ## What a turn can do -/

/-- **The turns of a call.** -/
theorem turn_cases (h : turn calls s (i, curr) = some s') :
    (s.pc i = .called ∧ s' = s.setPc i .entered) ∨
    (s.pc i = .called ∧ curr ∈ s.history ∧ lt curr.float0 (calls i).val = false ∧ s' = s.setPc i .returned) ∨
    (s.pc i = .entered ∧ s' = s.setPc i (.looping s.entry)) ∨
    (∃ loctest, s.pc i = .looping loctest ∧ lt loctest.float0 (calls i).val = true ∧
      s' = s.swap i loctest (calls i).loc) ∨
    ∃ loctest, s.pc i = .looping loctest ∧ lt loctest.float0 (calls i).val = false ∧
      s' = s.setPc i .returned := by
  unfold turn at h
  dsimp only at h
  cases hpc : s.pc i with
  | called =>
      rw [hpc] at h
      dsimp only at h
      by_cases hcheck : (calls i).check = true
      · rw [if_pos hcheck] at h
        by_cases hmem : curr ∈ s.history
        · -- a check reads any value the word has had
          rw [if_pos hmem] at h
          obtain rfl := Option.some.inj h
          cases hlt : lt curr.float0 (calls i).val with
          | true => exact Or.inl ⟨rfl, rfl⟩
          | false => exact Or.inr (Or.inl ⟨rfl, hmem, rfl, rfl⟩)
        · rw [if_neg hmem] at h
          cases h
      · rw [if_neg hcheck] at h
        exact Or.inl ⟨rfl, (Option.some.inj h).symm⟩
  | entered =>
      rw [hpc] at h
      exact Or.inr (Or.inr (Or.inl ⟨rfl, (Option.some.inj h).symm⟩))
  | looping loctest =>
      rw [hpc] at h
      dsimp only at h
      cases hlt : lt loctest.float0 (calls i).val with
      | true =>
          rw [hlt, if_pos rfl] at h
          exact Or.inr (Or.inr (Or.inr (Or.inl ⟨loctest, rfl, hlt, (Option.some.inj h).symm⟩)))
      | false =>
          rw [hlt, if_neg (by decide)] at h
          exact Or.inr (Or.inr (Or.inr (Or.inr ⟨loctest, rfl, hlt, (Option.some.inj h).symm⟩)))
  | returned =>
      rw [hpc] at h
      cases h

/-- A swap that succeeds. -/
theorem swap_of_eq {loc : MpWord} : s.swap i s.entry loc =
    { entry := loc
      pc := Function.update s.pc i (.looping s.entry)
      history := loc :: s.history
      attempts := Function.update s.attempts i (s.attempts i + 1) } := by
  unfold State.swap doAtomicCas
  simp only [if_true]

/-- A swap that fails. -/
theorem swap_of_ne {loctest loc : MpWord} (hne : s.entry ≠ loctest) : s.swap i loctest loc =
    { s with
      pc := Function.update s.pc i (.looping s.entry)
      attempts := Function.update s.attempts i (s.attempts i + 1) } := by
  unfold State.swap doAtomicCas
  simp only [if_neg hne]

/-! ## What a turn keeps -/

/-- The calls after one of them has changed. -/
theorem callInv_update {history : List MpWord} {attempts : ι → ℕ} {pcs : ι → Pc} {n : ℕ} {pc : Pc}
    (hi : CallInv (calls i) history n pc) (hothers : ∀ j, j ≠ i → CallInv (calls j) history (attempts j) (pcs j))
    (j : ι) : CallInv (calls j) history (Function.update attempts i n j) (Function.update pcs i pc j) := by
  by_cases hj : j = i
  · subst hj
    rwa [Function.update_self, Function.update_self]
  · rw [Function.update_of_ne hj, Function.update_of_ne hj]
    exact hothers j hj

/-- A call that moves on without a swap. -/
theorem Inv.setPc (h : Inv calls init s) {pc : Pc} (hpc : CallInv (calls i) s.history (s.attempts i) pc) :
    Inv calls init (s.setPc i pc) where
  latest := h.latest
  rising := h.rising
  written := h.written
  call := by
    intro j
    have hj := callInv_update hpc (fun j _ => h.call j) j
    rwa [Function.update_eq_self] at hj

/-- **A swap that fails** has a word that is behind, and gives the latest one. -/
theorem Inv.swap_ne (h : Inv calls init s) {loctest : MpWord} (hpc : s.pc i = .looping loctest)
    (hne : s.entry ≠ loctest) : Inv calls init (s.swap i loctest (calls i).loc) := by
  obtain ⟨rest, hrest⟩ := h.latest
  have hcall := h.call i
  rw [hpc] at hcall
  obtain ⟨-, hle, hlt⟩ := hcall
  have hbehind : 0 < s.history.idxOf loctest := by
    rw [hrest]
    exact idxOf_pos (Ne.symm hne)
  have hhead := h.idxOf_entry
  rw [swap_of_ne hne]
  refine ⟨h.latest, h.rising, h.written, callInv_update ⟨h.entry_mem, ?_, fun hloc => ?_⟩ fun j _ => h.call j⟩
  · dsimp only
    rw [hhead]
    omega
  · have hold := hlt hloc
    dsimp only
    rw [hhead]
    omega

/-- **A swap that succeeds** writes a word with a larger value, and leaves its call one word behind. -/
theorem Inv.swap_eq (h : Inv calls init s) (hpc : s.pc i = .looping s.entry)
    (hlt : s.entry.value < (calls i).loc.value) : Inv calls init (s.swap i s.entry (calls i).loc) := by
  obtain ⟨rest, hrest⟩ := h.latest
  have hrising := h.rising
  have hcall := h.call i
  rw [hpc] at hcall
  obtain ⟨hmem, -, hless⟩ := hcall
  have hnew : (calls i).loc ∉ s.history := by
    rw [hrest] at hrising ⊢
    exact hrising.notMem hlt
  have hhead := h.idxOf_entry
  have hone : ((calls i).loc :: s.history).idxOf s.entry = 1 := by
    rw [idxOf_push (ne_of_mem_of_not_mem hmem hnew), hhead]
  have hattempts := hless hnew
  rw [hhead] at hattempts
  rw [swap_of_eq]
  refine ⟨⟨s.history, rfl⟩, ?_, fun w hw => ?_, ?_⟩
  · dsimp only
    rw [hrest] at hrising ⊢
    exact hrising.push hlt
  · rcases List.mem_cons.mp hw with rfl | hw
    · exact Or.inr ⟨i, rfl⟩
    · exact h.written w hw
  · refine callInv_update ⟨List.mem_cons_of_mem _ hmem, ?_, fun hloc => absurd List.mem_cons_self hloc⟩
      fun j _ => (h.call j).push hnew
    rw [hone, List.length_cons]
    omega

section
variable (hinit : isNaN init.float0 = false) (hcalls : ∀ i, isNaN (calls i).val = false)
include hinit hcalls

/-- **What a turn keeps.** -/
theorem inv_turn (h : Inv calls init s) (hturn : turn calls s (i, curr) = some s') : Inv calls init s' := by
  have hcall := h.call i
  rcases turn_cases hturn with ⟨hpc, rfl⟩ | ⟨hpc, hcurr, hlt, rfl⟩ | ⟨hpc, rfl⟩ | ⟨loctest, hpc, hlt, rfl⟩ |
    ⟨loctest, hpc, hlt, rfl⟩
  · -- the check calls for the update, or there is none
    rw [hpc] at hcall
    exact h.setPc hcall
  · -- the value that was read before is not smaller
    rw [hpc] at hcall
    refine h.setPc ⟨⟨curr, hcurr, ?_⟩, hcall.le.trans (Nat.zero_le _)⟩
    have hnot := mt (h.lt_iff hinit hcalls hcurr).mpr (Bool.eq_false_iff.mp hlt)
    exact not_lt.mp hnot
  · -- the first read is of the latest word
    rw [hpc] at hcall
    have hpos : 0 < s.history.length := List.length_pos_of_mem h.entry_mem
    have hlt : s.attempts i + s.history.idxOf s.entry < s.history.length := by
      rwa [show s.attempts i = 0 from hcall, h.idxOf_entry]
    exact h.setPc ⟨h.entry_mem, hlt.le, fun _ => hlt⟩
  · by_cases heq : s.entry = loctest
    · subst heq
      exact h.swap_eq hpc ((h.lt_iff hinit hcalls h.entry_mem).mp hlt)
    · exact h.swap_ne hpc heq
  · rw [hpc] at hcall
    obtain ⟨hmem, hle, -⟩ := hcall
    have hnot := mt (h.lt_iff hinit hcalls hmem).mpr (Bool.eq_false_iff.mp hlt)
    exact h.setPc ⟨⟨loctest, hmem, not_lt.mp hnot⟩, (Nat.le_add_right _ _).trans hle⟩

/-- **The invariant of every run.** -/
theorem inv_run {turns : List (ι × MpWord)} (h : Inv calls init s) (hrun : run calls s turns = some s') :
    Inv calls init s' :=
  invariant_of_run (fun _ _ _ h hturn => inv_turn hinit hcalls h hturn) hrun h

end

/-- The words a turn leaves behind stay in the history. -/
theorem turn_history (hturn : turn calls s (i, curr) = some s') : s.history <:+ s'.history := by
  rcases turn_cases hturn with ⟨-, rfl⟩ | ⟨-, -, -, rfl⟩ | ⟨-, rfl⟩ | ⟨loctest, -, -, rfl⟩ | ⟨loctest, -, -, rfl⟩
  · exact List.suffix_rfl
  · exact List.suffix_rfl
  · exact List.suffix_rfl
  · by_cases heq : s.entry = loctest
    · subst heq
      rw [swap_of_eq]
      exact List.suffix_cons _ _
    · rw [swap_of_ne heq]
  · exact List.suffix_rfl

theorem run_history {turns : List (ι × MpWord)} (hrun : run calls s turns = some s') :
    s.history <:+ s'.history :=
  invariant_of_run (I := fun t => s.history <:+ t.history)
    (fun _ _ _ h hturn => h.trans (turn_history hturn)) hrun List.suffix_rfl

/-! ## Attempts and turns -/

/-- How far a call has come when it has attempted no swap. -/
def Pc.stage : Pc → ℕ
  | .called => 0
  | .entered => 1
  | .looping _ => 2
  | .returned => 3

theorem Pc.stage_le (pc : Pc) : pc.stage ≤ 3 := by
  cases pc with
  | called => exact Nat.zero_le 3
  | entered => exact Nat.le_add_left 1 2
  | looping _ => exact Nat.le_succ 2
  | returned => exact le_rfl

/-- How far call `i` has come. -/
def State.progress (s : State ι) (i : ι) : ℕ := s.attempts i + (s.pc i).stage

theorem progress_update {pc : Pc} {n : ℕ} (hattempts : s'.attempts = Function.update s.attempts i n)
    (hpc : s'.pc = Function.update s.pc i pc) : s'.progress = Function.update s.progress i (n + pc.stage) := by
  funext j
  unfold State.progress
  rw [hattempts, hpc]
  by_cases hj : j = i
  · subst hj
    rw [Function.update_self, Function.update_self, Function.update_self]
  · rw [Function.update_of_ne hj, Function.update_of_ne hj, Function.update_of_ne hj]

/-- **Every turn is progress** of its call, and of no other. -/
theorem turn_progress (hturn : turn calls s (i, curr) = some s') :
    ∃ n, s.progress i < n ∧ s'.progress = Function.update s.progress i n := by
  have hmove : ∀ pc : Pc, (s.pc i).stage < pc.stage →
      ∃ n, s.progress i < n ∧ (s.setPc i pc).progress = Function.update s.progress i n :=
    fun pc hlt => ⟨s.attempts i + pc.stage, Nat.add_lt_add_left hlt _,
      progress_update (Function.update_eq_self i s.attempts).symm rfl⟩
  rcases turn_cases hturn with ⟨hpc, rfl⟩ | ⟨hpc, -, -, rfl⟩ | ⟨hpc, rfl⟩ | ⟨loctest, hpc, -, rfl⟩ |
    ⟨loctest, hpc, -, rfl⟩
  · refine hmove _ ?_
    rw [hpc]
    exact Nat.lt_succ_self 0
  · refine hmove _ ?_
    rw [hpc]
    exact Nat.zero_lt_succ 2
  · refine hmove _ ?_
    rw [hpc]
    exact Nat.lt_succ_self 1
  · refine ⟨s.attempts i + 1 + (Pc.looping s.entry).stage, ?_, progress_update rfl rfl⟩
    unfold State.progress
    rw [hpc]
    exact Nat.lt_succ_self _
  · refine hmove _ ?_
    rw [hpc]
    exact Nat.lt_succ_self 2

section
variable [Fintype ι]

omit [DecidableEq ι] in
theorem Inv.progress_le (h : Inv calls init s) (i : ι) : s.progress i ≤ Fintype.card ι + 1 + 3 :=
  Nat.add_le_add (h.attempts_le i) (s.pc i).stage_le

theorem turn_sum (hturn : turn calls s (i, curr) = some s') : ∑ j, s.progress j < ∑ j, s'.progress j := by
  obtain ⟨n, hlt, hprogress⟩ := turn_progress hturn
  rw [hprogress]
  refine Finset.sum_lt_sum (fun j _ => le_update_self_iff.mpr hlt.le j) ⟨i, Finset.mem_univ i, ?_⟩
  rwa [Function.update_self]

/-- A run of `n` turns takes the calls `n` further. -/
theorem run_sum {turns : List (ι × MpWord)} (hrun : run calls s turns = some s') :
    ∑ j, s.progress j + turns.length ≤ ∑ j, s'.progress j := by
  induction turns generalizing s with
  | nil =>
      obtain rfl := Option.some.inj hrun
      exact le_rfl
  | cons t turns ih =>
      obtain ⟨u, hu, hrest⟩ := Option.bind_eq_some_iff.mp hrun
      have hlt := turn_sum (i := t.1) hu
      have hle := ih hrest
      rw [List.length_cons]
      omega

/-- **Every run ends**: whatever turns the calls take, there are no more than a bounded number of them. -/
theorem run_length_le {turns : List (ι × MpWord)} (h : Inv calls init s)
    (hrun : run calls (start init) turns = some s) :
    turns.length ≤ Fintype.card ι * (Fintype.card ι + 1 + 3) := by
  have hsum := run_sum hrun
  have hle : ∑ j, s.progress j ≤ Fintype.card ι * (Fintype.card ι + 1 + 3) :=
    Finset.sum_le_card_nsmul Finset.univ s.progress _ fun j _ => h.progress_le j
  omega

end

/-- A call that has not returned has a turn. -/
theorem exists_turn (h : Inv calls init s) (hpc : s.pc i ≠ .returned) :
    ∃ s', turn calls s (i, s.entry) = some s' := by
  unfold turn
  dsimp only
  cases hi : s.pc i with
  | called =>
      dsimp only
      by_cases hcheck : (calls i).check = true
      · rw [if_pos hcheck, if_pos h.entry_mem]
        exact ⟨_, rfl⟩
      · rw [if_neg hcheck]
        exact ⟨_, rfl⟩
  | entered => exact ⟨_, rfl⟩
  | looping loctest =>
      dsimp only
      split
      · exact ⟨_, rfl⟩
      · exact ⟨_, rfl⟩
  | returned => exact absurd hi hpc

/-! ## Runs -/

section
variable [Fintype ι] {turns : List (ι × MpWord)} (hinit : isNaN init.float0 = false)
  (hcalls : ∀ i, isNaN (calls i).val = false)
include hinit hcalls

/-- **Every run can be completed.** -/
theorem exists_returned (h : Inv calls init s) :
    ∃ turns s', run calls s turns = some s' ∧ ∀ i, s'.pc i = .returned := by
  -- by induction on the turns that are left
  induction hn : Fintype.card ι * (Fintype.card ι + 1 + 3) - ∑ j, s.progress j using
    Nat.strong_induction_on generalizing s with
  | _ n ih =>
      by_cases hall : ∀ i, s.pc i = .returned
      · exact ⟨[], s, rfl, hall⟩
      · obtain ⟨i, hi⟩ := not_forall.mp hall
        obtain ⟨u, hu⟩ := exists_turn h hi
        have hinv := inv_turn hinit hcalls h hu
        have hlt := turn_sum hu
        have hle : ∑ j, u.progress j ≤ Fintype.card ι * (Fintype.card ι + 1 + 3) :=
          Finset.sum_le_card_nsmul Finset.univ u.progress _ fun j _ => hinv.progress_le j
        obtain ⟨turns, s', hrun, hreturned⟩ := ih _ (by omega) hinv rfl
        refine ⟨(i, s.entry) :: turns, s', ?_, hreturned⟩
        exact Option.bind_eq_some_iff.mpr ⟨u, hu, hrun⟩

/-- **The calls of `MPatomicMax` on one entry**, under every schedule: the entry is the initial one or that of
    one call, its value never falls and is the maximum in the end, and each call attempts a bounded number of
    swaps. -/
theorem run_mpAtomicMax (hrun : run calls (start init) turns = some s) :
    (s.entry = init ∨ ∃ i, s.entry.float0 = (calls i).val ∧ s.entry.int1 = (calls i).idx) ∧
    (∀ later s', run calls s later = some s' → s.entry.value ≤ s'.entry.value) ∧
    ((∀ i, s.pc i = .returned) →
      IsGreatest (insert init.value (Set.range fun i => value (calls i).val)) s.entry.value) ∧
    ∀ i, s.attempts i ≤ Fintype.card ι + 1 := by
  have hinv := inv_run hinit hcalls (inv_start calls init) hrun
  refine ⟨?_, fun later s' hlater => ?_, fun hall => ⟨?_, ?_⟩, hinv.attempts_le⟩
  · rcases hinv.written s.entry hinv.entry_mem with hentry | ⟨i, hentry⟩
    · exact Or.inl hentry
    · refine Or.inr ⟨i, ?_⟩
      rw [hentry]
      exact ⟨float0_of _ _, int1_of _ _⟩
  · have hlast := inv_run hinit hcalls hinv hlater
    exact hlast.le_entry ((run_history hlater).subset hinv.entry_mem)
  · rcases hinv.written s.entry hinv.entry_mem with hentry | ⟨i, hentry⟩
    · exact Set.mem_insert_iff.mpr (Or.inl (congrArg MpWord.value hentry))
    · refine Set.mem_insert_of_mem _ ⟨i, ?_⟩
      rw [hentry, value_loc]
  · rintro x (rfl | ⟨i, rfl⟩)
    · exact hinv.le_entry ((run_history hrun).subset List.mem_cons_self)
    · show value (calls i).val ≤ s.entry.value
      rw [← value_loc]
      exact hinv.loc_le_entry (hall i)

end

end

/-! ## Exact arithmetic -/

/-- The entry as `Gpu.Atomics` has it. -/
def MpWord.toEntry (e : MpWord) : MpEntry ℚ := ⟨.num (toRat e.float0), .ofBitVec e.int1⟩

/-- The operation of a call in `Gpu.Atomics`. -/
def Call.applyTo (c : Call) (e : MpEntry ℚ) : MpEntry ℚ := mpAtomicMax e (.num (toRat c.val)) (.ofBitVec c.idx)

theorem applyTo_toEntry {c : Call} {e : MpWord} (hc : isNaN c.val = false) (he : isNaN e.float0 = false) :
    c.applyTo e.toEntry = (raise MpWord.value e c.loc).toEntry := by
  have hlt : toRat e.float0 < toRat c.val ↔ e.value < c.loc.value := by
    rw [toRat_lt_iff, value_loc]
    exact (value_lt_iff he hc).symm
  have hgt : (Dbl.num (toRat c.val)).gt e.toEntry.value = decide (toRat e.float0 < toRat c.val) := rfl
  unfold Call.applyTo mpAtomicMax raise
  rw [hgt]
  by_cases h : e.value < c.loc.value
  · rw [if_pos h, if_pos (decide_eq_true (hlt.mpr h))]
    unfold MpWord.toEntry Call.loc
    rw [float0_of, int1_of]
  · rw [if_neg h, if_neg fun hdec => h (hlt.mp (of_decide_eq_true hdec))]

/-- Operations one after the other raise the word. -/
theorem foldl_applyTo {ι : Type} {calls : ι → Call} (hcalls : ∀ i, isNaN (calls i).val = false) (order : List ι)
    {e : MpWord} (he : isNaN e.float0 = false) :
    order.foldl (fun e i => (calls i).applyTo e) e.toEntry =
      (order.foldl (fun e i => raise MpWord.value e (calls i).loc) e).toEntry := by
  induction order generalizing e with
  | nil => rfl
  | cons i order ih =>
      rw [List.foldl_cons, List.foldl_cons, applyTo_toEntry (hcalls i) he]
      refine ih ?_
      -- the word is still a number: the old one, or that of the call
      unfold raise
      split
      · unfold Call.loc
        rw [float0_of]
        exact hcalls i
      · exact he

/-- **Refinement.** When all calls have returned, the entry is what `Gpu.Atomics` makes of it when each call is
    one operation, in some order of the calls. -/
theorem run_linearized {ι : Type} [DecidableEq ι] [Fintype ι] {calls : ι → Call} {init : MpWord} {s : State ι}
    {turns : List (ι × MpWord)} (hinit : isNaN init.float0 = false) (hcalls : ∀ i, isNaN (calls i).val = false)
    (hrun : run calls (start init) turns = some s) (hall : ∀ i, s.pc i = .returned) :
    ∃ order : List ι, order.Nodup ∧ (∀ i, i ∈ order) ∧
      s.entry.toEntry = order.foldl (fun e i => (calls i).applyTo e) init.toEntry := by
  have hinv := inv_run hinit hcalls (inv_start calls init) hrun
  obtain ⟨later, hlater⟩ := run_history hrun
  obtain ⟨rest, hrest⟩ := hinv.latest
  have hrising := hinv.rising
  rw [← hlater] at hrising
  have hhead : (later ++ [init]).head? = some s.entry := by
    rw [show later ++ [init] = s.history from hlater, hrest]
    rfl
  -- each word of the history is that of a call, and the last one is the largest
  have hfrom : ∀ w ∈ later, w = init ∨ ∃ i, w = (calls i).loc := fun w hw =>
    hinv.written w (hlater ▸ List.mem_append_left _ hw)
  have hlast : ∀ i, (calls i).loc.value ≤ s.entry.value := fun i => hinv.loc_le_entry (hall i)
  obtain ⟨order, hnodup, hmem, hfold⟩ := hrising.exists_order hfrom hhead hlast
  refine ⟨order, hnodup, hmem, ?_⟩
  rw [foldl_applyTo hcalls order hinit, hfold]

/-! ## Two calls -/

/-- Calls with 2 and 3, the second after a check. -/
def contendedCalls : Fin 2 → Call := ![⟨0x40000000#32, 5#32, false⟩, ⟨0x40400000#32, 7#32, true⟩]

/-- An entry at 1. -/
def contendedEntry : MpWord := .of 0x3f800000#32 0#32

/-- Both read the entry before the first of them writes. -/
def contendedTurns : List (Fin 2 × MpWord) := [0, 1, 0, 1, 0, 1, 1, 0, 0, 1, 1].map fun i => (i, contendedEntry)

/-- Two calls in each other's way: the second takes all the attempts it may need. -/
theorem run_mpAtomicMax_contended :
    ∃ s, run contendedCalls (start contendedEntry) contendedTurns = some s ∧ s.attempts 1 = 3 ∧
      IsGreatest (insert contendedEntry.value (Set.range fun i => value (contendedCalls i).val))
        s.entry.value := by
  obtain ⟨s, hs⟩ := Option.isSome_iff_exists.mp
    (show (run contendedCalls (start contendedEntry) contendedTurns).isSome = true by decide)
  have hend : (run contendedCalls (start contendedEntry) contendedTurns).all
      (fun s => decide (s.attempts 1 = 3 ∧ ∀ i, s.pc i = .returned)) = true := by decide
  rw [hs] at hend
  obtain ⟨hattempts, hall⟩ := of_decide_eq_true hend
  exact ⟨s, hs, hattempts, (run_mpAtomicMax (by decide) (by decide) hs).2.2.1 hall⟩

end AtomicBits

end Scamp
