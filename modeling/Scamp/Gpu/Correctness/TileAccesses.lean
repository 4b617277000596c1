import Scamp.Gpu.Correctness.Offers
import Scamp.Gpu.Correctness.Threads
import Scamp.Core.Correctness.KernelRun

/-!
# `Gpu.Correctness.TileAccesses` — what accesses offer

When a list of accesses offers the correlations of some cells, each to the entry of its column and to that of
its row, and nothing else (`TileOffers`), and which accesses a call of `do_iteration_fast` makes: each column
and each row of its parallelogram is flushed with the register it has in the end (`mem_call_iff`).
-/

namespace Scamp

open Lib

namespace SlidingWindow

namespace DoTile

section
variable {K : Type} [Field K] [LinearOrder K]

/-! ## Cells and hits -/

/-- The correlation of a cell of the pass, by the recurrence of the kernel. -/
def Launch.corr (L : Launch K) (row col : ℕ) : Dbl K :=
  ((Dbl.num (covAt L.args L.cov row (col - row))).mul (L.args.normsa col)).mul (L.args.normsb row)

/-- The position of a cell on a side, and that of its match. -/
def cellPos : Side → ℕ × ℕ → ℕ
  | .a => Prod.snd
  | .b => Prod.fst

def cellMatch : Side → ℕ × ℕ → ℕ
  | .a => Prod.fst
  | .b => Prod.snd

/-- What some cells offer a position of a side. -/
def sideHits (L : Launch K) (cells : Set (ℕ × ℕ)) (side : Side) (pos : ℕ) : Set (Hit K) :=
  {h | ∃ z ∈ cells, cellPos side z = pos ∧ L.corr z.1 z.2 = .num h.corr ∧ cellMatch side z = h.pos}

theorem sideHits_mono {L : Launch K} {cells cells' : Set (ℕ × ℕ)} (h : cells ⊆ cells') (side : Side) (pos : ℕ) :
    sideHits L cells side pos ⊆ sideHits L cells' side pos := by
  rintro x ⟨z, hz, hrest⟩
  exact ⟨z, h hz, hrest⟩

/-- The cells of a thread in `n` rows from `row` on. -/
def rowsCells (L : Launch K) (block thread row n : ℕ) : Set (ℕ × ℕ) :=
  {z | (row ≤ z.1 ∧ z.1 < row + n) ∧ z ∈ slidingLane L.cfg L.dims (startDiag L.cfg L.dims block thread) z.1}

omit [Field K] in
theorem rowsCells_add (L : Launch K) (block thread row n m : ℕ) :
    rowsCells L block thread row (n + m) =
      rowsCells L block thread row n ∪ rowsCells L block thread (row + n) m := by
  ext z
  constructor
  · rintro ⟨⟨hle, hlt⟩, hz⟩
    rcases Nat.lt_or_ge z.1 (row + n) with hfirst | hsecond
    · exact Or.inl ⟨⟨hle, hfirst⟩, hz⟩
    · exact Or.inr ⟨⟨hsecond, by omega⟩, hz⟩
  · rintro (⟨⟨hle, hlt⟩, hz⟩ | ⟨⟨hle, hlt⟩, hz⟩) <;> exact ⟨⟨by omega, by omega⟩, hz⟩

/-! ## What a list of accesses offers -/

/-- Each `flush` comes after its `check`. -/
def Guarded (accesses : List (Access K)) : Prop :=
  ∀ pre side slot best post, accesses = pre ++ .flush side slot best :: post → .check side slot ∈ pre

omit [Field K] [LinearOrder K] in
theorem guarded_append {l l' : List (Access K)} (h : Guarded l) (h' : Guarded l') : Guarded (l ++ l') := by
  intro pre side slot best post heq
  rcases List.append_eq_append_iff.mp heq with ⟨mid, rfl, hmid⟩ | ⟨mid, rfl, hmid⟩
  · exact List.mem_append_right _ (h' mid side slot best post hmid)
  · cases mid with
    | nil => exact absurd (h' [] side slot best post hmid.symm) List.not_mem_nil
    | cons x mid =>
        obtain ⟨rfl, rfl⟩ := List.cons.inj hmid
        exact h pre side slot best mid rfl

omit [Field K] [LinearOrder K] in
theorem guarded_of_noFlush {l : List (Access K)} (h : ∀ side slot best, .flush side slot best ∉ l) : Guarded l := by
  rintro pre side slot best post rfl
  exact absurd (List.mem_append_right _ List.mem_cons_self) (h side slot best)

/-- The registers that are flushed hold numbers. -/
def Access.Sound : Access K → Prop
  | .load _ _ _ | .store _ _ _ | .copyLengths => False
  | .flush _ _ best => ∃ w, best.value = .num w
  | .reduceRow _ distRow => ∃ w, distRow.value = .num w
  | .check _ _ | .reduceEdge _ _ _ => True

/-- Accesses that offer what `cells` have, each to the entry at its position, where `start` is the first
    position of a tile. -/
structure TileOffers (L : Launch K) (start : Side → ℕ) (cells : Set (ℕ × ℕ)) (accesses : List (Access K)) :
    Prop where
  sound : ∀ x ∈ accesses, x.Sound
  genuine : ∀ x ∈ accesses, ∀ side slot o, x.offer = some (side, slot, o) →
    (L.computing side = true ∧ slot < L.extent side ∧ start side + slot < L.size side) ∧
      Genuine (keepsIndex L.type) (sideHits L cells side (start side + slot)) o
  covers : ∀ z ∈ cells, ∀ side, L.computing side = true → ∀ w, L.corr z.1 z.2 = .num w →
    ∃ x ∈ accesses, ∃ o, x.offer = some (side, cellPos side z - start side, o) ∧ AtLeast w o
  guarded : Guarded accesses

theorem tileOffers_nil (L : Launch K) (start : Side → ℕ) : TileOffers L start ∅ [] where
  sound := fun _ hx => absurd hx List.not_mem_nil
  genuine := fun _ hx => absurd hx List.not_mem_nil
  covers := fun _ hz => absurd hz (Set.notMem_empty _)
  guarded := guarded_of_noFlush fun _ _ _ => List.not_mem_nil

theorem TileOffers.append {L : Launch K} {start : Side → ℕ} {cells cells' : Set (ℕ × ℕ)} {l l' : List (Access K)}
    (h : TileOffers L start cells l) (h' : TileOffers L start cells' l') :
    TileOffers L start (cells ∪ cells') (l ++ l') where
  sound := fun x hx => (List.mem_append.mp hx).elim (h.sound x) (h'.sound x)
  genuine := by
    intro x hx side slot o ho
    rcases List.mem_append.mp hx with hx | hx
    · obtain ⟨hin, hgenuine⟩ := h.genuine x hx side slot o ho
      exact ⟨hin, hgenuine.mono (sideHits_mono Set.subset_union_left _ _)⟩
    · obtain ⟨hin, hgenuine⟩ := h'.genuine x hx side slot o ho
      exact ⟨hin, hgenuine.mono (sideHits_mono Set.subset_union_right _ _)⟩
  covers := by
    intro z hz side hon w hw
    rcases hz with hz | hz
    · obtain ⟨x, hx, ho⟩ := h.covers z hz side hon w hw
      exact ⟨x, List.mem_append_left _ hx, ho⟩
    · obtain ⟨x, hx, ho⟩ := h'.covers z hz side hon w hw
      exact ⟨x, List.mem_append_right _ hx, ho⟩
  guarded := guarded_append h.guarded h'.guarded

/-! ## The registers of a call -/

section
variable {k : Instance K} {lane : ℕ} {peers : ℕ → ℕ → Dbl K} {raw : RawRegisters K} {info : SCAMPThreadInfo K}
  {smem : SCAMPSmem K} {s s' st : IterationState K}

/-- A register that a statement does not merge into stays as it is. -/
theorem bestCol_of_not_reaches {p : ℕ} {x : IterationStep} (hstep : execStep k lane peers s x = some s')
    (hx : ¬ReachesCol k p x) : s'.bestCol p = s.bestCol p := by
  cases x with
  | loadWindow | slideWindow j | loadRows j =>
      obtain ⟨loaded, -, hloaded⟩ := Option.bind_eq_some_iff.mp hstep
      obtain rfl := Option.some.inj hloaded
      rfl
  | doRow j r =>
      obtain rfl := Option.some.inj hstep
      show (if k.computeCols then mergeToColumn k _ _ s.bestCol _ else s.bestCol) p = _
      split
      · exact if_neg hx
      · rfl
  | updateCols start num | updateRows start num =>
      simp only [execStep] at hstep
      split at hstep
      · obtain rfl := Option.some.inj hstep
        rfl
      · cases hstep

theorem bestRow_of_not_reaches {row : ℕ} {x : IterationStep} (hstep : execStep k lane peers s x = some s')
    (hx : ¬ReachesRow k row x) : s'.bestRow row = s.bestRow row := by
  cases x with
  | loadWindow | slideWindow j | loadRows j =>
      obtain ⟨loaded, -, hloaded⟩ := Option.bind_eq_some_iff.mp hstep
      obtain rfl := Option.some.inj hloaded
      rfl
  | doRow j r =>
      obtain rfl := Option.some.inj hstep
      show (if k.computeRows then Function.update s.bestRow _ _ else s.bestRow) row = _
      split
      · exact Function.update_of_ne (fun h => hx h.symm) _ _
      · rfl
  | updateCols start num | updateRows start num =>
      simp only [execStep] at hstep
      split at hstep
      · obtain rfl := Option.some.inj hstep
        rfl
      · cases hstep

omit [Field K] in
/-- The columns that a call flushes. -/
theorem updateCols_mem {start num : ℕ} (h : .updateCols start num ∈ iterationSteps k) :
    k.computeCols = true ∧ start + num ≤ k.unrolledCols := by
  have hD := k.diags_pos
  have hwidth : k.unrolledCols = k.diagsPerThread + k.outerUnrolledRows - 1 := rfl
  unfold iterationSteps at h
  rcases List.mem_append.mp h with h | h
  · rcases List.mem_append.mp h with h | h
    · cases List.mem_singleton.mp h
    · obtain ⟨j, hj, h⟩ := List.mem_flatMap.mp h
      obtain ⟨hon, rfl, rfl⟩ : k.computeCols = true ∧ start = j * k.unrolledRows ∧ num = k.unrolledRows := by
        simpa [batchSteps] using h
      have hmul := Nat.mul_le_mul_right k.unrolledRows (Nat.succ_le_of_lt (List.mem_range.mp hj))
      rw [Nat.succ_mul, outerIters_mul] at hmul
      exact ⟨hon, by omega⟩
  · split at h
    · next hon =>
        cases List.mem_singleton.mp h
        exact ⟨hon, by omega⟩
    · cases h

omit [Field K] in
/-- The rows that a call flushes. -/
theorem updateRows_mem {rowIter num : ℕ} (h : .updateRows rowIter num ∈ iterationSteps k) :
    k.computeRows = true ∧ rowIter + num ≤ k.outerUnrolledRows := by
  unfold iterationSteps at h
  rcases List.mem_append.mp h with h | h
  · rcases List.mem_append.mp h with h | h
    · cases List.mem_singleton.mp h
    · obtain ⟨j, hj, h⟩ := List.mem_flatMap.mp h
      obtain ⟨hon, rfl, rfl⟩ : k.computeRows = true ∧ rowIter = j * k.unrolledRows ∧ num = k.unrolledRows := by
        simpa [batchSteps] using h
      have hmul := Nat.mul_le_mul_right k.unrolledRows (Nat.succ_le_of_lt (List.mem_range.mp hj))
      rw [Nat.succ_mul, outerIters_mul] at hmul
      exact ⟨hon, hmul⟩
  · split at h
    · cases List.mem_singleton.mp h
    · cases h

/-- **A call collects its accesses** while the loops of `do_iteration_fast` run. -/
theorem doIterationFast_eq : doIterationFast k lane peers raw info smem =
    (runIteration k lane peers raw info smem).map fun st => (st.info.advance k.outerUnrolledRows,
      emitted (execStep k lane peers) (stepAccesses k lane peers) (iterationSteps k)
        (startIteration k raw info smem)) := by
  unfold doIterationFast
  rw [foldlM_collect]
  unfold runIteration
  cases (iterationSteps k).foldlM (execStep k lane peers) (startIteration k raw info smem) <;> rfl

omit [Field K] [LinearOrder K] in
/-- Checks before the flushes they are for. -/
theorem guarded_of_checks {checks flushes : List (Access K)}
    (hchecks : ∀ side slot best, .flush side slot best ∉ checks)
    (hflushes : ∀ side slot best, .flush side slot best ∈ flushes → .check side slot ∈ checks) :
    Guarded (checks ++ flushes) := by
  intro pre side slot best post heq
  rcases List.append_eq_append_iff.mp heq with ⟨mid, rfl, hmid⟩ | ⟨mid, rfl, hmid⟩
  · refine List.mem_append_left _ (hflushes side slot best ?_)
    rw [hmid]
    exact List.mem_append_right _ List.mem_cons_self
  · cases mid with
    | nil =>
        rw [List.append_nil] at hflushes
        exact hflushes side slot best (by rw [← List.nil_append flushes, ← hmid]; exact List.mem_cons_self)
    | cons x mid =>
        obtain ⟨rfl, rfl⟩ := List.cons.inj hmid
        exact absurd (List.mem_append_right _ List.mem_cons_self) (hchecks side slot best)

section
variable (htype : k.type ≠ .sumThresh)
include htype

omit [Field K] in
theorem mem_flushAccesses {side : Side} {start n : ℕ} {best : ℕ → MpEntry K} {x : Access K} :
    x ∈ flushAccesses k side start n best ↔
      ∃ i < n, x = .check side (start + i) ∨ x = .flush side (start + i) (best i) := by
  unfold flushAccesses
  rw [if_neg htype, List.mem_append]
  simp only [List.mem_map, List.mem_range]
  constructor
  · rintro (⟨i, hi, rfl⟩ | ⟨i, hi, rfl⟩)
    · exact ⟨i, hi, Or.inl rfl⟩
    · exact ⟨i, hi, Or.inr rfl⟩
  · rintro ⟨i, hi, rfl | rfl⟩
    · exact Or.inl ⟨i, hi, rfl⟩
    · exact Or.inr ⟨i, hi, rfl⟩

omit [Field K] in
theorem guarded_flushAccesses (side : Side) (start n : ℕ) (best : ℕ → MpEntry K) :
    Guarded (flushAccesses k side start n best) := by
  unfold flushAccesses
  rw [if_neg htype]
  refine guarded_of_checks (fun side' slot best' h => ?_) fun side' slot best' h => ?_
  · obtain ⟨i, -, h⟩ := List.mem_map.mp h
    cases h
  · obtain ⟨i, hi, h⟩ := List.mem_map.mp h
    cases h
    exact List.mem_map_of_mem hi

/-- Whatever the registers are, a call reads each entry before it merges into it. -/
theorem guarded_emitted (steps : List IterationStep) (s : IterationState K) :
    Guarded (emitted (execStep k lane peers) (stepAccesses k lane peers) steps s) := by
  induction steps generalizing s with
  | nil => exact guarded_of_noFlush fun _ _ _ => List.not_mem_nil
  | cons x steps ih =>
      refine guarded_append ?_ ?_
      · cases x with
        | updateCols start num => exact guarded_flushAccesses htype _ _ _ _
        | updateRows start num =>
            simp only [stepAccesses, if_neg htype]
            exact guarded_flushAccesses htype _ _ _ _
        | _ => exact guarded_of_noFlush fun _ _ _ => List.not_mem_nil
      · cases execStep k lane peers s x with
        | none => exact guarded_of_noFlush fun _ _ _ => List.not_mem_nil
        | some t => exact ih t

variable (hrun : runIteration k lane peers raw info smem = some st)
include hrun

/-- **The accesses of a call**: its columns and its rows, each with its register. -/
theorem mem_call_iff {x : Access K} : x ∈ emitted (execStep k lane peers) (stepAccesses k lane peers)
      (iterationSteps k) (startIteration k raw info smem) ↔
    (k.computeCols = true ∧ ∃ p < k.unrolledCols,
      x = .check .a (info.localCol + p) ∨ x = .flush .a (info.localCol + p) (st.bestCol p)) ∨
    (k.computeRows = true ∧ ∃ row < k.outerUnrolledRows,
      x = .check .b (info.localRow + row) ∨ x = .flush .b (info.localRow + row) (st.bestRow row)) := by
  -- a call does not move, and a register that is flushed is final
  have hpos : ∀ {pre : List IterationStep} {t : IterationState K},
      pre.foldlM (execStep k lane peers) (startIteration k raw info smem) = some t → Moved info 0 t.info :=
    fun hpre => invariant_of_run (I := fun st => Moved info 0 st.info) (fun _ _ _ => moved_execStep) hpre
      ⟨rfl, rfl, rfl, rfl⟩
  have hcol : ∀ {pre post : List IterationStep} {t : IterationState K} {start num p : ℕ},
      iterationSteps k = pre ++ .updateCols start num :: post →
      (IterationStep.updateCols start num :: post).foldlM (execStep k lane peers) t = some st →
      k.computeCols = true → p < k.unrolledCols → start ≤ p ∧ p < start + num → t.bestCol p = st.bestCol p :=
    fun {_ _ _ _ _ p} hsplit hpost hon hp hflush => (flushedOnce_col hon hp).final (f := fun s => s.bestCol p)
      (fun _ _ _ => bestCol_of_not_reaches) hsplit hflush id hpost
  have hrow : ∀ {pre post : List IterationStep} {t : IterationState K} {start num row : ℕ},
      iterationSteps k = pre ++ .updateRows start num :: post →
      (IterationStep.updateRows start num :: post).foldlM (execStep k lane peers) t = some st →
      k.computeRows = true → row < k.outerUnrolledRows → start ≤ row ∧ row < start + num →
        t.bestRow row = st.bestRow row :=
    fun {_ _ _ _ _ row} hsplit hpost hon hp hflush => (flushedOnce_row hon hp).final (f := fun s => s.bestRow row)
      (fun _ _ _ => bestRow_of_not_reaches) hsplit hflush id hpost
  rw [mem_emitted hrun]
  constructor
  · rintro ⟨pre, y, post, t, hsplit, hpre, hpost, hx⟩
    have hmem : y ∈ iterationSteps k := hsplit ▸ List.mem_append_right _ List.mem_cons_self
    cases y with
    | updateCols start num =>
        obtain ⟨hon, hle⟩ := updateCols_mem hmem
        obtain ⟨i, hi, hx⟩ := (mem_flushAccesses htype).mp hx
        rw [(hpos hpre).localCol, Nat.add_zero, hcol hsplit hpost hon (by omega) (by omega), Nat.add_assoc] at hx
        exact Or.inl ⟨hon, start + i, by omega, hx⟩
    | updateRows start num =>
        obtain ⟨hon, hle⟩ := updateRows_mem hmem
        simp only [stepAccesses, if_neg htype] at hx
        obtain ⟨i, hi, hx⟩ := (mem_flushAccesses htype).mp hx
        rw [(hpos hpre).localRow, Nat.add_zero, hrow hsplit hpost hon (by omega) (by omega), Nat.add_assoc] at hx
        exact Or.inr ⟨hon, start + i, by omega, hx⟩
    | _ => cases hx
  · -- the statement that flushes the register
    rintro (⟨hon, p, hp, hx⟩ | ⟨hon, row, hp, hx⟩)
    · obtain ⟨y, hy, hflush⟩ := (flushedOnce_col hon hp).exists_mem
      obtain ⟨pre, post, t, hsplit, hpre, hpost⟩ := split_run hrun hy
      refine ⟨pre, y, post, t, hsplit, hpre, hpost, ?_⟩
      cases y with
      | updateCols start num =>
          refine (mem_flushAccesses htype).mpr ⟨p - start, by have := hflush.1; have := hflush.2; omega, ?_⟩
          rwa [(hpos hpre).localCol, Nat.add_zero, Nat.add_assoc, Nat.add_sub_cancel' hflush.1,
            hcol hsplit hpost hon hp hflush]
      | _ => exact hflush.elim
    · obtain ⟨y, hy, hflush⟩ := (flushedOnce_row hon hp).exists_mem
      obtain ⟨pre, post, t, hsplit, hpre, hpost⟩ := split_run hrun hy
      refine ⟨pre, y, post, t, hsplit, hpre, hpost, ?_⟩
      cases y with
      | updateRows start num =>
          simp only [stepAccesses, if_neg htype]
          refine (mem_flushAccesses htype).mpr ⟨row - start, by have := hflush.1; have := hflush.2; omega, ?_⟩
          rwa [(hpos hpre).localRow, Nat.add_zero, Nat.add_assoc, Nat.add_sub_cancel' hflush.1,
            hrow hsplit hpost hon hp hflush]
      | _ => exact hflush.elim

end

end

end

end DoTile

end SlidingWindow

end Scamp
