import Scamp.Gpu.Kernel
import Scamp.Core.Correctness.Cells

/-!
# `Gpu.Correctness.Threads` — the cells of a GPU thread

What a thread of either kernel does in a tile is, row by row, its `lane` (`doTile_worksLanes`,
`doTileShfl_worksLanes`): in `do_tile` a thread keeps its diagonals, whether a tile takes the fast path or
the slow one; in `do_tile_shfl` the threads keep their columns until these leave the block's meta-diagonal
on one side, and are then given those that come in on the other (`slotCol_succ`). Either way each cell of
the meta-diagonal is in the lane of one thread (`exists_lane_iff`, `lane_unique`).
-/

namespace Scamp

open Lib

section
variable {cfg : KernelConfig} {a : KernelDims}

/-! ## Tiles -/

section
variable {σ : Type} {work : ℕ → ℕ → σ → List (ℕ × ℕ) × σ} {col : ℕ}
  {lane : ℕ → List (ℕ × ℕ)} {Inv : ℕ → σ → Prop}

/-- The cells of a lane lie in the matrix, no further left than the row allows. -/
def LaneInMatrix (a : KernelDims) (col : ℕ) (lane : ℕ → List (ℕ × ℕ)) : Prop :=
  ∀ row, ∀ z ∈ lane row, z.1 = row ∧ row < a.nY ∧ col + row ≤ z.2 ∧ z.2 < a.nX

/-- In a tile a thread does its lane of each row, and is ready for the next tile then. -/
def WorksLanes (cfg : KernelConfig) (work : ℕ → ℕ → σ → List (ℕ × ℕ) × σ) (col : ℕ)
    (lane : ℕ → List (ℕ × ℕ)) (Inv : ℕ → σ → Prop) : Prop :=
  ∀ row s, Inv row s →
    (work (col + row) row s).1 = (List.range' row cfg.tileHeight).flatMap lane ∧
      Inv (row + cfg.tileHeight) (work (col + row) row s).2

theorem mem_rows_iff (hlane : LaneInMatrix a col lane) {row n : ℕ} {z : ℕ × ℕ} :
    z ∈ (List.range' row n).flatMap lane ↔ (row ≤ z.1 ∧ z.1 < row + n) ∧ z ∈ lane z.1 := by
  rw [List.mem_flatMap]
  constructor
  · rintro ⟨r, hr, hz⟩
    obtain ⟨rfl, _⟩ := hlane r z hz
    exact ⟨List.mem_range'_1.mp hr, hz⟩
  · rintro ⟨hr, hz⟩
    exact ⟨z.1, List.mem_range'_1.mpr hr, hz⟩

theorem nodup_rows (hlane : LaneInMatrix a col lane) (hnodup : ∀ row, (lane row).Nodup) (row n : ℕ) :
    ((List.range' row n).flatMap lane).Nodup := by
  refine nodup_flatMap_of_inj List.nodup_range' (fun r _ => hnodup r) ?_
  intro r _ r' _ z hz hz'
  exact (hlane r z hz).1.symm.trans (hlane r' z hz').1

theorem tile_succ (cfg : KernelConfig) (k : ℕ) : (k + 1) * cfg.tileHeight = k * cfg.tileHeight + cfg.tileHeight :=
  Nat.succ_mul _ _

/-- **The tile loop** does the lanes of all rows of the tiles the block comes to. -/
theorem mem_tileLoop (stop : ℕ → Bool) (hwork : WorksLanes cfg work col lane Inv) (hlane : LaneInMatrix a col lane)
    (z : ℕ × ℕ) (k : ℕ) (s : σ) (h : Inv (k * cfg.tileHeight) s) :
    z ∈ tileLoop cfg a work stop k (col + k * cfg.tileHeight) (k * cfg.tileHeight) s ↔
      (k * cfg.tileHeight ≤ z.1 ∧ z ∈ lane z.1) ∧ ∀ j, k ≤ j → j < z.1 / cfg.tileHeight → stop j = false := by
  have hH := cfg.tileHeight_pos
  induction hn : a.nY - k * cfg.tileHeight using Nat.strong_induction_on generalizing k s with
  | _ n ih =>
      rw [tileLoop]
      by_cases hin : col + k * cfg.tileHeight < a.nX ∧ k * cfg.tileHeight < a.nY
      · obtain ⟨hcells, hnext⟩ := hwork _ s h
        rw [← tile_succ] at hnext
        have hrest := ih _ (by have := tile_succ cfg k; omega) (k + 1) _ hnext rfl
        rw [tile_succ, ← Nat.add_assoc] at hrest
        rw [if_pos hin, List.mem_append, hcells, mem_rows_iff hlane]
        -- a row is in this tile, or in one that the loop comes to when nothing stops it here
        have htile : (k * cfg.tileHeight ≤ z.1 ∧ z.1 < k * cfg.tileHeight + cfg.tileHeight) ↔
            z.1 / cfg.tileHeight = k := by
          rw [Nat.div_eq_iff hH]
          omega
        have hlater : k * cfg.tileHeight + cfg.tileHeight ≤ z.1 ↔ k < z.1 / cfg.tileHeight := by
          rw [← tile_succ, Nat.lt_iff_add_one_le, Nat.le_div_iff_mul_le hH]
        constructor
        · rintro (⟨hrow, hz⟩ | hz)
          · exact ⟨⟨hrow.1, hz⟩, fun j hj hj' => absurd (htile.mp hrow ▸ hj') (Nat.not_lt.mpr hj)⟩
          · cases hstop : stop k with
            | true =>
                rw [hstop, if_pos rfl] at hz
                exact absurd hz List.not_mem_nil
            | false =>
                rw [hstop, if_neg Bool.false_ne_true] at hz
                obtain ⟨⟨hle, hz⟩, hgo⟩ := hrest.mp hz
                refine ⟨⟨by omega, hz⟩, fun j hj hj' => ?_⟩
                rcases Nat.eq_or_lt_of_le hj with rfl | hlt
                · exact hstop
                · exact hgo j hlt hj'
        · rintro ⟨⟨hle, hz⟩, hgo⟩
          by_cases hrow : z.1 < k * cfg.tileHeight + cfg.tileHeight
          · exact Or.inl ⟨⟨hle, hrow⟩, hz⟩
          · have hfar := Nat.not_lt.mp hrow
            right
            rw [hgo k (Nat.le_refl k) (hlater.mp hfar), if_neg Bool.false_ne_true]
            exact hrest.mpr ⟨⟨hfar, hz⟩, fun j hj => hgo j (by omega)⟩
      · -- the loop ends at the edge of the matrix: no lane has a cell beyond
        rw [if_neg hin]
        constructor
        · intro hz
          exact absurd hz List.not_mem_nil
        · rintro ⟨⟨hle, hz⟩, _⟩
          obtain ⟨_, hrow, hcol, hx⟩ := hlane _ _ hz
          exact absurd ⟨by omega, by omega⟩ hin

theorem nodup_tileLoop (stop : ℕ → Bool) (hwork : WorksLanes cfg work col lane Inv) (hlane : LaneInMatrix a col lane)
    (hnodup : ∀ row, (lane row).Nodup) (k : ℕ) (s : σ) (h : Inv (k * cfg.tileHeight) s) :
    (tileLoop cfg a work stop k (col + k * cfg.tileHeight) (k * cfg.tileHeight) s).Nodup := by
  have hH := cfg.tileHeight_pos
  induction hn : a.nY - k * cfg.tileHeight using Nat.strong_induction_on generalizing k s with
  | _ n ih =>
      rw [tileLoop]
      split
      · next hin =>
          obtain ⟨hcells, hnext⟩ := hwork _ s h
          rw [← tile_succ] at hnext
          have hrest := ih _ (by have := tile_succ cfg k; omega) (k + 1) _ hnext rfl
          have hmem := fun z => mem_tileLoop stop hwork hlane z (k + 1) _ hnext
          rw [tile_succ, ← Nat.add_assoc] at hrest hmem
          rw [hcells]
          refine List.nodup_append.mpr ⟨nodup_rows hlane hnodup _ _, ?_, ?_⟩
          · split
            · exact List.nodup_nil
            · exact hrest
          · -- the rows of a later tile are further down
            intro z hz z' hz' heq
            subst heq
            have hrow := ((mem_rows_iff hlane).mp hz).1.2
            split at hz'
            · exact absurd hz' List.not_mem_nil
            · have := ((hmem z).mp hz').1.1
              omega
      · exact List.nodup_nil

end

/-! ## The sliding-window kernel -/

/-- The cells of a thread in a row: on its diagonals, where these are computed and in the matrix. -/
def slidingLane (cfg : KernelConfig) (a : KernelDims) (diag row : ℕ) : List (ℕ × ℕ) :=
  if row < a.nY then
    ((List.range cfg.diagsPerThread).filter fun i => diag + (row + i) < a.nX ∧ diag + i < a.numDiags).map
      fun i => (row, diag + (row + i))
  else []

/-- A thread that computes diagonals is on them, or has left the matrix. -/
def OnDiagonals (a : KernelDims) (diag row : ℕ) (info : SCAMPThreadInfo) : Prop :=
  diag < a.numDiags → (info.globalCol = diag + row ∧ info.globalRow = row) ∨
    (info.globalCol ≤ diag + row ∧ info.globalRow ≤ row) ∧ (a.nX ≤ info.globalCol ∨ a.nY ≤ info.globalRow)

theorem mem_slidingLane {diag row : ℕ} {z : ℕ × ℕ} : z ∈ slidingLane cfg a diag row ↔
    z.1 = row ∧ row < a.nY ∧ ∃ i < cfg.diagsPerThread, z.2 = diag + (row + i) ∧ z.2 < a.nX ∧
      diag + i < a.numDiags := by
  obtain ⟨r, c⟩ := z
  unfold slidingLane
  split
  · next hrow =>
      simp only [List.mem_map, List.mem_filter, List.mem_range, decide_eq_true_eq, Prod.mk.injEq]
      constructor
      · rintro ⟨i, ⟨hi, hx, hd⟩, rfl, rfl⟩
        exact ⟨rfl, hrow, i, hi, rfl, hx, hd⟩
      · rintro ⟨rfl, _, i, hi, rfl, hx, hd⟩
        exact ⟨i, ⟨hi, hx, hd⟩, rfl, rfl⟩
  · next hrow =>
      constructor
      · intro hz
        exact absurd hz List.not_mem_nil
      · rintro ⟨_, hlt, _⟩
        exact absurd hlt hrow

theorem nodup_slidingLane (diag row : ℕ) : (slidingLane cfg a diag row).Nodup := by
  unfold slidingLane
  split
  · refine (List.nodup_range.filter _).map ?_
    intro i j hij
    simp only [Prod.mk.injEq] at hij
    omega
  · exact List.nodup_nil

/-- Past the edge of the matrix a lane is empty. -/
theorem slidingLane_eq_nil {diag row : ℕ} (h : a.nX ≤ diag + row ∨ a.nY ≤ row) :
    slidingLane cfg a diag row = [] := by
  refine List.eq_nil_iff_forall_not_mem.mpr fun z hz => ?_
  obtain ⟨_, hrow, i, _, hc, hx, _⟩ := mem_slidingLane.mp hz
  omega

theorem slowPath_eq {diag : ℕ} (hdiag : diag < a.numDiags) (n : ℕ) : ∀ (row : ℕ) (info : SCAMPThreadInfo),
    info.localRow + n = cfg.tileHeight → OnDiagonals a diag row info →
      (slowPath cfg a diag info).1 = (List.range' row n).flatMap (slidingLane cfg a diag) ∧
        OnDiagonals a diag (row + n) (slowPath cfg a diag info).2 := by
  induction n with
  | zero =>
      intro row info hn hinv
      rw [slowPath, if_neg (by omega)]
      exact ⟨rfl, hinv⟩
  | succ n ih =>
      intro row info hn hinv
      rw [slowPath]
      by_cases hin : info.globalCol < a.nX ∧ info.globalRow < a.nY
      · obtain ⟨hcol, hrow⟩ : info.globalCol = diag + row ∧ info.globalRow = row := by
          rcases hinv hdiag with hon | ⟨_, hout⟩
          · exact hon
          · omega
        rw [if_pos ⟨hin.1, hin.2, by omega⟩, List.range'_succ, List.flatMap_cons]
        obtain ⟨hcells, hnext⟩ := ih (row + 1) ⟨info.globalCol + 1, info.globalRow + 1, info.localRow + 1⟩
          (by show info.localRow + 1 + n = _; omega) (fun _ => Or.inl ⟨by simp only; omega, by simp only; omega⟩)
        refine ⟨?_, by rwa [show row + (n + 1) = row + 1 + n by omega]⟩
        have hedge : doRowEdge cfg a diag info = slidingLane cfg a diag row := by
          unfold doRowEdge slidingLane
          rw [if_pos (by omega), hcol, hrow]
          simp only [Nat.add_assoc]
        dsimp only
        rw [hcells, hedge]
      · -- outside the matrix the loop ends, and the remaining lanes are empty
        rw [if_neg (by omega)]
        have hout : a.nX ≤ diag + row ∨ a.nY ≤ row := by
          rcases hinv hdiag with hon | ⟨_, hout⟩
          · omega
          · omega
        refine ⟨?_, fun _ => Or.inr ?_⟩
        · symm
          rw [List.flatMap_eq_nil_iff]
          intro r hr
          have := (List.mem_range'_1.mp hr).1
          exact slidingLane_eq_nil (by omega)
        · dsimp only
          rcases hinv hdiag with hon | ⟨hle, hout⟩ <;> exact ⟨by omega, by omega⟩

theorem fastPath_eq {diag : ℕ} (n : ℕ) : ∀ (row : ℕ) (info : SCAMPThreadInfo),
    info.localRow + n * cfg.outerUnrolledRows = cfg.tileHeight →
    info.globalCol = diag + row ∧ info.globalRow = row →
      (fastPath cfg info).1 = (List.range' row (n * cfg.outerUnrolledRows)).flatMap (fun r =>
        (List.range cfg.diagsPerThread).map fun i => (r, diag + (r + i))) ∧
      (fastPath cfg info).2.globalCol = diag + (row + n * cfg.outerUnrolledRows) ∧
      (fastPath cfg info).2.globalRow = row + n * cfg.outerUnrolledRows := by
  have hpos := cfg.rows_pos
  induction n with
  | zero =>
      rintro row info hn ⟨hcol, hrow⟩
      rw [fastPath, if_neg (by omega), Nat.zero_mul]
      exact ⟨rfl, hcol, hrow⟩
  | succ n ih =>
      rintro row info hn ⟨hcol, hrow⟩
      rw [Nat.succ_mul] at hn ⊢
      rw [fastPath, if_pos (by omega)]
      obtain ⟨hcells, hend⟩ := ih (row + cfg.outerUnrolledRows) (doIterationFast cfg info).2
        (by show info.localRow + cfg.outerUnrolledRows + _ = _; omega)
        ⟨by show info.globalCol + _ = _; omega, by show info.globalRow + _ = _; omega⟩
      -- one call does `outer_unrolled_rows` rows
      have hsplit : List.range' row (n * cfg.outerUnrolledRows + cfg.outerUnrolledRows) =
          List.range' row cfg.outerUnrolledRows ++
            List.range' (row + cfg.outerUnrolledRows) (n * cfg.outerUnrolledRows) := by
        rw [Nat.add_comm (n * _), ← List.range'_append_1]
      have hrows : (doIterationFast cfg info).1 =
          (List.range' row cfg.outerUnrolledRows).flatMap (fun r =>
            (List.range cfg.diagsPerThread).map fun i => (r, diag + (r + i))) := by
        unfold doIterationFast
        rw [List.range'_eq_map_range, List.flatMap_map, hcol, hrow]
        simp only [Nat.add_assoc]
      rw [hsplit, List.flatMap_append]
      refine ⟨?_, by rw [hend.1]; omega, by rw [hend.2]; omega⟩
      show (doIterationFast cfg info).1 ++ (fastPath cfg (doIterationFast cfg info).2).1 = _
      rw [hrows, hcells]

/-- **A tile of `do_tile`**, for one thread. -/
theorem doTile_worksLanes (a : KernelDims) (block thread : ℕ) (hthread : thread < cfg.blocksz) :
    WorksLanes cfg (doTileWork cfg a block thread) (blockStartCol cfg a block)
      (slidingLane cfg a (startDiag cfg a block thread))
      (OnDiagonals a (startDiag cfg a block thread)) := by
  intro row info hinv
  have hH := cfg.tileHeight_pos
  have hwidth : thread * cfg.diagsPerThread + cfg.diagsPerThread ≤ cfg.blockDiags := by
    rw [← Nat.succ_mul]
    exact Nat.mul_le_mul_right _ hthread
  have hdiag : startDiag cfg a block thread = blockStartCol cfg a block + thread * cfg.diagsPerThread := by
    unfold startDiag blockStartCol
    omega
  unfold doTileWork
  dsimp only
  by_cases hfast : blockStartCol cfg a block + row + cfg.tileWidth < a.nX ∧
      row + cfg.tileHeight < a.nY ∧ startDiag cfg a block thread + cfg.diagsPerThread ≤ a.numDiags
  · rw [if_pos hfast]
    obtain ⟨hx, hy, hd⟩ := hfast
    unfold KernelConfig.tileWidth at hx
    have hpos := cfg.diags_pos
    have hon : info.globalCol = startDiag cfg a block thread + row ∧ info.globalRow = row := by
      rcases hinv (by omega) with hon | ⟨_, hout⟩
      · exact hon
      · omega
    have hrows : cfg.tileHeight = cfg.kernelTileIters * cfg.outerUnrolledRows := rfl
    obtain ⟨hcells, hcol, hrow⟩ := fastPath_eq cfg.kernelTileIters row ({ info with localRow := 0 })
      (Nat.zero_add _) hon
    rw [← hrows] at hcells hcol hrow
    refine ⟨?_, fun _ => Or.inl ⟨hcol, hrow⟩⟩
    rw [hcells]
    refine List.flatMap_congr fun r hr => ?_
    -- every cell of the tile passes the checks
    have hr := List.mem_range'_1.mp hr
    unfold slidingLane
    rw [if_pos (by omega), List.filter_eq_self.mpr]
    intro i hi
    have hi := List.mem_range.mp hi
    exact decide_eq_true ⟨by omega, by omega⟩
  · rw [if_neg hfast]
    by_cases hdiags : startDiag cfg a block thread < a.numDiags
    · rw [if_pos hdiags]
      exact slowPath_eq hdiags cfg.tileHeight row _ (Nat.zero_add _) hinv
    · rw [if_neg hdiags]
      refine ⟨?_, fun h => absurd h hdiags⟩
      symm
      rw [List.flatMap_eq_nil_iff]
      intro r _
      refine List.eq_nil_iff_forall_not_mem.mpr fun z hz => ?_
      obtain ⟨_, _, i, _, _, _, hd⟩ := mem_slidingLane.mp hz
      omega

/-! ## The covariance-shuffling kernel -/

/-- The column, from the start of the block on, of slot `j` of a block in a row: of the columns of the
    meta-diagonal in that row, the one that is `j` modulo their number `n`. -/
def slotCol (n row j : ℕ) : ℕ := row + (j + (n - row % n)) % n

section
variable {n : ℕ} (hn : 0 < n) (row : ℕ)
include hn

theorem slotCol_bounds (j : ℕ) : row ≤ slotCol n row j ∧ slotCol n row j < row + n := by
  have := Nat.mod_lt (j + (n - row % n)) hn
  unfold slotCol
  omega

theorem slotCol_mod {j : ℕ} (hj : j < n) : slotCol n row j % n = j := by
  have hrow := Nat.mod_lt row hn
  unfold slotCol
  rw [Nat.add_mod_mod, ← Nat.add_assoc, Nat.add_comm row j, Nat.add_assoc, ← Nat.add_mod_mod,
    ← Nat.mod_add_mod row, Nat.add_sub_cancel' hrow.le, Nat.mod_self, Nat.add_zero, Nat.mod_eq_of_lt hj]

/-- There is no other such column. -/
theorem eq_slotCol {j c : ℕ} (hle : row ≤ c) (hlt : c < row + n) (hj : c % n = j) :
    c = slotCol n row j := by
  have hjn : j < n := hj ▸ Nat.mod_lt c hn
  obtain ⟨hle', hlt'⟩ := slotCol_bounds hn row j
  have hmod : c ≡ slotCol n row j [MOD n] := hj.trans (slotCol_mod hn row hjn).symm
  refine Nat.ModEq.eq_of_abs_lt hmod ?_
  rw [abs_lt]
  constructor <;> omega

/-- **From one row to the next** a slot keeps its column, unless that leaves the meta-diagonal. -/
theorem slotCol_succ {j : ℕ} (hj : j < n) :
    slotCol n (row + 1) j = if slotCol n row j = row then slotCol n row j + n else slotCol n row j := by
  obtain ⟨hle, hlt⟩ := slotCol_bounds hn row j
  have hmod := slotCol_mod hn row hj
  symm
  split
  · next heq =>
      refine eq_slotCol hn (row + 1) (by omega) (by omega) ?_
      rw [Nat.add_mod_right, hmod]
  · next hne => exact eq_slotCol hn (row + 1) (by omega) (by omega) hmod

/-- A slot is the one to move on when the last slot of its thread is as far from the edge as the two slots
    are apart. -/
theorem slotCol_eq_row_iff {j d : ℕ} (hj : j + d < n) :
    slotCol n row j = row ↔ slotCol n row (j + d) = row + d := by
  obtain ⟨hle, hlt⟩ := slotCol_bounds hn row j
  have hmod := slotCol_mod hn row (show j < n by omega)
  have hshift : (slotCol n row j + d) % n = j + d := by
    rw [← Nat.mod_add_mod, hmod, Nat.mod_eq_of_lt hj]
  by_cases hin : slotCol n row j + d < row + n
  · rw [← eq_slotCol hn row (by omega) hin hshift]
    omega
  · have hwrap : slotCol n row j + d - n = slotCol n row (j + d) := by
      refine eq_slotCol hn row (by omega) (by omega) ?_
      rw [← Nat.add_mod_right, Nat.sub_add_cancel (by omega), hshift]
    omega

/-- A covariance that moves on by a slot stays with its diagonal: the next slot has, in the next row, the
    next column. -/
theorem slotCol_next {j : ℕ} (hj : j < n) : slotCol n row j + 1 = slotCol n (row + 1) ((j + 1) % n) := by
  obtain ⟨hle, hlt⟩ := slotCol_bounds hn row j
  refine eq_slotCol hn (row + 1) (by omega) (by omega) ?_
  rw [← Nat.mod_add_mod, slotCol_mod hn row hj]

section
variable {D j u : ℕ} (hslots : j + D ≤ n) (hcount : row + u = slotCol n row (j + (D - 1)))
include hslots hcount

/-- A thread with the `D` slots from `j` on counts down to its last one: slot `i` moves on when the
    countdown is at its distance from the last. -/
theorem slot_moves_iff {i : ℕ} (hi : i < D) : slotCol n row (j + i) = row ↔ u = D - 1 - i := by
  have hiff := slotCol_eq_row_iff hn row (show j + i + (D - 1 - i) < n by omega)
  rw [show j + i + (D - 1 - i) = j + (D - 1) by omega, ← hcount] at hiff
  rw [hiff]
  omega

/-- The countdown of the next row. -/
theorem countdown_succ (hD : 0 < D) :
    row + 1 + ((if u = 0 then n else u) - 1) = slotCol n (row + 1) (j + (D - 1)) := by
  have hlast := slot_moves_iff hn row hslots hcount (show D - 1 < D by omega)
  rw [slotCol_succ hn row (show j + (D - 1) < n by omega)]
  by_cases hu : u = 0
  · rw [if_pos hu, if_pos (hlast.mpr (by omega)), ← hcount]
    omega
  · rw [if_neg hu, if_neg fun h => hu (by have := hlast.mp h; omega), ← hcount]
    omega

end

end

/-- The cells of a thread in a row: the columns of its slots, where the diagonal is computed and in the
    matrix. -/
def shflLane (cfg : KernelConfig) (a : KernelDims) (col thread row : ℕ) : List (ℕ × ℕ) :=
  if row < a.nY then
    ((List.range cfg.diagsPerThread).filter fun i =>
      col + slotCol cfg.blockDiags row (thread * cfg.diagsPerThread + i) < a.nX ∧
        col + slotCol cfg.blockDiags row (thread * cfg.diagsPerThread + i) - row < a.numDiags).map
      fun i => (row, col + slotCol cfg.blockDiags row (thread * cfg.diagsPerThread + i))
  else []

/-- The slots of a thread have their columns, and the countdown is the distance of the last one from the
    edge of the meta-diagonal. -/
structure OnSlots (cfg : KernelConfig) (col thread row : ℕ) (s : SCAMPShflState) : Prop where
  cols : ∀ i < cfg.diagsPerThread,
    s.globalCol i = col + slotCol cfg.blockDiags row (thread * cfg.diagsPerThread + i)
  countdown : row + s.updatesRemaining =
    slotCol cfg.blockDiags row (thread * cfg.diagsPerThread + (cfg.diagsPerThread - 1))

section
variable {col thread : ℕ} (hthread : thread < cfg.blocksz)
include hthread

theorem slots_lt_blockDiags :
    thread * cfg.diagsPerThread + cfg.diagsPerThread ≤ cfg.blockDiags := by
  rw [← Nat.succ_mul]
  exact Nat.mul_le_mul_right _ hthread

/-- The end of a row of `do_row_shfl`. -/
theorem onSlots_update {row : ℕ} {s : SCAMPShflState} (h : OnSlots cfg col thread row s) :
    OnSlots cfg col thread (row + 1) (updateInfoShfl cfg s) := by
  have hslots := slots_lt_blockDiags hthread
  have hn := cfg.blockDiags_pos
  have hD := cfg.diags_pos
  obtain ⟨hcols, hcount⟩ := h
  have hmoves : ∀ i < cfg.diagsPerThread,
      (slotCol cfg.blockDiags row (thread * cfg.diagsPerThread + i) = row ↔
        s.updatesRemaining = cfg.diagsPerThread - 1 - i) :=
    fun i hi => slot_moves_iff hn row hslots hcount hi
  have hnext := countdown_succ hn row hslots hcount hD
  unfold updateInfoShfl
  by_cases hnow : s.updatesRemaining < cfg.diagsPerThread
  · rw [if_pos hnow]
    refine ⟨fun i hi => ?_, hnext⟩
    show Function.update s.globalCol _ _ i = _
    rw [slotCol_succ hn row (by omega)]
    by_cases hslot : i = cfg.diagsPerThread - 1 - s.updatesRemaining
    · rw [if_pos ((hmoves i hi).mpr (by omega)), hslot, Function.update_self, ← hslot, hcols i hi,
        Nat.add_assoc]
    · rw [if_neg fun hmove => hslot (by have := (hmoves i hi).mp hmove; omega),
        Function.update_of_ne hslot, hcols i hi]
  · rw [if_neg hnow]
    refine ⟨fun i hi => ?_, ?_⟩
    · rw [slotCol_succ hn row (by omega), if_neg fun hmove => hnow (by have := (hmoves i hi).mp hmove; omega)]
      exact hcols i hi
    · rw [if_neg (by omega)] at hnext
      exact hnext

omit hthread in
/-- The positions in the tile go along with those in the matrix. -/
theorem localCol_update {start : ℕ} {s : SCAMPShflState}
    (h : ∀ i < cfg.diagsPerThread, s.globalCol i = s.localCol i + start) :
    ∀ i < cfg.diagsPerThread, (updateInfoShfl cfg s).globalCol i = (updateInfoShfl cfg s).localCol i + start := by
  have hD := cfg.diags_pos
  intro i hi
  unfold updateInfoShfl
  split
  · show Function.update s.globalCol _ _ i = Function.update s.localCol _ _ i + start
    by_cases hslot : i = cfg.diagsPerThread - 1 - s.updatesRemaining
    · rw [hslot, Function.update_self, Function.update_self, h _ (by omega)]
      omega
    · rw [Function.update_of_ne hslot, Function.update_of_ne hslot, h i hi]
  · exact h i hi

omit hthread in
theorem mem_shflLane {row : ℕ} {z : ℕ × ℕ} : z ∈ shflLane cfg a col thread row ↔
    z.1 = row ∧ row < a.nY ∧ ∃ i < cfg.diagsPerThread,
      z.2 = col + slotCol cfg.blockDiags row (thread * cfg.diagsPerThread + i) ∧ z.2 < a.nX ∧
        z.2 - row < a.numDiags := by
  obtain ⟨r, c⟩ := z
  unfold shflLane
  split
  · next hrow =>
      simp only [List.mem_map, List.mem_filter, List.mem_range, decide_eq_true_eq, Prod.mk.injEq]
      constructor
      · rintro ⟨i, ⟨hi, hx, hd⟩, rfl, rfl⟩
        exact ⟨rfl, hrow, i, hi, rfl, hx, hd⟩
      · rintro ⟨rfl, _, i, hi, rfl, hx, hd⟩
        exact ⟨i, ⟨hi, hx, hd⟩, rfl, rfl⟩
  · next hrow =>
      constructor
      · intro hz
        exact absurd hz List.not_mem_nil
      · rintro ⟨_, hlt, _⟩
        exact absurd hlt hrow

theorem nodup_shflLane (row : ℕ) : (shflLane cfg a col thread row).Nodup := by
  have hslots := slots_lt_blockDiags hthread
  have hn := cfg.blockDiags_pos
  unfold shflLane
  split
  · refine List.Nodup.map_on ?_ (List.nodup_range.filter _)
    intro i hi j hj hij
    have hi := List.mem_range.mp (List.mem_filter.mp hi).1
    have hj := List.mem_range.mp (List.mem_filter.mp hj).1
    simp only [Prod.mk.injEq, true_and, Nat.add_left_cancel_iff] at hij
    have hmod := congrArg (· % cfg.blockDiags) hij
    simp only [slotCol_mod hn row (show thread * cfg.diagsPerThread + i < cfg.blockDiags by omega),
      slotCol_mod hn row (show thread * cfg.diagsPerThread + j < cfg.blockDiags by omega)] at hmod
    omega
  · exact List.nodup_nil

section
variable {fast : Bool} {start : ℕ} (hfast : fast = true → start + cfg.tileHeight < a.nY ∧
  col + start + cfg.tileHeight + cfg.blockDiags < a.nX ∧ col + cfg.blockDiags ≤ a.numDiags)
include hfast

/-- On the fast path every slot passes the checks that are left out. -/
theorem slotValid_eq {row : ℕ} {s : SCAMPShflState} (hrow : row < cfg.tileHeight)
    (hinv : OnSlots cfg col thread (start + row) s)
    (hlocal : ∀ i < cfg.diagsPerThread, s.globalCol i = s.localCol i + (col + start)) {i : ℕ}
    (hi : i < cfg.diagsPerThread) : slotValid cfg a fast start row s i =
      decide (start + row < a.nY ∧ s.globalCol i < a.nX ∧ s.globalCol i - (start + row) < a.numDiags) := by
  have hslots := slots_lt_blockDiags hthread
  have hn := cfg.blockDiags_pos
  obtain ⟨hle, hlt⟩ := slotCol_bounds hn (start + row) (thread * cfg.diagsPerThread + i)
  have hcol := hinv.cols i hi
  have hloc := hlocal i hi
  unfold slotValid
  rw [decide_eq_true (by omega), Bool.true_and]
  cases hf : fast with
  | true =>
      obtain ⟨hy, hx, hd⟩ := hfast hf
      rw [Bool.true_or, decide_eq_true ⟨by omega, by omega, by omega⟩]
  | false =>
      rw [Bool.false_or]
      exact decide_eq_decide.mpr ⟨fun h => ⟨h.1, h.2.1, h.2.2.2⟩,
        fun h => ⟨h.1, h.2.1, by omega, h.2.2⟩⟩

/-- The cells of the slots that are checked in a row. -/
theorem map_slotValid {row : ℕ} {s : SCAMPShflState} (hrow : row < cfg.tileHeight)
    (hinv : OnSlots cfg col thread (start + row) s)
    (hlocal : ∀ i < cfg.diagsPerThread, s.globalCol i = s.localCol i + (col + start)) :
    ((List.range cfg.diagsPerThread).filter fun i => slotValid cfg a fast start row s i).map
      (fun i => (start + row, s.globalCol i)) = shflLane cfg a col thread (start + row) := by
  have hfilter : ((List.range cfg.diagsPerThread).filter fun i => slotValid cfg a fast start row s i) =
      (List.range cfg.diagsPerThread).filter fun i => decide (start + row < a.nY) &&
        decide (col + slotCol cfg.blockDiags (start + row) (thread * cfg.diagsPerThread + i) < a.nX ∧
        col + slotCol cfg.blockDiags (start + row) (thread * cfg.diagsPerThread + i) - (start + row) <
          a.numDiags) := by
    refine List.filter_congr fun i hi => ?_
    have hi := List.mem_range.mp hi
    rw [slotValid_eq hthread hfast hrow hinv hlocal hi, hinv.cols i hi, Bool.decide_and]
  rw [hfilter]
  unfold shflLane
  split
  · next hy =>
      simp only [hy, decide_true, Bool.true_and]
      refine List.map_congr_left fun i hi => ?_
      rw [hinv.cols i (List.mem_range.mp (List.mem_filter.mp hi).1)]
  · next hy =>
      simp only [hy, decide_false, Bool.false_and, List.filter_false, List.map_nil]

/-- The rows of a tile. -/
theorem doRowsShfl_eq (n : ℕ) : ∀ (row : ℕ) (s : SCAMPShflState), row + n ≤ cfg.tileHeight →
    OnSlots cfg col thread (start + row) s →
    (∀ i < cfg.diagsPerThread, s.globalCol i = s.localCol i + (col + start)) →
    (doRowsShfl cfg a fast start n row s).1 =
        (List.range' (start + row) n).flatMap (shflLane cfg a col thread) ∧
      OnSlots cfg col thread (start + row + n) (doRowsShfl cfg a fast start n row s).2 := by
  induction n with
  | zero =>
      intro row s _ hinv _
      exact ⟨rfl, hinv⟩
  | succ n ih =>
      intro row s hrow hinv hlocal
      obtain ⟨hcells, hnext⟩ := ih (row + 1) (updateInfoShfl cfg s) (by omega)
        (onSlots_update hthread hinv) (localCol_update hlocal)
      rw [List.range'_succ, List.flatMap_cons, ← map_slotValid hthread hfast (by omega) hinv hlocal]
      refine ⟨?_, by rwa [show start + row + (n + 1) = start + (row + 1) + n by omega]⟩
      show _ ++ (doRowsShfl cfg a fast start n (row + 1) (updateInfoShfl cfg s)).1 = _
      rw [hcells, Nat.add_assoc]

end

/-- **A tile of `do_tile_shfl`**, for one thread. -/
theorem doTileShfl_worksLanes : WorksLanes cfg (doTileShflWork cfg a) col (shflLane cfg a col thread)
    (OnSlots cfg col thread) := by
  intro row s hinv
  have hn := cfg.blockDiags_pos
  have hlocal : ∀ i < cfg.diagsPerThread, s.globalCol i = s.globalCol i - (col + row) + (col + row) := by
    intro i hi
    have := (slotCol_bounds hn row (thread * cfg.diagsPerThread + i)).1
    have := hinv.cols i hi
    omega
  unfold doTileShflWork
  refine doRowsShfl_eq hthread (fun hfast => ?_) cfg.tileHeight 0 _ (Nat.le_of_eq (Nat.zero_add _)) ?_ hlocal
  · obtain ⟨hx, hy, hd, _⟩ := of_decide_eq_true hfast
    unfold KernelConfig.tileWidth at hx
    exact ⟨hy, by omega, by omega⟩
  · exact ⟨hinv.cols, hinv.countdown⟩

end

/-! ## Threads and blocks -/

/-- The cells of a thread in a row, by the kernel the configuration names. -/
def lane (cfg : KernelConfig) (a : KernelDims) (block thread row : ℕ) : List (ℕ × ℕ) :=
  if cfg.unrolledRows = 0 then shflLane cfg a (blockStartCol cfg a block) thread row
  else slidingLane cfg a (startDiag cfg a block thread) row

/-- The cell is on a diagonal of the block, where it is computed and in the matrix. -/
def BlockCell (cfg : KernelConfig) (a : KernelDims) (block : ℕ) (z : ℕ × ℕ) : Prop :=
  (z.1 < a.nY ∧ z.2 < a.nX ∧ z.2 < z.1 + a.numDiags) ∧
    blockStartCol cfg a block + z.1 ≤ z.2 ∧ z.2 < blockStartCol cfg a block + z.1 + cfg.blockDiags

/-- The slots of a block, over its threads. -/
theorem exists_thread {d : ℕ} (hd : d < cfg.blockDiags) :
    ∃ t < cfg.blocksz, ∃ i < cfg.diagsPerThread, d = t * cfg.diagsPerThread + i := by
  refine ⟨d / cfg.diagsPerThread, ?_, d % cfg.diagsPerThread, Nat.mod_lt _ cfg.diags_pos, ?_⟩
  · apply Nat.div_lt_of_lt_mul
    rwa [Nat.mul_comm]
  · rw [Nat.mul_comm]
    exact (Nat.div_add_mod _ _).symm

theorem thread_unique {t t' i i' : ℕ} (hi : i < cfg.diagsPerThread) (hi' : i' < cfg.diagsPerThread)
    (h : t * cfg.diagsPerThread + i = t' * cfg.diagsPerThread + i') : t = t' := by
  rw [(le_mul_iff_block cfg.diags_pos).mp ⟨Nat.le_add_right (t * cfg.diagsPerThread) i, by omega⟩, h]
  exact ((le_mul_iff_block cfg.diags_pos).mp ⟨Nat.le_add_right _ _, by omega⟩).symm

theorem startDiag_eq (cfg : KernelConfig) (a : KernelDims) (block thread : ℕ) :
    startDiag cfg a block thread = blockStartCol cfg a block + thread * cfg.diagsPerThread := by
  unfold startDiag blockStartCol
  omega

theorem lane_inMatrix (cfg : KernelConfig) (a : KernelDims) (block thread : ℕ) :
    LaneInMatrix a (blockStartCol cfg a block) (lane cfg a block thread) := by
  intro row z hz
  unfold lane at hz
  split at hz
  · obtain ⟨hrow, hy, i, _, hcol, hx, _⟩ := mem_shflLane.mp hz
    have := (slotCol_bounds cfg.blockDiags_pos row (thread * cfg.diagsPerThread + i)).1
    exact ⟨hrow, hy, by omega, hx⟩
  · obtain ⟨hrow, hy, i, _, hcol, hx, _⟩ := mem_slidingLane.mp hz
    have := startDiag_eq cfg a block thread
    exact ⟨hrow, hy, by omega, hx⟩

theorem nodup_lane (a : KernelDims) (block : ℕ) {thread : ℕ} (hthread : thread < cfg.blocksz) (row : ℕ) :
    (lane cfg a block thread row).Nodup := by
  unfold lane
  split
  · exact nodup_shflLane hthread row
  · exact nodup_slidingLane _ row

/-- **Every cell of the block's row has a thread.** -/
theorem exists_lane_iff {block : ℕ} {z : ℕ × ℕ} :
    (∃ t < cfg.blocksz, z ∈ lane cfg a block t z.1) ↔ BlockCell cfg a block z := by
  have hn := cfg.blockDiags_pos
  unfold lane BlockCell
  by_cases hshfl : cfg.unrolledRows = 0
  · simp only [if_pos hshfl, mem_shflLane, true_and]
    constructor
    · rintro ⟨t, _, hy, i, _, hcol, hx, hd⟩
      obtain ⟨hle, hlt⟩ := slotCol_bounds hn z.1 (t * cfg.diagsPerThread + i)
      exact ⟨⟨hy, hx, by omega⟩, by omega, by omega⟩
    · rintro ⟨⟨hy, hx, hd⟩, hle, hlt⟩
      obtain ⟨t, ht, i, hi, hj⟩ := exists_thread
        (Nat.mod_lt (z.2 - blockStartCol cfg a block) hn)
      have hslot := eq_slotCol hn z.1 (by omega) (by omega) hj
      exact ⟨t, ht, hy, i, hi, by omega, hx, by omega⟩
  · simp only [if_neg hshfl, mem_slidingLane, true_and, startDiag_eq]
    constructor
    · rintro ⟨t, ht, hy, i, hi, hcol, hx, hd⟩
      have := slots_lt_blockDiags ht
      exact ⟨⟨hy, hx, by omega⟩, by omega, by omega⟩
    · rintro ⟨⟨hy, hx, hd⟩, hle, hlt⟩
      obtain ⟨t, ht, i, hi, hj⟩ := exists_thread
        (show z.2 - (blockStartCol cfg a block + z.1) < cfg.blockDiags by omega)
      exact ⟨t, ht, hy, i, hi, by omega, hx, by omega⟩

/-- **And only one.** -/
theorem lane_unique {block t t' : ℕ} (ht : t < cfg.blocksz) (ht' : t' < cfg.blocksz) {z : ℕ × ℕ}
    (hz : z ∈ lane cfg a block t z.1) (hz' : z ∈ lane cfg a block t' z.1) : t = t' := by
  have hn := cfg.blockDiags_pos
  unfold lane at hz hz'
  by_cases hshfl : cfg.unrolledRows = 0
  · rw [if_pos hshfl] at hz hz'
    obtain ⟨_, _, i, hi, hcol, _⟩ := mem_shflLane.mp hz
    obtain ⟨_, _, i', hi', hcol', _⟩ := mem_shflLane.mp hz'
    have hslots := slots_lt_blockDiags ht
    have hslots' := slots_lt_blockDiags ht'
    have hmod := congrArg (· % cfg.blockDiags) (Nat.add_left_cancel (hcol.symm.trans hcol'))
    simp only [slotCol_mod hn z.1 (show t * cfg.diagsPerThread + i < cfg.blockDiags by omega),
      slotCol_mod hn z.1 (show t' * cfg.diagsPerThread + i' < cfg.blockDiags by omega)] at hmod
    exact thread_unique hi hi' hmod
  · rw [if_neg hshfl] at hz hz'
    obtain ⟨_, _, i, hi, hcol, _⟩ := mem_slidingLane.mp hz
    obtain ⟨_, _, i', hi', hcol', _⟩ := mem_slidingLane.mp hz'
    rw [startDiag_eq] at hcol hcol'
    exact thread_unique hi hi' (by omega)

section
variable (stop : ℕ → Bool) {thread : ℕ} (hthread : thread < cfg.blocksz)
include hthread

theorem onSlots_start (a : KernelDims) (block : ℕ) : OnSlots cfg (blockStartCol cfg a block) thread 0
    { globalCol := fun i => blockStartCol cfg a block + thread * cfg.diagsPerThread + i
      localCol := fun i => thread * cfg.diagsPerThread + i
      updatesRemaining := thread * cfg.diagsPerThread + (cfg.diagsPerThread - 1) } := by
  have hslots := slots_lt_blockDiags hthread
  have hn := cfg.blockDiags_pos
  have hD := cfg.diags_pos
  have hstart : ∀ j < cfg.blockDiags, j = slotCol cfg.blockDiags 0 j := fun j hj =>
    eq_slotCol hn 0 (Nat.zero_le j) (by omega) (Nat.mod_eq_of_lt hj)
  refine ⟨fun i hi => ?_, ?_⟩
  · rw [← hstart _ (by omega)]
    exact Nat.add_assoc _ _ _
  · rw [← hstart _ (by omega), Nat.zero_add]

theorem mem_threadCells {block : ℕ} {z : ℕ × ℕ} : z ∈ threadCells cfg a stop block thread ↔
    z ∈ lane cfg a block thread z.1 ∧ ∀ j < z.1 / cfg.tileHeight, stop j = false := by
  have hlane := lane_inMatrix cfg a block thread
  unfold threadCells
  by_cases hshfl : cfg.unrolledRows = 0
  · have hmem := mem_tileLoop stop (doTileShfl_worksLanes hthread) (by
      unfold lane at hlane; simpa only [if_pos hshfl] using hlane) z 0 _
      (by rw [Nat.zero_mul]; exact onSlots_start hthread a block)
    rw [Nat.zero_mul, Nat.add_zero] at hmem
    unfold doTileShflThread lane
    rw [if_pos hshfl, if_pos hshfl]
    simpa using hmem
  · have hmem := mem_tileLoop stop (doTile_worksLanes a block thread hthread) (by
      unfold lane at hlane; simpa only [if_neg hshfl] using hlane) z 0
      ⟨blockStartCol cfg a block + thread * cfg.diagsPerThread, 0, 0⟩
      (by rw [Nat.zero_mul]; exact fun _ => Or.inl ⟨(startDiag_eq cfg a _ _).symm, rfl⟩)
    rw [Nat.zero_mul, Nat.add_zero] at hmem
    unfold doTileThread lane
    rw [if_neg hshfl, if_neg hshfl]
    simpa using hmem

theorem nodup_threadCells (block : ℕ) : (threadCells cfg a stop block thread).Nodup := by
  have hlane := lane_inMatrix cfg a block thread
  have hnodup := fun row => nodup_lane a block hthread row
  unfold threadCells
  by_cases hshfl : cfg.unrolledRows = 0
  · have := nodup_tileLoop stop (doTileShfl_worksLanes hthread) (by
      unfold lane at hlane; simpa only [if_pos hshfl] using hlane) (by
      unfold lane at hnodup; simpa only [if_pos hshfl] using hnodup) 0 _
      (by rw [Nat.zero_mul]; exact onSlots_start hthread a block)
    rw [Nat.zero_mul, Nat.add_zero] at this
    rw [if_pos hshfl]
    exact this
  · have := nodup_tileLoop stop (doTile_worksLanes a block thread hthread) (by
      unfold lane at hlane; simpa only [if_neg hshfl] using hlane) (by
      unfold lane at hnodup; simpa only [if_neg hshfl] using hnodup) 0
      ⟨blockStartCol cfg a block + thread * cfg.diagsPerThread, 0, 0⟩
      (by rw [Nat.zero_mul]; exact fun _ => Or.inl ⟨(startDiag_eq cfg a _ _).symm, rfl⟩)
    rw [Nat.zero_mul, Nat.add_zero] at this
    rw [if_neg hshfl]
    exact this

end

end

end Scamp
