import Scamp.Gpu.Shuffle
import Scamp.Gpu.Correctness.Threads
import Scamp.Core.Correctness.KernelRun
import Mathlib.Tactic.IntervalCases

/-!
# `Gpu.Correctness.Shuffle` — the slots of the covariance-shuffling kernel keep to their columns

Whatever turns the threads of a block take, a slot has the column the rotation gives it, the statistics of
that column, and, when it is read, the covariance of the recurrence (`ThreadOk.slotTracks`).

What holds between two turns is `Inv`. The barriers keep the threads within one row of each other
(`Lib.InStep`); hence a thread that reads the hand-off buffer finds there what was written for its row: the
writer is at most one row ahead, and then it has written the other half. `rowsAt` turns the number of
barriers into the number of rows.
-/

namespace Scamp

open Lib

namespace Shuffle

/-! ## Barriers and rows -/

section
variable (H : ℕ)

/-- The rows whose barrier is among the first `n`, in tiles of `H` rows: a tile has a barrier before its
    rows, one in each of them, and one after them. -/
def rowsAt (n : ℕ) : ℕ := n / (H + 2) * H + min (n % (H + 2) - 1) H

theorem rowsAt_tile (tile : ℕ) {j : ℕ} (hj : j < H + 2) :
    rowsAt H (tile * (H + 2) + j) = tile * H + min (j - 1) H := by
  have hdiv : (tile * (H + 2) + j) / (H + 2) = tile := by
    rw [Nat.mul_comm, Nat.mul_add_div (by omega), Nat.div_eq_of_lt hj, Nat.add_zero]
  have hmod : (tile * (H + 2) + j) % (H + 2) = j := by
    rw [Nat.mul_comm, Nat.mul_add_mod, Nat.mod_eq_of_lt hj]
  unfold rowsAt
  rw [hdiv, hmod]

/-- A barrier ends at most one row. -/
theorem rowsAt_succ (n : ℕ) : rowsAt H n ≤ rowsAt H (n + 1) ∧ rowsAt H (n + 1) ≤ rowsAt H n + 1 := by
  have hr := Nat.mod_lt n (show 0 < H + 2 by omega)
  have hn := Nat.div_add_mod' n (H + 2)
  have hthis := rowsAt_tile H (n / (H + 2)) hr
  rw [hn] at hthis
  by_cases hlast : n % (H + 2) + 1 < H + 2
  · have hnext := rowsAt_tile H (n / (H + 2)) hlast
    rw [← Nat.add_assoc, hn] at hnext
    omega
  · -- the last barrier of a tile
    have hnext := rowsAt_tile H (n / (H + 2) + 1) (show 0 < H + 2 by omega)
    rw [show (n / (H + 2) + 1) * (H + 2) + 0 = n + 1 by
      rw [Nat.succ_mul, Nat.add_zero]; omega, Nat.succ_mul] at hnext
    omega

theorem rowsAt_mono {m n : ℕ} (h : m ≤ n) : rowsAt H m ≤ rowsAt H n :=
  monotone_nat_of_le_succ (fun n => (rowsAt_succ H n).1) h

end

/-- Members that are in step, one of them in row `row` of its tile, are in the same tile. -/
theorem same_tile {H m n o row arrived : ℕ} (hahead : m * (H + 2) + o ≤ n * (H + 2) + (row + 1))
    (hbehind : n * (H + 2) + (row + 1) ≤ m * (H + 2) + o + arrived) (ho : o < H + 2) (harrived : arrived ≤ 1)
    (hrow : row < H) : m = n := by
  rcases Nat.lt_trichotomy m n with hlt | heq | hlt
  · have hmul := Nat.mul_le_mul_right (H + 2) (Nat.succ_le_of_lt hlt)
    rw [Nat.succ_mul] at hmul
    omega
  · exact heq
  · have hmul := Nat.mul_le_mul_right (H + 2) (Nat.succ_le_of_lt hlt)
    rw [Nat.succ_mul] at hmul
    omega

/-! ## The place of a thread -/

namespace Pc

/-- Whether a thread has arrived at its next barrier. -/
def arrived : Pc → Bool
  | tileLoaded | rowPublished | rowShuffled | rowDone | flushed => true
  | _ => false

/-- The barriers of its tile that a thread has passed. -/
def passed (H row : ℕ) : Pc → ℕ
  | tileStart | tileLoaded | finished => 0
  | rowStart | rowLoaded | rowPublished | rowShuffled | rowDone => row + 1
  | flushing | flushed => H + 1

/-- The rows a thread can be in. -/
def RowOk (H row : ℕ) : Pc → Prop
  | tileStart | tileLoaded | finished => row = 0
  | rowStart | rowLoaded | rowPublished | rowShuffled | rowDone => row < H
  | flushing | flushed => row = H

/-- `1` from the publication of a row on. -/
def published : Pc → ℕ
  | rowPublished | rowShuffled | rowDone => 1
  | _ => 0

/-- `1` from the shuffle of a row on. -/
def shuffled : Pc → ℕ
  | rowShuffled | rowDone => 1
  | _ => 0

/-- `1` after the rotation of a row. -/
def rotated : Pc → ℕ
  | rowDone => 1
  | _ => 0

/-- Whether a thread is between two rows. -/
def between : Pc → Bool
  | rowLoaded | rowPublished | rowShuffled | rowDone => false
  | _ => true

/-- Whether a thread is in a tile, with the rows it has loaded. -/
def inTile : Pc → Bool
  | tileStart | finished => false
  | _ => true

theorem row_le {H row : ℕ} {pc : Pc} (h : pc.RowOk H row) : row ≤ H := by
  cases pc <;> simp only [RowOk] at h <;> omega

theorem rows_passed {H row : ℕ} {pc : Pc} (h : pc.RowOk H row) :
    pc.passed H row < H + 2 ∧ min (pc.passed H row - 1) H = row := by
  cases pc <;> simp only [RowOk, passed] at h ⊢ <;> omega

theorem rows_arrived {H row : ℕ} {pc : Pc} (h : pc.RowOk H row) (hpc : pc ≠ flushed) :
    pc.passed H row + pc.arrived.toNat < H + 2 ∧
      min (pc.passed H row + pc.arrived.toNat - 1) H = row + pc.published := by
  cases pc <;> simp only [RowOk, passed, arrived, published, Bool.toNat] at h hpc ⊢ <;> simp at hpc ⊢ <;> omega

/-- Where a thread goes on to, when the next row is `row`. -/
def toRow (H row : ℕ) : Pc := if row < H then rowStart else flushing

theorem toRow_cases (H row : ℕ) : row < H ∧ toRow H row = rowStart ∨ ¬row < H ∧ toRow H row = flushing := by
  unfold toRow
  by_cases h : row < H
  · exact Or.inl ⟨h, if_pos h⟩
  · exact Or.inr ⟨h, if_neg h⟩

theorem toRow_spec {H row : ℕ} (h : row ≤ H) :
    (toRow H row).RowOk H row ∧ (toRow H row).passed H row = row + 1 ∧ (toRow H row).arrived = false ∧
      (toRow H row).between = true ∧ (toRow H row).rotated = 0 ∧
      (toRow H row).published = 0 ∧ (toRow H row).shuffled = 0 ∧ toRow H row ≠ rowLoaded := by
  rcases toRow_cases H row with ⟨hlt, hpc⟩ | ⟨hge, hpc⟩
  · rw [hpc]
    exact ⟨hlt, rfl, rfl, rfl, rfl, rfl, rfl, nofun⟩
  · have hrow : row = H := by omega
    rw [hpc]
    exact ⟨hrow, by rw [hrow]; rfl, rfl, rfl, rfl, rfl, rfl, nofun⟩

end Pc

section
variable {K : Type} (k : Instance) (a : KernelArgs K) (block : ℕ)

/-- The place of a thread is in keeping with the barriers it has met. -/
structure Placed (th : Thread K) : Prop where
  startRow : th.tileStartRow = th.tile * k.tileHeight
  startCol : th.tileStartCol = firstCol k a block + th.tile * k.tileHeight
  bar : th.bar = ⟨th.tile * (k.tileHeight + 2) + th.pc.passed k.tileHeight th.row, th.pc.arrived⟩
  row : th.pc.RowOk k.tileHeight th.row

variable {k a block}

/-- The barriers a thread has passed tell its row. -/
theorem Placed.rowsAt_passed {th : Thread K} (h : Placed k a block th) :
    rowsAt k.tileHeight th.bar.passed = th.globalRow := by
  obtain ⟨hlt, hrow⟩ := Pc.rows_passed h.row
  rw [h.bar, rowsAt_tile k.tileHeight th.tile hlt, hrow, Thread.globalRow, h.startRow]

/-- The barriers a thread has arrived at tell the rows it has published. -/
theorem Placed.rowsAt_arrivals {th : Thread K} (h : Placed k a block th) :
    rowsAt k.tileHeight th.bar.arrivals = th.globalRow + th.pc.published := by
  have harrivals : th.bar.arrivals =
      th.tile * (k.tileHeight + 2) + (th.pc.passed k.tileHeight th.row + th.pc.arrived.toNat) := by
    rw [h.bar]
    exact Nat.add_assoc ..
  rw [harrivals, Thread.globalRow, h.startRow]
  by_cases hpc : th.pc = .flushed
  · -- the last barrier of the tile
    have hrow := h.row
    rw [hpc] at hrow ⊢
    have hnext := rowsAt_tile k.tileHeight (th.tile + 1) (show 0 < k.tileHeight + 2 by omega)
    rw [Nat.succ_mul, Nat.succ_mul] at hnext
    have hrow' : th.row = k.tileHeight := hrow
    calc rowsAt k.tileHeight (th.tile * (k.tileHeight + 2) + (k.tileHeight + 1 + 1))
        = th.tile * k.tileHeight + k.tileHeight := by simpa using hnext
      _ = th.tile * k.tileHeight + th.row + 0 := by rw [hrow', Nat.add_zero]
  · obtain ⟨hlt, hrow⟩ := Pc.rows_arrived h.row hpc
    rw [rowsAt_tile k.tileHeight th.tile hlt, hrow, Nat.add_assoc]

/-- Tiles start in even rows. -/
theorem Placed.parity {th : Thread K} (h : Placed k a block th) : th.globalRow % 2 = th.row % 2 := by
  have heven : 2 ∣ th.tile * k.tileHeight := Dvd.dvd.mul_left k.height_even _
  rw [Thread.globalRow, h.startRow]
  omega

end

/-! ## What the registers hold -/

section
variable {K : Type} [Field K] [LinearOrder K] (k : Instance) (a : KernelArgs K) (cov : Buffer K) (block : ℕ)

/-- The column slot `i` of thread `t` has in a row, from the first column of the block on. -/
def ringCol (t row i : ℕ) : ℕ := slotCol k.blockDiags row (t * k.diagsPerThread + i)

/-- A value is the covariance of the recurrence in a row and a column of the block, when these are in the
    matrix. -/
def CovIs (row c : ℕ) (v : K) : Prop :=
  firstCol k a block + c < a.nX → row ≤ a.nY → v = covAt a cov row (firstCol k a block + c - row)

/-- The positions of a thread: its slots have the columns of a row, with their statistics, and the countdown
    is the distance of the last one from the edge of the meta-diagonal. -/
structure Positioned (t row : ℕ) (st : SCAMPShflState K) : Prop where
  cols : ∀ i < k.diagsPerThread, st.globalCol i = firstCol k a block + ringCol k t row i
  countdown : row + st.updatesRemaining = ringCol k t row (k.diagsPerThread - 1)
  stats : ∀ i < k.diagsPerThread, st.globalCol i < a.nX →
    st.dfc i = a.dfa (st.globalCol i) ∧ st.dgc i = a.dga (st.globalCol i) ∧
      st.inormc i = a.normsa (st.globalCol i)

/-- The covariance of a slot. The first slot of a warp has none of its own between the shuffle of a row and
    the read of the hand-off buffer in the next one. -/
def SlotCov (t i : ℕ) (th : Thread K) : Prop :=
  let row := th.globalRow
  match th.pc with
  | .rowLoaded => CovIs k a cov block row (ringCol k t row i) (th.state.cov i)
  | .rowPublished => CovIs k a cov block (row + 1) (ringCol k t row i + 1) (th.state.cov i)
  | .rowShuffled | .rowDone =>
      ¬(t % 32 = 0 ∧ i = 0) → CovIs k a cov block (row + 1) (ringCol k t (row + 1) i) (th.state.cov i)
  | _ =>
      ¬(t % 32 = 0 ∧ i = 0 ∧ 0 < row) → CovIs k a cov block row (ringCol k t row i) (th.state.cov i)

/-- The statistics of row `pos` of a tile are in shared memory. -/
def RowLoaded (smem : SCAMPShflSmem K) (tileStartRow pos : ℕ) : Prop :=
  smem.dfRow pos = a.dfb (tileStartRow + pos) ∧ smem.dgRow pos = a.dgb (tileStartRow + pos) ∧
    smem.inormRow pos = a.normsb (tileStartRow + pos)

/-- A thread in keeping with its place: its positions, its covariances, the rows it has loaded, and the
    statistics of its row. -/
structure ThreadOk (t : ℕ) (th : Thread K) (smem : SCAMPShflSmem K) : Prop extends Placed k a block th where
  positioned : Positioned k a block t (th.globalRow + th.pc.rotated) th.state
  localCol : th.pc.inTile = true → ∀ i < k.diagsPerThread,
    th.state.localCol i = (th.state.globalCol i : ℤ) - th.tileStartCol
  insideTile : ∀ i < k.diagsPerThread, 0 ≤ th.state.localCol i ∧ th.state.localCol i < k.tileWidth
  slotCov : ∀ i < k.diagsPerThread, SlotCov k a cov block t i th
  rows : th.pc.inTile = true → ∀ pos < k.tileHeight, pos % k.blocksz = t → th.tileStartRow + pos < a.nY →
    RowLoaded a smem th.tileStartRow pos
  rowStats : th.pc = .rowLoaded → th.globalRow < a.nY →
    th.dfr = a.dfb th.globalRow ∧ th.dgr = a.dgb th.globalRow ∧ th.inormr = a.normsb th.globalRow

/-- The hand-off buffers hold what the last lane of a warp has published, for the last row and for the row
    before it. -/
def HandedOn (p published : ℕ) (covHandoff : ℕ → K) : Prop :=
  ∀ row, 0 < row → (row = published ∨ row + 1 = published) →
    CovIs k a cov block row (slotCol k.blockDiags row ((p + 1) * k.diagsPerThread % k.blockDiags))
      (covHandoff (row % 2 * k.warpsPerBlock + p / 32))

/-- What holds of a block between two turns. -/
structure Inv (s : Block K) : Prop where
  inStep : InStep k.blocksz fun t => (s.threads t).bar
  together : ∀ t < k.blocksz, ∀ u < k.blocksz, t / 32 = u / 32 →
    (s.threads t).globalRow + (s.threads t).pc.shuffled = (s.threads u).globalRow + (s.threads u).pc.shuffled
  threads : ∀ t < k.blocksz, ThreadOk k a cov block t (s.threads t) s.smem
  handoff : ∀ p < k.blocksz, p % 32 = 31 →
    HandedOn k a cov block p ((s.threads p).globalRow + (s.threads p).pc.published) s.smem.covHandoff
  flushes : ∀ f ∈ s.colFlushes, 0 ≤ f.1 ∧ f.1 < k.tileWidth

end

/-! ## The ring of slots -/

section
variable {k : Instance}

theorem Instance.blockDiags_pos : 0 < k.blockDiags := Nat.mul_pos k.blocksz_pos k.diags_pos

theorem slots_le {t : ℕ} (ht : t < k.blocksz) : t * k.diagsPerThread + k.diagsPerThread ≤ k.blockDiags := by
  rw [← Nat.succ_mul]
  exact Nat.mul_le_mul_right _ ht

theorem warps_eq : k.blocksz = 32 * k.warpsPerBlock := (Nat.mul_div_cancel' k.warp_dvd_blocksz).symm

/-- A column of a slot is on a diagonal of the block. -/
theorem ringCol_bounds (t row i : ℕ) : row ≤ ringCol k t row i ∧ ringCol k t row i < row + k.blockDiags :=
  slotCol_bounds Instance.blockDiags_pos row _

theorem ringCol_next {t i : ℕ} (ht : t < k.blocksz) (hi : i + 1 < k.diagsPerThread) (row : ℕ) :
    ringCol k t row i + 1 = ringCol k t (row + 1) (i + 1) := by
  have hslots := slots_le ht
  have hnext := slotCol_next Instance.blockDiags_pos row
    (show t * k.diagsPerThread + i < k.blockDiags by omega)
  rw [Nat.mod_eq_of_lt (show t * k.diagsPerThread + i + 1 < k.blockDiags by omega)] at hnext
  exact hnext

/-- The column after that of a thread's last slot. -/
theorem ringCol_last {t : ℕ} (ht : t < k.blocksz) (row : ℕ) :
    ringCol k t row (k.diagsPerThread - 1) + 1 =
      slotCol k.blockDiags (row + 1) ((t + 1) * k.diagsPerThread % k.blockDiags) := by
  have hslots := slots_le ht
  have hD := k.diags_pos
  have hnext := slotCol_next Instance.blockDiags_pos row
    (show t * k.diagsPerThread + (k.diagsPerThread - 1) < k.blockDiags by omega)
  rwa [show t * k.diagsPerThread + (k.diagsPerThread - 1) + 1 = (t + 1) * k.diagsPerThread by
    rw [Nat.succ_mul]; omega] at hnext

/-- That is the first slot of the next thread in the warp. -/
theorem ringCol_lane {t : ℕ} (ht : t + 1 < k.blocksz) (row : ℕ) :
    ringCol k t row (k.diagsPerThread - 1) + 1 = ringCol k (t + 1) (row + 1) 0 := by
  have hslots := slots_le ht
  have hD := k.diags_pos
  rw [ringCol_last (by omega), Nat.mod_eq_of_lt (by omega)]
  rfl

/-- The last lane of the warp before the one that starts with thread `t`; the first warp follows the last. -/
def prevLast (k : Instance) (t : ℕ) : ℕ :=
  32 * ((t / 32 + k.warpsPerBlock - 1) % k.warpsPerBlock) + 31

theorem prevLast_spec {t : ℕ} (ht : t < k.blocksz) (hlane : t % 32 = 0) :
    prevLast k t < k.blocksz ∧ prevLast k t % 32 = 31 ∧
      prevLast k t / 32 = (t / 32 + k.warpsPerBlock - 1) % k.warpsPerBlock ∧
      (prevLast k t + 1) * k.diagsPerThread % k.blockDiags = t * k.diagsPerThread := by
  have hwarps := warps_eq (k := k)
  have hslots := slots_le ht
  have hD := k.diags_pos
  have hpos : 0 < k.warpsPerBlock := by have := k.blocksz_pos; omega
  have hprev := Nat.mod_lt (t / 32 + k.warpsPerBlock - 1) hpos
  refine ⟨by unfold prevLast; omega, by unfold prevLast; omega, by unfold prevLast; omega, ?_⟩
  by_cases hfirst : t = 0
  · -- the first warp follows the last
    have hlast : prevLast k t + 1 = k.blocksz := by
      unfold prevLast
      rw [hfirst, Nat.zero_div, Nat.zero_add, Nat.mod_eq_of_lt (by omega)]
      omega
    rw [hlast, hfirst, Nat.zero_mul]
    exact Nat.mod_self _
  · have hbefore : prevLast k t + 1 = t := by
      unfold prevLast
      rw [show t / 32 + k.warpsPerBlock - 1 = t / 32 - 1 + k.warpsPerBlock by omega, Nat.add_mod_right,
        Nat.mod_eq_of_lt (by omega)]
      omega
    rw [hbefore, Nat.mod_eq_of_lt (by omega)]

end

section
variable {K : Type} [Field K] {k : Instance} {a : KernelArgs K} {cov : Buffer K} {block : ℕ}

omit [Field K] in
/-- A position in the tile, as far as the rows of the tile before. -/
theorem localCol_bounds {t : ℕ} {th : Thread K} (h : Placed k a block th) {i r : ℕ}
    (hcol : th.state.globalCol i = firstCol k a block + ringCol k t (th.globalRow + r) i)
    (hlocal : th.state.localCol i = (th.state.globalCol i : ℤ) - th.tileStartCol) :
    (th.row + r : ℤ) ≤ th.state.localCol i ∧ th.state.localCol i < th.row + r + k.blockDiags := by
  obtain ⟨hle, hlt⟩ := ringCol_bounds (k := k) t (th.globalRow + r) i
  have hstart := h.startCol
  have hrow : th.globalRow = th.tile * k.tileHeight + th.row := by rw [Thread.globalRow, h.startRow]
  rw [hlocal, hcol, hstart]
  push_cast
  omega

omit [Field K] in
theorem insideTile_of_localCol {t : ℕ} {th : Thread K} (h : Placed k a block th) {i r : ℕ}
    (hrow : th.row + r ≤ k.tileHeight)
    (hcol : th.state.globalCol i = firstCol k a block + ringCol k t (th.globalRow + r) i)
    (hlocal : th.state.localCol i = (th.state.globalCol i : ℤ) - th.tileStartCol) :
    0 ≤ th.state.localCol i ∧ th.state.localCol i < k.tileWidth := by
  obtain ⟨hle, hlt⟩ := localCol_bounds h hcol hlocal
  have hwidth : k.tileWidth = k.blockDiags + k.tileHeight := rfl
  constructor <;> omega

/-- **One row of the recurrence**: the update with the statistics of the column and of the row. -/
theorem covIs_succ {row c : ℕ} {v dfc dgc dfr dgr : K} (hc : row ≤ c) (hv : CovIs k a cov block row c v)
    (hcol : firstCol k a block + c < a.nX →
      dfc = a.dfa (firstCol k a block + c) ∧ dgc = a.dga (firstCol k a block + c))
    (hrow : row < a.nY → dfr = a.dfb row ∧ dgr = a.dgb row) :
    CovIs k a cov block (row + 1) (c + 1) (v + dfc * dgr + dgc * dfr) := by
  intro hx hy
  obtain ⟨rfl, rfl⟩ := hcol (by omega)
  obtain ⟨rfl, rfl⟩ := hrow (by omega)
  rw [hv (by omega) (by omega), show firstCol k a block + (c + 1) - (row + 1) = firstCol k a block + c - row
    by omega]
  show _ = covAt a cov row _ + _ + _
  rw [show firstCol k a block + c - row + row = firstCol k a block + c by omega]

/-! ## Turns of a thread -/

variable {s : Block K} {t : ℕ}

/-- **A thread changes**, with the shared memory it may write: its own rows of the tile, and what it hands
    on. -/
theorem Inv.set (h : Inv k a cov block s) {s' : Block K} {th : Thread K}
    {flushes : List (ℤ × MpEntry K)} (hthreads : s'.threads = Function.update s.threads t th)
    (hflushes : s'.colFlushes = s.colFlushes ++ flushes)
    (hgrows : (s.threads t).bar.arrivals ≤ th.bar.arrivals)
    (hpassed : ∀ u < k.blocksz, th.bar.passed ≤ (s.threads u).bar.arrivals)
    (hshuffled : th.globalRow + th.pc.shuffled = (s.threads t).globalRow + (s.threads t).pc.shuffled)
    (hok : ThreadOk k a cov block t th s'.smem)
    (hothers : ∀ tileStartRow pos, pos % k.blocksz ≠ t → RowLoaded a s.smem tileStartRow pos →
      RowLoaded a s'.smem tileStartRow pos)
    (hhandoff : ∀ p < k.blocksz, p % 32 = 31 →
      HandedOn k a cov block p ((s'.threads p).globalRow + (s'.threads p).pc.published) s'.smem.covHandoff)
    (hinside : ∀ f ∈ flushes, 0 ≤ f.1 ∧ f.1 < k.tileWidth) : Inv k a cov block s' where
  inStep := by
    have hbars : (fun u => (s'.threads u).bar) = Function.update (fun u => (s.threads u).bar) t th.bar := by
      funext u
      rw [hthreads]
      by_cases hu : u = t
      · rw [hu, Function.update_self, Function.update_self]
      · rw [Function.update_of_ne hu, Function.update_of_ne hu]
    rw [hbars]
    exact h.inStep.update hgrows hpassed
  together := by
    have hsame : ∀ u, (s'.threads u).globalRow + (s'.threads u).pc.shuffled =
        (s.threads u).globalRow + (s.threads u).pc.shuffled := by
      intro u
      rw [hthreads]
      by_cases hu : u = t
      · rw [hu, Function.update_self, hshuffled]
      · rw [Function.update_of_ne hu]
    intro u hu v hv huv
    rw [hsame, hsame]
    exact h.together u hu v hv huv
  threads := by
    intro u hu
    by_cases hut : u = t
    · rw [hthreads, hut, Function.update_self]
      exact hok
    · rw [hthreads, Function.update_of_ne hut]
      have hold := h.threads u hu
      -- the rows that another thread has loaded are still there
      exact { hold with
        rows := fun hin pos hpos hmod hy =>
          hothers _ pos (fun hmod' => hut (hmod.symm.trans hmod')) (hold.rows hin pos hpos hmod hy) }
  handoff := hhandoff
  flushes := by
    intro f hf
    rw [hflushes, List.mem_append] at hf
    exact hf.elim (h.flushes f) (hinside f)

/-- **A thread changes** and publishes nothing. -/
theorem Inv.setThread (h : Inv k a cov block s) {s' : Block K} {th : Thread K}
    {flushes : List (ℤ × MpEntry K)} (hthreads : s'.threads = Function.update s.threads t th)
    (hflushes : s'.colFlushes = s.colFlushes ++ flushes)
    (hgrows : (s.threads t).bar.arrivals ≤ th.bar.arrivals)
    (hpassed : ∀ u < k.blocksz, th.bar.passed ≤ (s.threads u).bar.arrivals)
    (hshuffled : th.globalRow + th.pc.shuffled = (s.threads t).globalRow + (s.threads t).pc.shuffled)
    (hok : ThreadOk k a cov block t th s'.smem)
    (hothers : ∀ tileStartRow pos, pos % k.blocksz ≠ t → RowLoaded a s.smem tileStartRow pos →
      RowLoaded a s'.smem tileStartRow pos)
    (hpublished : th.globalRow + th.pc.published = (s.threads t).globalRow + (s.threads t).pc.published)
    (hhandoff : s'.smem.covHandoff = s.smem.covHandoff)
    (hinside : ∀ f ∈ flushes, 0 ≤ f.1 ∧ f.1 < k.tileWidth) : Inv k a cov block s' := by
  refine h.set hthreads hflushes hgrows hpassed hshuffled hok hothers (fun p hp hlane => ?_) hinside
  have hsame : (s'.threads p).globalRow + (s'.threads p).pc.published =
      (s.threads p).globalRow + (s.threads p).pc.published := by
    rw [hthreads]
    by_cases hpt : p = t
    · rw [hpt, Function.update_self, hpublished]
    · rw [Function.update_of_ne hpt]
  rw [hsame, hhandoff]
  exact h.handoff p hp hlane

/-- Between two rows the covariances stay. -/
theorem slotCov_between {th : Thread K} {i : ℕ} (hpc : th.pc.between = true) :
    SlotCov k a cov block t i th ↔ (¬(t % 32 = 0 ∧ i = 0 ∧ 0 < th.globalRow) →
      CovIs k a cov block th.globalRow (ringCol k t th.globalRow i) (th.state.cov i)) := by
  unfold SlotCov
  cases hth : th.pc with
  | rowLoaded | rowPublished | rowShuffled | rowDone =>
      rw [hth] at hpc
      cases hpc
  | tileStart | tileLoaded | rowStart | flushing | flushed | finished => exact Iff.rfl

theorem SlotCov.keep {th th' : Thread K} {i : ℕ} (h : SlotCov k a cov block t i th)
    (hpc : th.pc.between = true) (hpc' : th'.pc.between = true) (hrow : th'.globalRow = th.globalRow)
    (hcov : th'.state.cov = th.state.cov) : SlotCov k a cov block t i th' := by
  rw [slotCov_between hpc', hrow, hcov]
  exact (slotCov_between hpc).mp h

end

section
variable {K : Type} [Field K] {k : Instance} {a : KernelArgs K} {cov : Buffer K} {block : ℕ} {s : Block K}
  {t : ℕ}

omit [Field K] in
/-- A thread loads its rows of the tile, -/
theorem rowLoaded_init {th : Thread K} {smem : SCAMPShflSmem K} {pos : ℕ} (hmod : pos % k.blocksz = t)
    (hpos : pos < k.tileHeight) (hy : th.tileStartRow + pos < a.nY) :
    RowLoaded a (initSmemShfl k a t th smem) th.tileStartRow pos := by
  have hloads : decide (pos % k.blocksz = t ∧ pos < k.tileHeight ∧ th.tileStartRow + pos < a.nY) = true :=
    decide_eq_true ⟨hmod, hpos, hy⟩
  exact ⟨if_pos hloads, if_pos hloads, if_pos hloads⟩

omit [Field K] in
/-- and no others. -/
theorem rowLoaded_init_of_ne {th : Thread K} {smem : SCAMPShflSmem K} {tileStartRow pos : ℕ}
    (hmod : pos % k.blocksz ≠ t) (h : RowLoaded a smem tileStartRow pos) :
    RowLoaded a (initSmemShfl k a t th smem) tileStartRow pos := by
  have hloads : ¬decide (pos % k.blocksz = t ∧ pos < k.tileHeight ∧ th.tileStartRow + pos < a.nY) = true :=
    fun hd => hmod (of_decide_eq_true hd).1
  exact ⟨(if_neg hloads).trans h.1, (if_neg hloads).trans h.2.1, (if_neg hloads).trans h.2.2⟩

/-- A thread whose program counter is known. -/
theorem ThreadOk.of_pc {th : Thread K} {smem : SCAMPShflSmem K} (hok : ThreadOk k a cov block t th smem) {pc : Pc}
    (hpc : th.pc = pc) :
    pc.RowOk k.tileHeight th.row ∧
      th.bar = ⟨th.tile * (k.tileHeight + 2) + pc.passed k.tileHeight th.row, pc.arrived⟩ ∧
      Positioned k a block t (th.globalRow + pc.rotated) th.state := by
  subst hpc
  exact ⟨hok.row, hok.bar, hok.positioned⟩

/-- `init_smem_shfl` and the positions in the tile. -/
theorem inv_tileStart (h : Inv k a cov block s) (ht : t < k.blocksz) (hpc : (s.threads t).pc = .tileStart) :
    Inv k a cov block { s.setThread t { s.threads t with
        state := { (s.threads t).state with
          localCol := fun i => ((s.threads t).state.globalCol i : ℤ) - (s.threads t).tileStartCol }
        bar := (s.threads t).bar.arrive
        pc := .tileLoaded } with
      smem := initSmemShfl k a t (s.threads t) s.smem } := by
  have hok := h.threads t ht
  obtain ⟨hrow, -, hpos⟩ := hok.of_pc hpc
  have hrow : (s.threads t).row = 0 := hrow
  have hplaced : Placed k a block { s.threads t with
      state := { (s.threads t).state with
        localCol := fun i => ((s.threads t).state.globalCol i : ℤ) - (s.threads t).tileStartCol }
      bar := (s.threads t).bar.arrive
      pc := .tileLoaded } := by
    refine ⟨hok.startRow, hok.startCol, ?_, hrow⟩
    show (s.threads t).bar.arrive = _
    rw [hok.bar, hpc]
    rfl
  refine h.setThread rfl (List.append_nil _).symm (s.threads t).bar.arrivals_le_arrive
    (fun u hu => h.inStep t ht u hu) (by rw [hpc]; rfl) { hplaced with
      positioned := ⟨hpos.cols, hpos.countdown, hpos.stats⟩
      localCol := fun _ i _ => rfl
      insideTile := fun i hi =>
        insideTile_of_localCol hplaced (r := 0) (Pc.row_le hplaced.row) (hpos.cols i hi) rfl
      slotCov := fun i hi => (hok.slotCov i hi).keep (by rw [hpc]; rfl) rfl rfl rfl
      rows := fun _ pos hpos hmod hy => rowLoaded_init hmod hpos hy
      rowStats := fun hloaded => by cases hloaded }
    (fun _ _ hmod hloaded => rowLoaded_init_of_ne hmod hloaded) (by rw [hpc]; rfl) rfl (by simp)

/-- The loop over the tiles ends. -/
theorem inv_finish (h : Inv k a cov block s) (ht : t < k.blocksz) (hpc : (s.threads t).pc = .tileStart) :
    Inv k a cov block (s.setThread t { s.threads t with pc := .finished }) := by
  have hok := h.threads t ht
  obtain ⟨hrow, hbar, hpos⟩ := hok.of_pc hpc
  exact h.setThread rfl (List.append_nil _).symm le_rfl (fun u hu => h.inStep t ht u hu)
    (by rw [hpc]; rfl) { hok with
      bar := hbar
      row := hrow
      positioned := hpos
      localCol := fun hin => by cases hin
      slotCov := fun i hi => (hok.slotCov i hi).keep (by rw [hpc]; rfl) rfl rfl rfl
      rows := fun hin => by cases hin
      rowStats := fun hloaded => by cases hloaded }
    (fun _ _ _ hloaded => hloaded) (by rw [hpc]; rfl) rfl (by simp)

/-- What holds of a thread at a barrier after which a row begins, or the rows of a tile end. -/
theorem beforeRow_spec {th : Thread K} (hok : ThreadOk k a cov block t th s.smem)
    (hpc : th.pc = .tileLoaded ∨ th.pc = .rowDone) :
    th.row + th.pc.rotated ≤ k.tileHeight ∧
      th.pc.passed k.tileHeight th.row = th.row + th.pc.rotated ∧ th.pc.inTile = true ∧
      th.pc.published = th.pc.rotated ∧ th.pc.shuffled = th.pc.rotated ∧
      ∀ i < k.diagsPerThread, ¬(t % 32 = 0 ∧ i = 0 ∧ 0 < th.globalRow + th.pc.rotated) →
        CovIs k a cov block (th.globalRow + th.pc.rotated) (ringCol k t (th.globalRow + th.pc.rotated) i)
          (th.state.cov i) := by
  have hrow := hok.row
  have hcov := hok.slotCov
  unfold SlotCov at hcov
  rcases hpc with hpc | hpc <;> rw [hpc] at hrow hcov ⊢
  · have hzero : th.row = 0 := hrow
    exact ⟨by rw [hzero]; exact Nat.zero_le _, by rw [hzero]; rfl, rfl, rfl, rfl, hcov⟩
  · exact ⟨hrow, rfl, rfl, rfl, rfl, fun i hi hfirst => hcov i hi fun h0 => hfirst ⟨h0.1, h0.2, Nat.succ_pos _⟩⟩

/-- A thread passes such a barrier. -/
theorem inv_toRow (h : Inv k a cov block s) (ht : t < k.blocksz)
    (hpc : (s.threads t).pc = .tileLoaded ∨ (s.threads t).pc = .rowDone)
    (hopen : Opens k.blocksz (fun u => (s.threads u).bar) t) (best : ℕ → MpEntry K) :
    Inv k a cov block (s.setThread t { s.threads t with
      state := { (s.threads t).state with best := best }
      bar := (s.threads t).bar.pass
      row := (s.threads t).row + (s.threads t).pc.rotated
      pc := Pc.toRow k.tileHeight ((s.threads t).row + (s.threads t).pc.rotated) }) := by
  have hok := h.threads t ht
  have hpos := hok.positioned
  obtain ⟨hle, hpassed, hin, hpub, hshuf, hcov⟩ := beforeRow_spec hok hpc
  obtain ⟨hrow', hpassed', harr', hbetween, hrot', hpub', hshuf', hne⟩ := Pc.toRow_spec hle
  -- the row that begins is the one after the rotation
  have hglobal : (s.threads t).tileStartRow + ((s.threads t).row + (s.threads t).pc.rotated) =
      (s.threads t).globalRow + (s.threads t).pc.rotated := (Nat.add_assoc ..).symm
  refine h.setThread rfl (List.append_nil _).symm (s.threads t).bar.arrivals_le_succ
    (fun u hu => hopen.2 u hu) ?_ { hok with
      bar := ?_
      row := hrow'
      positioned := ?_
      localCol := fun _ => hok.localCol hin
      slotCov := fun i hi => ?_
      rows := fun _ => hok.rows hin
      rowStats := fun hloaded => absurd hloaded hne }
    (fun _ _ _ hloaded => hloaded) ?_ rfl (by simp)
  · show _ + (Pc.toRow _ _).shuffled = _
    rw [hshuf', hshuf]
    exact hglobal
  · show (s.threads t).bar.pass = ⟨_ + (Pc.toRow _ _).passed _ _, (Pc.toRow _ _).arrived⟩
    rw [hpassed', harr', hok.bar, hpassed]
    rfl
  · show Positioned k a block t (_ + (Pc.toRow _ _).rotated) _
    rw [hrot']
    show Positioned k a block t ((s.threads t).tileStartRow + ((s.threads t).row + (s.threads t).pc.rotated)) _
    rw [hglobal]
    exact ⟨hpos.cols, hpos.countdown, hpos.stats⟩
  · rw [slotCov_between hbetween]
    have hthis := hcov i hi
    rw [← hglobal] at hthis
    exact hthis
  · show _ + (Pc.toRow _ _).published = _
    rw [hpub', hpub]
    exact hglobal

/-! ### The parts of a row -/

/-- A thread that starts a row finds its statistics in shared memory: the thread that loads them has done so
    in this tile, and is not in the next one. -/
theorem rowLoaded_at_start (h : Inv k a cov block s) (ht : t < k.blocksz) (hpc : (s.threads t).pc = .rowStart)
    (hy : (s.threads t).globalRow < a.nY) :
    RowLoaded a s.smem (s.threads t).tileStartRow (s.threads t).row := by
  have hok := h.threads t ht
  have hrow : (s.threads t).row < k.tileHeight := by
    have hrow := hok.row
    rwa [hpc] at hrow
  have hu : (s.threads t).row % k.blocksz < k.blocksz := Nat.mod_lt _ k.blocksz_pos
  generalize hwriter : (s.threads t).row % k.blocksz = u at hu
  have hoku := h.threads u hu
  have hbar : (s.threads t).bar =
      ⟨(s.threads t).tile * (k.tileHeight + 2) + ((s.threads t).row + 1), false⟩ := by
    rw [hok.bar, hpc]
    rfl
  have hahead : (s.threads u).bar.passed ≤ (s.threads t).bar.arrivals := h.inStep u hu t ht
  have hbehind : (s.threads t).bar.passed ≤ (s.threads u).bar.arrivals := h.inStep t ht u hu
  rw [hoku.bar, hbar] at hahead hbehind
  replace hahead : (s.threads u).tile * (k.tileHeight + 2) +
      (s.threads u).pc.passed k.tileHeight (s.threads u).row ≤
    (s.threads t).tile * (k.tileHeight + 2) + ((s.threads t).row + 1) := hahead
  replace hbehind : (s.threads t).tile * (k.tileHeight + 2) + ((s.threads t).row + 1) ≤
    (s.threads u).tile * (k.tileHeight + 2) + (s.threads u).pc.passed k.tileHeight (s.threads u).row +
      (s.threads u).pc.arrived.toNat := hbehind
  -- the barriers keep the two in one tile
  have htile : (s.threads u).tile = (s.threads t).tile :=
    same_tile hahead hbehind (Pc.rows_passed hoku.row).1 (Bool.toNat_le _) hrow
  -- and the writer has passed the barrier after the load
  have hin : (s.threads u).pc.inTile = true := by
    rw [htile] at hbehind
    cases hupc : (s.threads u).pc with
    | tileStart | finished =>
        rw [hupc] at hbehind
        exact absurd hbehind (Nat.not_le_of_lt (Nat.lt_add_of_pos_right (Nat.succ_pos _)))
    | tileLoaded | rowStart | rowLoaded | rowPublished | rowShuffled | rowDone | flushing | flushed => rfl
  have hstart : (s.threads u).tileStartRow = (s.threads t).tileStartRow := by
    rw [hoku.startRow, hok.startRow, htile]
  have hloaded := hoku.rows hin (s.threads t).row hrow hwriter (by rw [hstart]; exact hy)
  rwa [hstart] at hloaded

/-- The first lane of a warp finds its covariance in the hand-off buffer: the last lane of the warp before
    has published the row before, and at most one row more. -/
theorem handoff_at_start (h : Inv k a cov block s) (ht : t < k.blocksz) (hpc : (s.threads t).pc = .rowStart)
    (hlane : t % 32 = 0) (hrow : 0 < (s.threads t).globalRow) :
    CovIs k a cov block (s.threads t).globalRow (ringCol k t (s.threads t).globalRow 0)
      (s.smem.covHandoff ((s.threads t).row % 2 * k.warpsPerBlock +
        (t / 32 + k.warpsPerBlock - 1) % k.warpsPerBlock)) := by
  obtain ⟨hp, hplane, hpwarp, hpcol⟩ := prevLast_spec ht hlane
  have hok := h.threads t ht
  have hokp := h.threads _ hp
  have harrivals : (s.threads t).bar.arrivals = (s.threads t).bar.passed := by
    rw [hok.bar, hpc]
    rfl
  -- the writer is in the same row, or one ahead
  have hlow := rowsAt_mono k.tileHeight (h.inStep t ht _ hp)
  have hhigh := rowsAt_mono k.tileHeight ((s.threads (prevLast k t)).bar.arrivals_le_succ.trans
    (Nat.add_le_add_right (h.inStep _ hp t ht) 1))
  have hsucc := (rowsAt_succ k.tileHeight (s.threads t).bar.passed).2
  rw [hok.toPlaced.rowsAt_passed, hokp.toPlaced.rowsAt_arrivals] at hlow
  rw [harrivals, hokp.toPlaced.rowsAt_arrivals] at hhigh
  rw [hok.toPlaced.rowsAt_passed] at hsucc
  have hread := h.handoff _ hp hplane (s.threads t).globalRow hrow (by omega)
  rw [hok.toPlaced.parity, hpwarp, hpcol] at hread
  exact hread

/-- The loads of a row. -/
theorem inv_loadRow (h : Inv k a cov block s) (ht : t < k.blocksz) (hpc : (s.threads t).pc = .rowStart) :
    Inv k a cov block (s.setThread t (loadRow k t (s.threads t) s.smem)) := by
  have hok := h.threads t ht
  obtain ⟨hrow, hbar, hpos⟩ := hok.of_pc hpc
  refine h.setThread rfl (List.append_nil _).symm le_rfl (fun u hu => h.inStep t ht u hu)
    (by rw [hpc]; rfl) { hok with
      bar := hbar
      row := hrow
      positioned := ⟨hpos.cols, hpos.countdown, hpos.stats⟩
      localCol := fun _ => hok.localCol (by rw [hpc]; rfl)
      slotCov := fun i hi => ?_
      rows := fun _ => hok.rows (by rw [hpc]; rfl)
      rowStats := fun _ hy => rowLoaded_at_start h ht hpc hy }
    (fun _ _ _ hloaded => hloaded) (by rw [hpc]; rfl) rfl (by simp)
  have hcov := (slotCov_between (by rw [hpc]; rfl)).mp (hok.slotCov i hi)
  show CovIs k a cov block (s.threads t).globalRow (ringCol k t (s.threads t).globalRow i)
    ((if t % 32 = 0 ∧ 0 < (s.threads t).globalRow then Function.update (s.threads t).state.cov 0 _
      else (s.threads t).state.cov) i)
  by_cases hfirst : t % 32 = 0 ∧ 0 < (s.threads t).globalRow
  · rw [if_pos hfirst]
    by_cases hi0 : i = 0
    · rw [hi0, Function.update_self]
      exact handoff_at_start h ht hpc hfirst.1 hfirst.2
    · rw [Function.update_of_ne hi0]
      exact hcov fun h0 => hi0 h0.2.1
  · rw [if_neg hfirst]
    exact hcov fun h0 => hfirst ⟨h0.1, h0.2.2⟩

omit [Field K] in
/-- Publishing does not touch the statistics of the rows. -/
theorem rowLoaded_publish {th : Thread K} {smem : SCAMPShflSmem K} {tileStartRow pos : ℕ}
    (h : RowLoaded a smem tileStartRow pos) : RowLoaded a (publish k t th smem) tileStartRow pos := by
  unfold publish
  split <;> exact h

/-- The entries of the hand-off buffers are different ones. -/
theorem handoffIndex_inj {w x y p q : ℕ} (hx : x < 2) (hy : y < 2) (hp : p < w) (hq : q < w)
    (h : x * w + p = y * w + q) : x = y ∧ p = q := by
  have hx : x = 0 ∨ x = 1 := by omega
  have hy : y = 0 ∨ y = 1 := by omega
  rcases hx with rfl | rfl <;> rcases hy with rfl | rfl <;> constructor <;> omega

/-- What is handed on by others stays. -/
theorem handedOn_publish_of_ne {th : Thread K} {smem : SCAMPShflSmem K} {p published : ℕ} (ht : t < k.blocksz)
    (hp : p < k.blocksz) (hlane : p % 32 = 31) (hne : p ≠ t)
    (h : HandedOn k a cov block p published smem.covHandoff) :
    HandedOn k a cov block p published (publish k t th smem).covHandoff := by
  unfold publish
  split
  · next htlane =>
      have hwarps := warps_eq (k := k)
      intro row hrow hlast
      show CovIs k a cov block row _ (Function.update smem.covHandoff _ _ _)
      rw [Function.update_of_ne]
      · exact h row hrow hlast
      · intro heq
        have hinj := handoffIndex_inj (by omega) (by omega) (by omega) (by omega) heq
        omega
  · exact h

/-- What a thread hands on: the row it publishes, and the one before is still there. -/
theorem handedOn_publish {th : Thread K} {smem : SCAMPShflSmem K} {row : ℕ} (ht : t < k.blocksz)
    (hlane : t % 32 = 31) (hparity : row % 2 = th.row % 2)
    (hcov : CovIs k a cov block (row + 1) (ringCol k t row (k.diagsPerThread - 1) + 1)
      (th.state.cov (k.diagsPerThread - 1)))
    (h : HandedOn k a cov block t row smem.covHandoff) :
    HandedOn k a cov block t (row + 1) (publish k t th smem).covHandoff := by
  unfold publish
  rw [if_pos hlane]
  have hwarps := warps_eq (k := k)
  intro n hn hlast
  show CovIs k a cov block n _ (Function.update smem.covHandoff _ _ _)
  rcases hlast with rfl | hlast
  · rw [show (row + 1) % 2 = 1 - th.row % 2 by omega, Function.update_self, ← ringCol_last ht]
    exact hcov
  · obtain rfl : n = row := by omega
    rw [Function.update_of_ne]
    · exact h n hn (Or.inl rfl)
    · intro heq
      have hinj := handoffIndex_inj (by omega) (by omega) (by omega) (by omega) heq
      omega

/-- The covariances of the next row, and what the last lane of a warp publishes of them. -/
theorem inv_computeRow [LinearOrder K] (h : Inv k a cov block s) (ht : t < k.blocksz) (hpc : (s.threads t).pc = .rowLoaded) :
    Inv k a cov block { s.setThread t (computeRow k a (s.threads t)) with
      smem := publish k t (computeRow k a (s.threads t)) s.smem } := by
  have hok := h.threads t ht
  obtain ⟨hrow, hbar, hpos⟩ := hok.of_pc hpc
  have hstats := hok.rowStats hpc
  have hnext : ∀ i < k.diagsPerThread, CovIs k a cov block ((s.threads t).globalRow + 1)
      (ringCol k t (s.threads t).globalRow i + 1) ((computeRow k a (s.threads t)).state.cov i) := by
    intro i hi
    have hcov := hok.slotCov i hi
    unfold SlotCov at hcov
    rw [hpc] at hcov
    refine covIs_succ (ringCol_bounds t _ i).1 hcov (fun hx => ?_) (fun hy => ?_)
    · have hcol := hpos.cols i hi
      have := hpos.stats i hi (by rw [hcol]; exact hx)
      rw [hcol] at this
      exact ⟨this.1, this.2.1⟩
    · exact ⟨(hstats hy).1, (hstats hy).2.1⟩
  refine h.set rfl (List.append_nil _).symm
    (s.threads t).bar.arrivals_le_arrive (fun u hu => h.inStep t ht u hu) (by rw [hpc]; rfl) { hok with
      bar := ?_
      row := hrow
      positioned := ⟨hpos.cols, hpos.countdown, hpos.stats⟩
      localCol := fun _ => hok.localCol (by rw [hpc]; rfl)
      slotCov := hnext
      rows := fun _ pos hpos hmod hy => rowLoaded_publish (hok.rows (by rw [hpc]; rfl) pos hpos hmod hy)
      rowStats := fun hloaded => by cases hloaded }
    (fun _ _ _ hloaded => rowLoaded_publish hloaded) (fun p hp hlane => ?_) (by simp)
  · show (s.threads t).bar.arrive = _
    rw [hbar]
    rfl
  · -- only the last lane of a warp publishes, and only in its own place
    by_cases hpt : p = t
    · have hhanded := h.handoff t ht (hpt ▸ hlane)
      rw [hpc] at hhanded
      show HandedOn k a cov block p (((Function.update s.threads t _) p).globalRow +
        ((Function.update s.threads t _) p).pc.published) _
      rw [hpt, Function.update_self]
      exact handedOn_publish ht (hpt ▸ hlane) hok.toPlaced.parity
        (hnext _ (Nat.sub_lt k.diags_pos Nat.one_pos)) hhanded
    · show HandedOn k a cov block p (((Function.update s.threads t _) p).globalRow +
        ((Function.update s.threads t _) p).pc.published) _
      rw [Function.update_of_ne hpt]
      exact handedOn_publish_of_ne ht hp hlane hpt (h.handoff p hp hlane)

/-! ### Rotation -/

/-- The ladder has a rung for every slot a thread can have. -/
theorem ladder_find {u D : ℕ} (hu : u < D) (hD : D ≤ 8) :
    ([7, 6, 5, 4, 3, 2, 1, 0].find? fun rung => decide (rung < D ∧ u = rung)) = some u := by
  have hu8 : u < 8 := by omega
  interval_cases u <;> simp [List.find?, hu]

theorem doUpdateInfoShfl_eq {fast : Bool} {st : SCAMPShflState K}
    (hu : st.updatesRemaining < k.diagsPerThread) :
    doUpdateInfoShfl k a fast st = updateInfoShfl k a fast st.updatesRemaining st := by
  unfold doUpdateInfoShfl
  rw [ladder_find hu k.diags_le]

theorem rotate_of_lt {fast : Bool} {st : SCAMPShflState K} (hu : st.updatesRemaining < k.diagsPerThread) :
    rotate k a fast st = ({ (updateInfoShfl k a fast st.updatesRemaining st).1 with
      updatesRemaining := (if st.updatesRemaining = 0 then k.blockDiags else st.updatesRemaining) - 1 },
      (updateInfoShfl k a fast st.updatesRemaining st).2) := by
  unfold rotate
  rw [if_pos hu, doUpdateInfoShfl_eq hu]
  rfl

theorem rotate_of_le {fast : Bool} {st : SCAMPShflState K} (hu : k.diagsPerThread ≤ st.updatesRemaining) :
    rotate k a fast st = ({ st with updatesRemaining := st.updatesRemaining - 1 }, []) := by
  unfold rotate
  rw [if_neg (Nat.not_lt.mpr hu)]

/-- **Rotation** takes the slots to their columns in the next row, with the statistics of these. -/
theorem positioned_rotate {row : ℕ} (fast : Bool) {st : SCAMPShflState K} (ht : t < k.blocksz)
    (h : Positioned k a block t row st) : Positioned k a block t (row + 1) (rotate k a fast st).1 := by
  have hslots := slots_le ht
  have hn := k.blockDiags_pos
  have hmoves : ∀ i < k.diagsPerThread,
      (ringCol k t row i = row ↔ st.updatesRemaining = k.diagsPerThread - 1 - i) :=
    fun i hi => slot_moves_iff hn row hslots h.countdown hi
  have hcount := countdown_succ hn row hslots h.countdown k.diags_pos
  have hsucc : ∀ i < k.diagsPerThread, ringCol k t (row + 1) i =
      if ringCol k t row i = row then ringCol k t row i + k.blockDiags else ringCol k t row i :=
    fun i hi => slotCol_succ hn row (by omega)
  by_cases hu : st.updatesRemaining < k.diagsPerThread
  · rw [rotate_of_lt hu]
    refine ⟨fun i hi => ?_, hcount, fun i hi hx => ?_⟩
    · show Function.update st.globalCol _ _ i = _
      rw [hsucc i hi]
      by_cases hslot : i = k.diagsPerThread - 1 - st.updatesRemaining
      · rw [if_pos ((hmoves i hi).mpr (by omega)), hslot, Function.update_self, ← hslot, h.cols i hi,
          Nat.add_assoc]
      · rw [if_neg fun hmove => hslot (by have := (hmoves i hi).mp hmove; omega),
          Function.update_of_ne hslot, h.cols i hi]
    · replace hx : Function.update st.globalCol (k.diagsPerThread - 1 - st.updatesRemaining) _ i < a.nX := hx
      by_cases hslot : i = k.diagsPerThread - 1 - st.updatesRemaining
      · -- the slot that moves on loads its column, which is in the matrix
        rw [← hslot, Function.update_self] at hx
        have hinside : (fast || decide (st.globalCol i + k.blockDiags < a.nX)) = true := by
          rw [decide_eq_true hx, Bool.or_true]
        rw [hslot] at hinside ⊢
        simp only [updateInfoShfl, Function.update_self, hinside, if_true, and_self]
      · rw [Function.update_of_ne hslot] at hx
        simp only [updateInfoShfl, Function.update_of_ne hslot]
        exact h.stats i hi hx
  · rw [rotate_of_le (Nat.not_lt.mp hu)]
    rw [if_neg (by have := k.diags_pos; omega)] at hcount
    refine ⟨fun i hi => ?_, hcount, h.stats⟩
    rw [hsucc i hi, if_neg fun hmove => hu (by have := (hmoves i hi).mp hmove; omega)]
    exact h.cols i hi

/-- The positions in the tile move on with those in the matrix. -/
theorem localCol_rotate (fast : Bool) {st : SCAMPShflState K} {tileStart : ℕ}
    (h : ∀ i < k.diagsPerThread, st.localCol i = (st.globalCol i : ℤ) - tileStart) :
    ∀ i < k.diagsPerThread, (rotate k a fast st).1.localCol i = ((rotate k a fast st).1.globalCol i : ℤ) -
      tileStart := by
  intro i hi
  by_cases hu : st.updatesRemaining < k.diagsPerThread
  · rw [rotate_of_lt hu]
    show Function.update st.localCol _ _ i = (Function.update st.globalCol _ _ i : ℕ) - (tileStart : ℤ)
    by_cases hslot : i = k.diagsPerThread - 1 - st.updatesRemaining
    · rw [← hslot, Function.update_self, Function.update_self, h i hi]
      push_cast
      ring
    · rw [Function.update_of_ne hslot, Function.update_of_ne hslot]
      exact h i hi
  · rw [rotate_of_le (Nat.not_lt.mp hu)]
    exact h i hi

theorem cov_rotate (fast : Bool) (st : SCAMPShflState K) : (rotate k a fast st).1.cov = st.cov := by
  by_cases hu : st.updatesRemaining < k.diagsPerThread
  · rw [rotate_of_lt hu]
    rfl
  · rw [rotate_of_le (Nat.not_lt.mp hu)]

/-- A flush goes to the position of a slot. -/
theorem flushes_rotate {fast : Bool} {st : SCAMPShflState K} {f : ℤ × MpEntry K}
    (hf : f ∈ (rotate k a fast st).2) : ∃ i < k.diagsPerThread, f.1 = st.localCol i := by
  by_cases hu : st.updatesRemaining < k.diagsPerThread
  · rw [rotate_of_lt hu] at hf
    simp only [updateInfoShfl] at hf
    split at hf
    · rw [List.mem_singleton] at hf
      exact ⟨k.diagsPerThread - 1 - st.updatesRemaining, by omega, by rw [hf]⟩
    · cases hf
  · rw [rotate_of_le (Nat.not_lt.mp hu)] at hf
    cases hf

theorem inv_rotate [LinearOrder K] (h : Inv k a cov block s) (ht : t < k.blocksz) (hpc : (s.threads t).pc = .rowShuffled) :
    Inv k a cov block { s.setThread t { s.threads t with
        state := (rotate k a (fastPath k a (s.threads t)) (s.threads t).state).1
        pc := .rowDone } with
      colFlushes := s.colFlushes ++ (rotate k a (fastPath k a (s.threads t)) (s.threads t).state).2 } := by
  have hok := h.threads t ht
  obtain ⟨hrow, hbar, hpos⟩ := hok.of_pc hpc
  have hplaced : Placed k a block { s.threads t with
      state := (rotate k a (fastPath k a (s.threads t)) (s.threads t).state).1
      pc := .rowDone } := ⟨hok.startRow, hok.startCol, hbar, hrow⟩
  have hpositioned := positioned_rotate (fastPath k a (s.threads t)) ht hpos
  have hlocal := localCol_rotate (a := a) (fastPath k a (s.threads t))
    (hok.localCol (by rw [hpc]; rfl))
  refine h.setThread rfl rfl le_rfl (fun u hu => h.inStep t ht u hu) (by rw [hpc]; rfl) { hplaced with
      positioned := hpositioned
      localCol := fun _ => hlocal
      insideTile := fun i hi =>
        insideTile_of_localCol hplaced (r := 1) hrow (hpositioned.cols i hi) (hlocal i hi)
      slotCov := fun i hi => ?_
      rows := fun _ => hok.rows (by rw [hpc]; rfl)
      rowStats := fun hloaded => by cases hloaded }
    (fun _ _ _ hloaded => hloaded) (by rw [hpc]; rfl) rfl (fun f hf => ?_)
  · have hcov := hok.slotCov i hi
    unfold SlotCov at hcov
    rw [hpc] at hcov
    show ¬(t % 32 = 0 ∧ i = 0) → CovIs k a cov block _ _ ((rotate k a _ (s.threads t).state).1.cov i)
    rw [cov_rotate]
    exact hcov
  · obtain ⟨i, hi, hfi⟩ := flushes_rotate hf
    rw [hfi]
    exact hok.insideTile i hi

/-- `flush_all_cols_to_smem`. -/
theorem inv_flush (h : Inv k a cov block s) (ht : t < k.blocksz) (hpc : (s.threads t).pc = .flushing)
    (best : ℕ → MpEntry K) {flushes : List (ℤ × MpEntry K)}
    (hflushes : ∀ f ∈ flushes, ∃ i < k.diagsPerThread, f.1 = (s.threads t).state.localCol i) :
    Inv k a cov block { s.setThread t { s.threads t with
        state := { (s.threads t).state with best := best }
        bar := (s.threads t).bar.arrive
        pc := .flushed } with
      colFlushes := s.colFlushes ++ flushes } := by
  have hok := h.threads t ht
  obtain ⟨hrow, hbar, hpos⟩ := hok.of_pc hpc
  refine h.setThread rfl rfl (s.threads t).bar.arrivals_le_arrive (fun u hu => h.inStep t ht u hu)
    (by rw [hpc]; rfl) { hok with
      bar := ?_
      row := hrow
      positioned := ⟨hpos.cols, hpos.countdown, hpos.stats⟩
      localCol := fun _ => hok.localCol (by rw [hpc]; rfl)
      slotCov := fun i hi => (hok.slotCov i hi).keep (by rw [hpc]; rfl) rfl rfl rfl
      rows := fun _ => hok.rows (by rw [hpc]; rfl)
      rowStats := fun hloaded => by cases hloaded }
    (fun _ _ _ hloaded => hloaded) (by rw [hpc]; rfl) rfl (fun f hf => ?_)
  · show (s.threads t).bar.arrive = _
    rw [hbar]
    rfl
  · obtain ⟨i, hi, hfi⟩ := hflushes f hf
    rw [hfi]
    exact hok.insideTile i hi

/-- The next tile, or the end of the loop. -/
theorem inv_nextTile (h : Inv k a cov block s) (ht : t < k.blocksz) (hpc : (s.threads t).pc = .flushed)
    (hopen : Opens k.blocksz (fun u => (s.threads u).bar) t) {pc : Pc} (hnext : pc = .finished ∨ pc = .tileStart) :
    Inv k a cov block (s.setThread t { s.threads t with
      bar := (s.threads t).bar.pass
      tile := (s.threads t).tile + 1
      row := 0
      tileStartCol := (s.threads t).tileStartCol + k.tileHeight
      tileStartRow := (s.threads t).tileStartRow + k.tileHeight
      pc := pc }) := by
  have hok := h.threads t ht
  obtain ⟨hrow, hbar, hpos⟩ := hok.of_pc hpc
  have hrow : (s.threads t).row = k.tileHeight := hrow
  have hglobal : (s.threads t).tileStartRow + k.tileHeight + 0 = (s.threads t).globalRow := by
    rw [Thread.globalRow, hrow, Nat.add_zero]
  -- both states are between two rows, with nothing under way
  obtain ⟨hpassed, harrived, hrowOk, hrotated, hpublished, hshuffled, hbetween, hin⟩ :
      pc.passed k.tileHeight 0 = 0 ∧ pc.arrived = false ∧ pc.RowOk k.tileHeight 0 ∧ pc.rotated = 0 ∧
        pc.published = 0 ∧ pc.shuffled = 0 ∧ pc.between = true ∧ pc.inTile = false := by
    rcases hnext with rfl | rfl <;> exact ⟨rfl, rfl, rfl, rfl, rfl, rfl, rfl, rfl⟩
  refine h.setThread rfl (List.append_nil _).symm (s.threads t).bar.arrivals_le_succ
    (fun u hu => hopen.2 u hu) ?_ { hok with
      startRow := ?_
      startCol := ?_
      bar := ?_
      row := hrowOk
      positioned := ?_
      localCol := fun hin' => by rw [hin] at hin'; cases hin'
      slotCov := fun i hi => (hok.slotCov i hi).keep (by rw [hpc]; rfl) hbetween hglobal rfl
      rows := fun hin' => by rw [hin] at hin'; cases hin'
      rowStats := fun hloaded => by rcases hnext with rfl | rfl <;> cases hloaded }
    (fun _ _ _ hloaded => hloaded) ?_ rfl (by simp)
  · show _ + pc.shuffled = _
    rw [hshuffled, hpc]
    exact hglobal
  · show (s.threads t).tileStartRow + k.tileHeight = ((s.threads t).tile + 1) * k.tileHeight
    rw [hok.startRow, Nat.succ_mul]
  · show (s.threads t).tileStartCol + k.tileHeight = _ + ((s.threads t).tile + 1) * k.tileHeight
    rw [hok.startCol, Nat.succ_mul, Nat.add_assoc]
  · show (s.threads t).bar.pass = ⟨((s.threads t).tile + 1) * _ + pc.passed _ 0, pc.arrived⟩
    rw [hpassed, harrived, hbar, Nat.succ_mul]
    rfl
  · show Positioned k a block t ((s.threads t).tileStartRow + k.tileHeight + 0 + pc.rotated) _
    rw [hrotated, hglobal]
    exact hpos
  · show _ + pc.published = _
    rw [hpublished, hpc]
    exact hglobal

/-! ## The shuffle of a warp -/

section
variable {w : ℕ} (hpc : ∀ lane : ℕ, lane < 32 → (s.threads (32 * w + lane)).pc = Pc.rowPublished)
include hpc

omit [Field K] in
theorem pc_of_warp (htw : t / 32 = w) : (s.threads t).pc = .rowPublished := by
  have hthis := hpc (t % 32) (Nat.mod_lt t (by norm_num))
  rwa [show 32 * w + t % 32 = t by omega] at hthis

/-- **A shuffle** takes each covariance to the slot that has its diagonal in the next row. -/
theorem slotCov_shiftCov (h : Inv k a cov block s) (ht : t < k.blocksz) (htw : t / 32 = w) {i : ℕ}
    (hi : i < k.diagsPerThread) (hfirst : ¬(t % 32 = 0 ∧ i = 0)) :
    CovIs k a cov block ((s.threads t).globalRow + 1) (ringCol k t ((s.threads t).globalRow + 1) i)
      (shiftCov k s.threads t i) := by
  have hcov : ∀ u < k.blocksz, u / 32 = w → ∀ j < k.diagsPerThread,
      CovIs k a cov block ((s.threads u).globalRow + 1) (ringCol k u (s.threads u).globalRow j + 1)
        ((s.threads u).state.cov j) := by
    intro u hu huw j hj
    have hcov := (h.threads u hu).slotCov j hj
    unfold SlotCov at hcov
    rwa [pc_of_warp hpc huw] at hcov
  by_cases hi0 : i = 0
  · -- from the lane before
    obtain ⟨u, rfl⟩ : ∃ u, t = u + 1 := ⟨t - 1, by omega⟩
    have hsrc : 32 * ((u + 1) / 32) + ((u + 1) % 32 + 31) % 32 = u := by omega
    have hrows := h.together u (by omega) (u + 1) ht (by omega)
    rw [pc_of_warp hpc (by omega), pc_of_warp hpc htw] at hrows
    replace hrows : (s.threads u).globalRow = (s.threads (u + 1)).globalRow := hrows
    have hprev := hcov u (by omega) (by omega) (k.diagsPerThread - 1) (Nat.sub_lt k.diags_pos Nat.one_pos)
    rw [ringCol_lane ht, hrows] at hprev
    unfold shiftCov
    rw [if_pos hi0, hsrc, hi0]
    exact hprev
  · have hprev := hcov t ht htw (i - 1) (by omega)
    rw [ringCol_next ht (by omega), Nat.sub_add_cancel (Nat.one_le_iff_ne_zero.mpr hi0)] at hprev
    unfold shiftCov
    rw [if_neg hi0]
    exact hprev

theorem inv_shuffle (h : Inv k a cov block s) (rowFlushes : List (ℕ × MpEntry K)) :
    Inv k a cov block { s with
      threads := fun t =>
        if t / 32 = w then
          { s.threads t with
            state := { (s.threads t).state with cov := shiftCov k s.threads t }
            pc := .rowShuffled }
        else s.threads t
      rowFlushes := rowFlushes } where
  inStep := by
    -- a shuffle is no barrier of the block
    have hbars : (fun t => (if t / 32 = w then
          { s.threads t with
            state := { (s.threads t).state with cov := shiftCov k s.threads t }
            pc := .rowShuffled }
        else s.threads t).bar) = fun t => (s.threads t).bar := by
      funext t
      split <;> rfl
    show InStep k.blocksz (fun t => (if t / 32 = w then _ else s.threads t).bar)
    rw [hbars]
    exact h.inStep
  together := by
    intro t ht u hu htu
    -- the threads of a warp go on together
    have hold := h.together t ht u hu htu
    dsimp only
    by_cases htw : t / 32 = w
    · rw [if_pos htw, if_pos (htu ▸ htw)]
      rw [pc_of_warp hpc htw, pc_of_warp hpc (htu ▸ htw)] at hold
      exact congrArg (· + 1) hold
    · rw [if_neg htw, if_neg fun huw => htw (htu.trans huw)]
      exact hold
  threads := by
    intro t ht
    have hok := h.threads t ht
    dsimp only
    by_cases htw : t / 32 = w
    · have hpct := pc_of_warp hpc htw
      have hrow := hok.row
      have hpos := hok.positioned
      have hbar := hok.bar
      rw [hpct] at hrow hpos hbar
      rw [if_pos htw]
      exact { hok with
        bar := hbar
        row := hrow
        positioned := ⟨hpos.cols, hpos.countdown, hpos.stats⟩
        localCol := fun _ => hok.localCol (by rw [hpct]; rfl)
        -- each covariance moves on to the slot of its diagonal; the first slot of the first lane is left to fill
        slotCov := fun i hi hfirst => slotCov_shiftCov hpc h ht htw hi hfirst
        rows := fun _ => hok.rows (by rw [hpct]; rfl)
        rowStats := fun hloaded => by cases hloaded }
    · rw [if_neg htw]
      exact hok
  handoff := by
    intro p hp hlane
    have hold := h.handoff p hp hlane
    dsimp only
    by_cases hpw : p / 32 = w
    · rw [if_pos hpw]
      rw [pc_of_warp hpc hpw] at hold
      exact hold
    · rw [if_neg hpw]
      exact hold
  flushes := h.flushes

end

/-! ## Runs -/

/-- The flush at the end of a tile goes to the positions of the slots. -/
theorem flushAll_spec (st : SCAMPShflState K) :
    (∃ best, (if k.computeCols then flushAllColsToSmem k st else (st, [])).1 = { st with best := best }) ∧
      ∀ f ∈ (if k.computeCols then flushAllColsToSmem k st else (st, [])).2,
        ∃ i < k.diagsPerThread, f.1 = st.localCol i := by
  split
  · refine ⟨?_, fun f hf => ?_⟩
    · unfold flushAllColsToSmem
      cases k.type <;> exact ⟨_, rfl⟩
    · obtain ⟨i, hi, rfl⟩ := List.mem_map.mp hf
      exact ⟨i, List.mem_range.mp hi, rfl⟩
  · exact ⟨⟨st.best, rfl⟩, fun f hf => by cases hf⟩

/-- **A turn of a thread.** -/
theorem inv_stepThread [LinearOrder K] {stop : ℕ → Bool} (h : Inv k a cov block s) (ht : t < k.blocksz) {s' : Block K}
    (hstep : stepThread k a stop s t = some s') : Inv k a cov block s' := by
  unfold stepThread at hstep
  cases hpc : (s.threads t).pc with
  | tileStart =>
      simp only [hpc] at hstep
      split at hstep
      · cases hstep
        exact inv_tileStart h ht hpc
      · cases hstep
        exact inv_finish h ht hpc
  | tileLoaded =>
      simp only [hpc, decide_eq_true_eq] at hstep
      split at hstep
      · next hopen =>
          cases hstep
          -- past the barrier, the first row of the tile begins
          have hrow : (s.threads t).row + (s.threads t).pc.rotated = 0 := by
            have hrow := (h.threads t ht).row
            rw [hpc] at hrow ⊢
            exact hrow
          have hnext := inv_toRow h ht (Or.inl hpc) hopen fun _ => initEntry k
          rw [hrow] at hnext
          exact hnext
      · cases hstep
  | rowStart =>
      simp only [hpc] at hstep
      cases hstep
      exact inv_loadRow h ht hpc
  | rowLoaded =>
      simp only [hpc] at hstep
      cases hstep
      exact inv_computeRow h ht hpc
  | rowPublished =>
      simp only [hpc] at hstep
      cases hstep
  | rowShuffled =>
      simp only [hpc] at hstep
      cases hstep
      exact inv_rotate h ht hpc
  | rowDone =>
      simp only [hpc, decide_eq_true_eq] at hstep
      split at hstep
      · next hopen =>
          cases hstep
          have hnext := inv_toRow h ht (Or.inr hpc) hopen (s.threads t).state.best
          rw [hpc] at hnext
          exact hnext
      · cases hstep
  | flushing =>
      simp only [hpc] at hstep
      cases hstep
      -- a flush changes nothing of the thread but its best entries
      obtain ⟨⟨best, hbest⟩, hflushes⟩ := flushAll_spec (k := k) (s.threads t).state
      have hnext := inv_flush h ht hpc best hflushes
      rw [← hbest] at hnext
      exact hnext
  | flushed =>
      simp only [hpc, decide_eq_true_eq] at hstep
      split at hstep
      · next hopen =>
          cases hstep
          refine inv_nextTile h ht hpc hopen ?_
          split
          · exact Or.inl rfl
          · exact Or.inr rfl
      · cases hstep
  | finished =>
      simp only [hpc] at hstep
      cases hstep

/-- **A turn.** -/
theorem inv_step [LinearOrder K] {stop : ℕ → Bool} (h : Inv k a cov block s) {m : Move} {s' : Block K}
    (hstep : step k a stop s m = some s') : Inv k a cov block s' := by
  cases m with
  | thread t =>
      obtain ⟨ht, hstep⟩ := Option.ite_none_right_eq_some.mp hstep
      exact inv_stepThread h ht hstep
  | warp w =>
      obtain ⟨-, hstep⟩ := Option.ite_none_right_eq_some.mp hstep
      obtain ⟨hpc, hstep⟩ := Option.ite_none_right_eq_some.mp hstep
      rw [Option.some.injEq] at hstep
      subst hstep
      exact inv_shuffle hpc h _

/-- **A schedule.** -/
theorem inv_run [LinearOrder K] {stop : ℕ → Bool} (moves : List Move) (h : Inv k a cov block s) :
    Inv k a cov block (run k a stop moves s) := by
  induction moves generalizing s with
  | nil => exact h
  | cons m moves ih =>
      refine ih ?_
      show Inv k a cov block ((step k a stop s m).getD s)
      cases hstep : step k a stop s m with
      | none => exact h
      | some s' => exact inv_step h hstep

/-- The start of a block. -/
theorem inv_start (raw : ℕ → Thread K) (smem : SCAMPShflSmem K) :
    Inv k a cov block (start k a cov block raw smem) := by
  have hn := k.blockDiags_pos
  have hring : ∀ t < k.blocksz, ∀ i < k.diagsPerThread, t * k.diagsPerThread + i = ringCol k t 0 i := by
    intro t ht i hi
    have hslots := slots_le ht
    exact eq_slotCol hn 0 (Nat.zero_le _) (by omega) (Nat.mod_eq_of_lt (by omega))
  refine ⟨inStep_start fun t _ => rfl, fun t _ u _ _ => rfl, fun t ht => ?_, fun p _ _ row hrow hlast => ?_,
    fun f hf => by cases hf⟩
  · have hslots := slots_le ht
    have hD := k.diags_pos
    refine ⟨⟨(Nat.zero_mul _).symm, ?_, ?_, rfl⟩, ⟨fun i hi => ?_, ?_, fun i hi hx => ?_⟩, nofun,
      fun i hi => ?_, fun i hi _ => ?_, nofun, nofun⟩
    · show firstCol k a block = firstCol k a block + 0 * k.tileHeight
      rw [Nat.zero_mul, Nat.add_zero]
    · show (⟨0, false⟩ : BarrierPos) = ⟨0 * _ + 0, false⟩
      rw [Nat.zero_mul]
    · show firstCol k a block + t * k.diagsPerThread + i = _ + ringCol k t 0 i
      rw [← hring t ht i hi, Nat.add_assoc]
    · show 0 + (t * k.diagsPerThread + (k.diagsPerThread - 1)) = ringCol k t 0 _
      rw [Nat.zero_add, hring t ht _ (by omega)]
    · exact ⟨if_pos hx, if_pos hx, if_pos hx⟩
    · have hwidth : k.tileWidth = k.blockDiags + k.tileHeight := rfl
      show (0 : ℤ) ≤ (t * k.diagsPerThread + i : ℕ) ∧ ((t * k.diagsPerThread + i : ℕ) : ℤ) < k.tileWidth
      omega
    · intro hx _
      show (if firstCol k a block + t * k.diagsPerThread + i < a.nX then _ else 0) = cov (_ + ringCol k t 0 i - 0)
      rw [← hring t ht i hi, ← Nat.add_assoc, Nat.sub_zero]
      exact if_pos (by
        replace hx : firstCol k a block + ringCol k t 0 i < a.nX := hx
        rw [← hring t ht i hi] at hx
        omega)
  · have hpublished : row = 0 ∨ row + 1 = 0 := hlast
    omega

/-! ## What a slot holds -/

/-- Column `c`, from the first column of the block on, is the one of slot `i` of thread `t` in a row. -/
def Owns (k : Instance) (t i row c : ℕ) : Prop :=
  c % k.blockDiags = t * k.diagsPerThread + i ∧ row ≤ c ∧ c < row + k.blockDiags

/-- What slot `i` of thread `t` holds at the start of a row, and once the hand-off buffer is read. -/
structure SlotTracks (k : Instance) (a : KernelArgs K) (cov : Buffer K) (block t i : ℕ) (th : Thread K) :
    Prop where
  column : th.pc = .rowStart ∨ th.pc = .rowLoaded → ∃ c, Owns k t i th.globalRow c ∧
    (∀ c', Owns k t i th.globalRow c' → c' = c) ∧ th.state.globalCol i = firstCol k a block + c
  stats : th.pc = .rowStart ∨ th.pc = .rowLoaded → th.state.globalCol i < a.nX →
    th.state.dfc i = a.dfa (th.state.globalCol i) ∧ th.state.dgc i = a.dga (th.state.globalCol i) ∧
      th.state.inormc i = a.normsa (th.state.globalCol i)
  covariance : th.pc = .rowLoaded → th.globalRow < a.nY → th.state.globalCol i < a.nX →
    th.state.cov i = covAt a cov th.globalRow (th.state.globalCol i - th.globalRow)
  inBlock : th.pc = .rowLoaded → inBlock k th.row (th.state.localCol i) = true
  inTile : 0 ≤ th.state.localCol i ∧ th.state.localCol i < k.tileWidth

theorem ThreadOk.slotTracks {th : Thread K} {smem : SCAMPShflSmem K} (hok : ThreadOk k a cov block t th smem)
    (ht : t < k.blocksz) {i : ℕ} (hi : i < k.diagsPerThread) : SlotTracks k a cov block t i th := by
  have hslots := slots_le ht
  have hn := k.blockDiags_pos
  have hrow : th.pc = .rowStart ∨ th.pc = .rowLoaded → th.pc.rotated = 0 := by
    rintro (hpc | hpc) <;> rw [hpc] <;> rfl
  have hpos : th.pc = .rowStart ∨ th.pc = .rowLoaded → Positioned k a block t th.globalRow th.state := by
    intro hpc
    have hpos := hok.positioned
    rwa [hrow hpc] at hpos
  refine ⟨fun hpc => ?_, fun hpc hx => (hpos hpc).stats i hi hx, fun hpc hy hx => ?_, fun hpc => ?_,
    hok.insideTile i hi⟩
  · obtain ⟨hle, hlt⟩ := ringCol_bounds (k := k) t th.globalRow i
    refine ⟨ringCol k t th.globalRow i, ⟨slotCol_mod hn _ (by omega), hle, hlt⟩, fun c hc => ?_,
      (hpos hpc).cols i hi⟩
    exact eq_slotCol hn _ hc.2.1 hc.2.2 hc.1
  · have hcov := hok.slotCov i hi
    have hcol := (hpos (Or.inr hpc)).cols i hi
    unfold SlotCov at hcov
    rw [hpc] at hcov
    rw [hcol] at hx ⊢
    exact hcov hx hy.le
  · have hbounds := localCol_bounds (r := 0) hok.toPlaced ((hpos (Or.inr hpc)).cols i hi)
      (hok.localCol (by rw [hpc]; rfl) i hi)
    refine decide_eq_true ?_
    constructor <;> omega

end

end Shuffle

end Scamp
