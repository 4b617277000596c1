import Scamp.Gpu.Correctness.Shuffle
import Scamp.Lib.Run
import Mathlib.Algebra.Order.BigOperators.Group.Finset

/-!
# `Gpu.Correctness.ShuffleRows` — the rows that the covariance-shuffling kernel executes

What `Gpu.Correctness.Shuffle` says of a row says nothing of a thread that never gets there. Here is what a
turn does to the place of a thread (`Goes`), and from it that every thread comes to each point of each row of
the tiles that the loop comes to (`counted_run`), and that a block is never stuck: as long as a thread has not
ended some turn can be taken (`exists_turn`), and each turn leaves less to do (`Goes.left_lt`).
`shuffle_tracks` puts this together with what the slots hold.
-/

namespace Scamp

open Lib

namespace Shuffle

/-! ## Places -/

/-- The points of a row, in the order a thread comes to them; `0` outside a row. -/
def Pc.stage : Pc → ℕ
  | rowStart => 1
  | rowLoaded => 2
  | rowPublished => 3
  | rowShuffled => 4
  | rowDone => 5
  | _ => 0

/-- Where a thread is: its tile, its row there, and its place in the kernel. -/
structure Place where
  tile : ℕ
  row : ℕ
  pc : Pc

def Thread.place {K : Type} (th : Thread K) : Place := ⟨th.tile, th.row, th.pc⟩

section
variable {K : Type} (k : Instance) (a : KernelArgs K) (block : ℕ) (stop : ℕ → Bool)

/-- The condition of the loop over the tiles, before a tile. -/
def InMatrix (tile : ℕ) : Prop := firstCol k a block + tile * k.tileHeight < a.nX ∧ tile * k.tileHeight < a.nY

instance (tile : ℕ) : Decidable (InMatrix k a block tile) := inferInstanceAs (Decidable (_ ∧ _))

/-- The loop comes to a tile. -/
def ComesTo (tile : ℕ) : Prop :=
  InMatrix k a block tile ∧ ∀ j < tile, InMatrix k a block j ∧ stop j = false

/-- **What a turn does to the place of a thread.** -/
inductive Goes : Place → Place → Prop
  | enter {tile row} : InMatrix k a block tile → Goes ⟨tile, row, .tileStart⟩ ⟨tile, row, .tileLoaded⟩
  | leave {tile row} : ¬InMatrix k a block tile → Goes ⟨tile, row, .tileStart⟩ ⟨tile, row, .finished⟩
  | begin {tile row} : Goes ⟨tile, row, .tileLoaded⟩ ⟨tile, 0, Pc.toRow k.tileHeight 0⟩
  | load {tile row} : Goes ⟨tile, row, .rowStart⟩ ⟨tile, row, .rowLoaded⟩
  | publish {tile row} : Goes ⟨tile, row, .rowLoaded⟩ ⟨tile, row, .rowPublished⟩
  | shuffle {tile row} : Goes ⟨tile, row, .rowPublished⟩ ⟨tile, row, .rowShuffled⟩
  | rotate {tile row} : Goes ⟨tile, row, .rowShuffled⟩ ⟨tile, row, .rowDone⟩
  | next {tile row} : Goes ⟨tile, row, .rowDone⟩ ⟨tile, row + 1, Pc.toRow k.tileHeight (row + 1)⟩
  | flush {tile row} : Goes ⟨tile, row, .flushing⟩ ⟨tile, row, .flushed⟩
  | again {tile row} : stop tile = false → Goes ⟨tile, row, .flushed⟩ ⟨tile + 1, 0, .tileStart⟩
  | stops {tile row} : stop tile = true → Goes ⟨tile, row, .flushed⟩ ⟨tile + 1, 0, .finished⟩

/-- What the loop says of the tile of a thread. -/
def CameTo (p : Place) : Prop :=
  match p.pc with
  | .tileStart => ∀ j < p.tile, InMatrix k a block j ∧ stop j = false
  | .finished => ¬ComesTo k a block stop p.tile
  | _ => ComesTo k a block stop p.tile

variable {k a block stop} {p p' : Place}

theorem CameTo.of_pc {th : Thread K} (h : CameTo k a block stop th.place) {pc : Pc} (hpc : th.pc = pc) :
    CameTo k a block stop ⟨th.tile, th.row, pc⟩ := hpc ▸ h

/-- The rows begin, or the flush. -/
theorem cameTo_toRow {tile row row' : ℕ} (h : ComesTo k a block stop tile) :
    CameTo k a block stop ⟨tile, row', Pc.toRow k.tileHeight row⟩ := by
  rcases Pc.toRow_cases k.tileHeight row with ⟨-, hpc⟩ | ⟨-, hpc⟩ <;> rw [hpc] <;> exact h

theorem Goes.cameTo (h : Goes k a block stop p p') (hcame : CameTo k a block stop p) : CameTo k a block stop p' := by
  cases h with
  | enter hin => exact ⟨hin, hcame⟩
  | leave hout => exact fun hcomes => hout hcomes.1
  | begin => exact cameTo_toRow hcame
  | next => exact cameTo_toRow hcame
  | @again tile row hstop =>
      intro j hj
      rcases Nat.lt_succ_iff_lt_or_eq.mp hj with hlt | rfl
      · exact hcame.2 j hlt
      · exact ⟨hcame.1, hstop⟩
  | @stops tile row hstop =>
      intro hcomes
      have hgoes := (hcomes.2 tile (Nat.lt_succ_self tile)).2
      rw [hstop] at hgoes
      cases hgoes
  | load | publish | shuffle | rotate | flush => exact hcame

/-! ## The rows a thread has come to -/

variable (k) in
/-- The number of rows in which a thread has come to the point `stage`. -/
def counted (stage : ℕ) (p : Place) : ℕ := p.tile * k.tileHeight + p.row + if stage ≤ p.pc.stage then 1 else 0

theorem counted_cases (stage : ℕ) (p : Place) :
    stage ≤ p.pc.stage ∧ counted k stage p = p.tile * k.tileHeight + p.row + 1 ∨
      p.pc.stage < stage ∧ counted k stage p = p.tile * k.tileHeight + p.row := by
  unfold counted
  rcases Nat.lt_or_ge p.pc.stage stage with hlt | hle
  · rw [if_neg (Nat.not_le_of_lt hlt)]
    exact Or.inr ⟨hlt, rfl⟩
  · rw [if_pos hle]
    exact Or.inl ⟨hle, rfl⟩

/-- A turn brings a thread to one point at most, in the next row of those. -/
theorem Goes.counted (h : Goes k a block stop p p') (hrow : p.pc.RowOk k.tileHeight p.row) {stage : ℕ}
    (hstage : 0 < stage) (hstage' : stage ≤ 5) : counted k stage p' = counted k stage p ∨
      counted k stage p' = counted k stage p + 1 ∧ p'.pc.stage = stage ∧
        p'.tile * k.tileHeight + p'.row = counted k stage p := by
  have hbefore := counted_cases (k := k) stage p
  have hafter := counted_cases (k := k) stage p'
  cases h with
  | @begin tile row =>
      have hzero : row = 0 := hrow
      rcases Pc.toRow_cases k.tileHeight 0 with ⟨-, hpc⟩ | ⟨-, hpc⟩ <;>
        (simp only [hpc, Pc.stage] at hbefore hafter ⊢; omega)
  | @next tile row =>
      rcases Pc.toRow_cases k.tileHeight (row + 1) with ⟨-, hpc⟩ | ⟨-, hpc⟩ <;>
        (simp only [hpc, Pc.stage] at hbefore hafter ⊢; omega)
  | @again tile row | @stops tile row =>
      -- the rows of the tile are counted with those of the tiles before the next one
      have hlast : row = k.tileHeight := hrow
      simp only [Pc.stage, Nat.succ_mul] at hbefore hafter ⊢
      omega
  | _ =>
      simp only [Pc.stage] at hbefore hafter ⊢
      omega

/-! ## What is left to do -/

variable (k a) in
/-- What a thread has left to do. -/
def Place.left (p : Place) : ℕ :=
  match p.pc with
  | .tileStart => (a.nY - p.tile) * (5 * k.tileHeight + 4) + (5 * k.tileHeight + 4)
  | .tileLoaded => (a.nY - p.tile) * (5 * k.tileHeight + 4) + (5 * k.tileHeight + 3)
  | .rowStart => (a.nY - p.tile) * (5 * k.tileHeight + 4) + (5 * (k.tileHeight - p.row) + 2)
  | .rowLoaded => (a.nY - p.tile) * (5 * k.tileHeight + 4) + (5 * (k.tileHeight - p.row) + 1)
  | .rowPublished => (a.nY - p.tile) * (5 * k.tileHeight + 4) + 5 * (k.tileHeight - p.row)
  | .rowShuffled => (a.nY - p.tile) * (5 * k.tileHeight + 4) + (5 * (k.tileHeight - p.row) - 1)
  | .rowDone => (a.nY - p.tile) * (5 * k.tileHeight + 4) + (5 * (k.tileHeight - p.row) - 2)
  | .flushing => (a.nY - p.tile) * (5 * k.tileHeight + 4) + 2
  | .flushed => (a.nY - p.tile) * (5 * k.tileHeight + 4) + 1
  | .finished => 0

/-- **Every turn of a thread leaves it less to do.** -/
theorem Goes.left_lt (h : Goes k a block stop p p') (hH : 0 < k.tileHeight) (hrow : p.pc.RowOk k.tileHeight p.row)
    (hcame : CameTo k a block stop p) : p'.left k a < p.left k a := by
  cases h with
  | begin =>
      rcases Pc.toRow_cases k.tileHeight 0 with ⟨-, hpc⟩ | ⟨-, hpc⟩ <;> simp only [Place.left, hpc] <;> omega
  | @next tile row =>
      have hlt : row < k.tileHeight := hrow
      rcases Pc.toRow_cases k.tileHeight (row + 1) with ⟨-, hpc⟩ | ⟨-, hpc⟩ <;> simp only [Place.left, hpc] <;> omega
  | @again tile row =>
      -- the next tile is still above the last row
      obtain ⟨⟨-, hlt⟩, -⟩ : ComesTo k a block stop tile := hcame
      have hle := Nat.le_mul_of_pos_right tile hH
      have hsucc : a.nY - tile = (a.nY - (tile + 1)) + 1 := by omega
      simp only [Place.left, hsucc, Nat.succ_mul]
      omega
  | @rotate tile row | @shuffle tile row =>
      have hlt : row < k.tileHeight := hrow
      simp only [Place.left]
      omega
  | _ =>
      simp only [Place.left]
      omega

/-! ## Turns -/

variable [Field K] [LinearOrder K] {cov : Buffer K} {s s' : Block K} {t : ℕ}

omit [Field K] [LinearOrder K] in
theorem setThread_goes {b : Block K} {th : Thread K} {pc : Pc} (hpc : (s.threads t).pc = pc)
    (hb : b.threads = Function.update s.threads t th)
    (hgoes : Goes k a block stop ⟨(s.threads t).tile, (s.threads t).row, pc⟩ th.place) :
    (∀ u ≠ t, b.threads u = s.threads u) ∧ Goes k a block stop (s.threads t).place (b.threads t).place := by
  rw [hb]
  refine ⟨fun u hu => Function.update_of_ne hu _ _, ?_⟩
  rw [Function.update_self]
  unfold Thread.place at hgoes ⊢
  rwa [hpc]

/-- A turn of a thread takes it on. -/
theorem stepThread_goes (hplaced : Placed k a block (s.threads t)) (hstep : stepThread k a stop s t = some s') :
    (∀ u ≠ t, s'.threads u = s.threads u) ∧ Goes k a block stop (s.threads t).place (s'.threads t).place := by
  have hin : (s.threads t).tileStartCol < a.nX ∧ (s.threads t).tileStartRow < a.nY ↔
      InMatrix k a block (s.threads t).tile := by
    rw [hplaced.startCol, hplaced.startRow]
    exact Iff.rfl
  unfold stepThread at hstep
  cases hpc : (s.threads t).pc with
  | tileStart =>
      simp only [hpc] at hstep
      split at hstep
      · next hgo =>
          cases hstep
          exact setThread_goes hpc rfl (.enter (hin.mp hgo))
      · next hgo =>
          cases hstep
          exact setThread_goes hpc rfl (.leave fun h => hgo (hin.mpr h))
  | tileLoaded =>
      simp only [hpc] at hstep
      split at hstep
      · cases hstep
        exact setThread_goes hpc rfl .begin
      · cases hstep
  | rowStart =>
      simp only [hpc] at hstep
      cases hstep
      exact setThread_goes hpc rfl .load
  | rowLoaded =>
      simp only [hpc] at hstep
      cases hstep
      exact setThread_goes hpc rfl .publish
  | rowPublished =>
      simp only [hpc] at hstep
      cases hstep
  | rowShuffled =>
      simp only [hpc] at hstep
      cases hstep
      exact setThread_goes hpc rfl .rotate
  | rowDone =>
      simp only [hpc] at hstep
      split at hstep
      · cases hstep
        exact setThread_goes hpc rfl .next
      · cases hstep
  | flushing =>
      simp only [hpc] at hstep
      cases hstep
      exact setThread_goes hpc rfl .flush
  | flushed =>
      simp only [hpc] at hstep
      split at hstep
      · cases hstep
        refine setThread_goes hpc rfl ?_
        cases hstop : stop (s.threads t).tile with
        | false => exact .again hstop
        | true => exact .stops hstop
      · cases hstep
  | finished =>
      simp only [hpc] at hstep
      cases hstep

/-- **A turn** takes some threads on and leaves the others where they are. -/
theorem step_goes (h : Inv k a cov block s) {m : Move} (hstep : step k a stop s m = some s') :
    (∀ t < k.blocksz, s'.threads t = s.threads t ∨ Goes k a block stop (s.threads t).place (s'.threads t).place) ∧
      ∃ t < k.blocksz, Goes k a block stop (s.threads t).place (s'.threads t).place := by
  cases m with
  | thread t =>
      obtain ⟨ht, hstep⟩ := Option.ite_none_right_eq_some.mp hstep
      obtain ⟨hother, hgoes⟩ := stepThread_goes (h.threads t ht).toPlaced hstep
      refine ⟨fun u hu => ?_, t, ht, hgoes⟩
      by_cases hut : u = t
      · exact Or.inr (hut ▸ hgoes)
      · exact Or.inl (hother u hut)
  | warp w =>
      obtain ⟨hw, hstep⟩ := Option.ite_none_right_eq_some.mp hstep
      obtain ⟨hpc, hstep⟩ := Option.ite_none_right_eq_some.mp hstep
      obtain rfl := Option.some.inj hstep
      have hgoes : ∀ t, t / 32 = w → Goes k a block stop (s.threads t).place
          { (s.threads t).place with pc := .rowShuffled } := by
        intro t htw
        have hpct := pc_of_warp hpc htw
        unfold Thread.place
        rw [hpct]
        exact .shuffle
      have hwarps := warps_eq (k := k)
      refine ⟨fun t _ => ?_, 32 * w, by omega, ?_⟩
      · dsimp only
        by_cases htw : t / 32 = w
        · rw [if_pos htw]
          exact Or.inr (hgoes t htw)
        · rw [if_neg htw]
          exact Or.inl rfl
      · dsimp only
        rw [if_pos (by omega)]
        exact hgoes _ (by omega)

/-! ## A block is not stuck -/

/-- A barrier belongs to one tile, and is one of its barriers. -/
theorem tile_eq {n tile tile' o o' : ℕ} (h : tile * n + o = tile' * n + o') (ho : o < n) (ho' : o' < n) :
    tile = tile' ∧ o = o' := by
  have htile := congrArg (· / n) h
  have hplace := congrArg (· % n) h
  simp only [Nat.mul_comm _ n, Nat.mul_add_div (Nat.zero_lt_of_lt ho), Nat.mul_add_mod, Nat.div_eq_of_lt ho,
    Nat.div_eq_of_lt ho', Nat.mod_eq_of_lt ho, Nat.mod_eq_of_lt ho', Nat.add_zero] at htile hplace
  exact ⟨htile, hplace⟩

/-- Whether a thread waits for others: at a barrier, or for its warp. -/
def Pc.waits : Pc → Bool
  | tileLoaded | rowPublished | rowDone | flushed => true
  | _ => false

theorem Pc.eq_tileLoaded {H row : ℕ} {pc : Pc} (hwaits : pc.waits = true) (hpassed : pc.passed H row = 0) :
    pc = .tileLoaded := by
  cases pc <;> simp [waits, passed] at hwaits hpassed ⊢

/-- A thread that has not ended and does not wait has a turn to take. -/
theorem stepThread_free (hpc : (s.threads t).pc.waits = false) (hgo : (s.threads t).pc ≠ .finished) :
    ∃ s', stepThread k a stop s t = some s' := by
  unfold stepThread
  cases h : (s.threads t).pc with
  | tileStart =>
      simp only [h]
      by_cases hin : (s.threads t).tileStartCol < a.nX ∧ (s.threads t).tileStartRow < a.nY
      · rw [if_pos hin]
        exact ⟨_, rfl⟩
      · rw [if_neg hin]
        exact ⟨_, rfl⟩
  | finished => exact absurd h hgo
  | tileLoaded | rowPublished | rowDone | flushed =>
      rw [h] at hpc
      cases hpc
  | rowStart | rowLoaded | rowShuffled | flushing =>
      simp only [h]
      exact ⟨_, rfl⟩

/-- A thread at an open barrier passes it. -/
theorem stepThread_opens (hpc : (s.threads t).pc = .tileLoaded ∨ (s.threads t).pc = .rowDone ∨ (s.threads t).pc = .flushed)
    (hopen : Opens k.blocksz (fun u => (s.threads u).bar) t) : ∃ s', stepThread k a stop s t = some s' := by
  unfold stepThread
  rcases hpc with hpc | hpc | hpc <;> simp only [hpc, decide_eq_true hopen, if_true] <;> exact ⟨_, rfl⟩

section
variable (h : Inv k a cov block s) (hcame : ∀ t < k.blocksz, CameTo k a block stop (s.threads t).place)
  (hwaits : ∀ t < k.blocksz, (s.threads t).pc ≠ .finished → (s.threads t).pc.waits = true)
  (ht : t < k.blocksz) (hgo : (s.threads t).pc ≠ .finished)
  (hmin : ∀ u < k.blocksz, (s.threads u).pc ≠ .finished → (s.threads t).bar.passed ≤ (s.threads u).bar.passed)
include h hcame hwaits ht hgo hmin

omit [LinearOrder K] in
/-- When all threads wait or have ended, the barrier of the one furthest behind is open. -/
theorem opens_of_behind : Opens k.blocksz (fun u => (s.threads u).bar) t := by
  have harrived : ∀ u < k.blocksz, (s.threads u).pc ≠ .finished → (s.threads u).bar.arrived = true := by
    intro u hu hugo
    have hwait := hwaits u hu hugo
    rw [(h.threads u hu).bar]
    show (s.threads u).pc.arrived = true
    cases hpc : (s.threads u).pc <;> rw [hpc] at hwait <;> first | rfl | cases hwait
  refine ⟨harrived t ht hgo, fun u hu => ?_⟩
  show (s.threads t).bar.passed < (s.threads u).bar.passed + (s.threads u).bar.arrived.toNat
  by_cases hugo : (s.threads u).pc = .finished
  · -- a thread that has ended has passed the barrier: otherwise the other would be before a tile that is none
    have hle : (s.threads t).bar.passed ≤ (s.threads u).bar.passed + (s.threads u).bar.arrived.toNat := h.inStep t ht u hu
    refine lt_of_le_of_ne hle fun heq => ?_
    have hbound := Pc.rows_passed (h.threads t ht).row
    rw [(h.threads u hu).bar, (h.threads t ht).bar, hugo] at heq
    replace heq : (s.threads t).tile * (k.tileHeight + 2) + (s.threads t).pc.passed k.tileHeight (s.threads t).row =
      (s.threads u).tile * (k.tileHeight + 2) + 0 := heq
    obtain ⟨htile, hpassed⟩ := tile_eq heq hbound.1 (Nat.succ_pos _)
    have hended : ¬ComesTo k a block stop (s.threads u).tile := (hcame u hu).of_pc hugo
    have hgoes : ComesTo k a block stop (s.threads t).tile :=
      (hcame t ht).of_pc (Pc.eq_tileLoaded (hwaits t ht hgo) hpassed)
    exact hended (htile ▸ hgoes)
  · rw [harrived u hu hugo]
    exact Nat.lt_succ_of_le (hmin u hu hugo)

omit [LinearOrder K] in
/-- Then its warp is with it, if it waits to shuffle. -/
theorem warp_of_behind (hpc : (s.threads t).pc = .rowPublished) {u : ℕ} (hu : u < k.blocksz) (hwarp : u / 32 = t / 32) :
    (s.threads u).pc = .rowPublished := by
  have hok := (h.threads t ht).toPlaced
  have hoku := (h.threads u hu).toPlaced
  have hopen : (s.threads t).bar.passed < (s.threads u).bar.arrivals :=
    (opens_of_behind h hcame hwaits ht hgo hmin).2 u hu
  have hahead : (s.threads u).bar.passed ≤ (s.threads t).bar.arrivals := h.inStep u hu t ht
  have htogether := h.together u hu t ht hwarp
  have hrows := hok.rowsAt_arrivals
  have hbar : (s.threads t).bar = ⟨(s.threads t).tile * (k.tileHeight + 2) + ((s.threads t).row + 1), true⟩ := by
    rw [hok.bar, hpc]
    rfl
  have harrivals : (s.threads t).bar.arrivals = (s.threads t).bar.passed + 1 := by
    rw [hbar]
    rfl
  have hrow : (s.threads t).row < k.tileHeight := by
    have hrow := hok.row
    rwa [hpc] at hrow
  rw [hpc] at htogether hrows
  replace htogether : (s.threads u).globalRow + (s.threads u).pc.shuffled = (s.threads t).globalRow := htogether
  replace hrows : rowsAt k.tileHeight (s.threads t).bar.arrivals = (s.threads t).globalRow + 1 := hrows
  have hbehind : (s.threads t).bar.passed ≤ (s.threads u).bar.passed := by
    by_cases hugo : (s.threads u).pc = .finished
    · have hnone : (s.threads u).bar.arrivals = (s.threads u).bar.passed := by
        rw [hoku.bar, hugo]
        rfl
      omega
    · exact hmin u hu hugo
  -- past the barrier of the row it would be in the next one
  have hpassed : (s.threads u).bar.passed = (s.threads t).bar.passed := by
    by_contra hne
    have hglobal := hoku.rowsAt_passed
    rw [show (s.threads u).bar.passed = (s.threads t).bar.arrivals by omega, hrows] at hglobal
    omega
  have hglobal : (s.threads u).globalRow = (s.threads t).globalRow := by
    rw [← hoku.rowsAt_passed, ← hok.rowsAt_passed, hpassed]
  have hplace := Pc.rows_passed hoku.row
  rw [hoku.bar, hbar] at hpassed
  obtain ⟨-, hpassed⟩ := tile_eq hpassed hplace.1 (show (s.threads t).row + 1 < k.tileHeight + 2 by omega)
  have hwait := hwaits u hu
  have hrowu := hoku.row
  cases hupc : (s.threads u).pc <;> rw [hupc] at hpassed htogether hwait hrowu <;>
    simp only [Pc.passed, Pc.shuffled, Pc.waits, Pc.RowOk] at hpassed htogether hwait hrowu <;>
    first | rfl | omega | simp at hwait

end

/-- **As long as a thread has not ended, some turn can be taken.** -/
theorem exists_turn (h : Inv k a cov block s) (hcame : ∀ t < k.blocksz, CameTo k a block stop (s.threads t).place)
    (hgo : ∃ t < k.blocksz, (s.threads t).pc ≠ .finished) : ∃ m s', step k a stop s m = some s' := by
  by_cases hwaits : ∀ t < k.blocksz, (s.threads t).pc ≠ .finished → (s.threads t).pc.waits = true
  · -- the thread furthest behind, or its warp, can go on
    obtain ⟨t₀, ht₀, hgo₀⟩ := hgo
    obtain ⟨t, hmem, hmin⟩ := ((Finset.range k.blocksz).filter fun t => (s.threads t).pc ≠ .finished).exists_min_image
      (fun t => (s.threads t).bar.passed) ⟨t₀, Finset.mem_filter.mpr ⟨Finset.mem_range.mpr ht₀, hgo₀⟩⟩
    obtain ⟨hrange, hgo⟩ := Finset.mem_filter.mp hmem
    have ht := Finset.mem_range.mp hrange
    replace hmin : ∀ u < k.blocksz, (s.threads u).pc ≠ .finished →
        (s.threads t).bar.passed ≤ (s.threads u).bar.passed := fun u hu hugo =>
      hmin u (Finset.mem_filter.mpr ⟨Finset.mem_range.mpr hu, hugo⟩)
    have hwait := hwaits t ht hgo
    by_cases hpc : (s.threads t).pc = .rowPublished
    · have hwarps := warps_eq (k := k)
      refine ⟨.warp (t / 32), _, (if_pos (by omega)).trans (if_pos fun lane hlane => ?_)⟩
      exact warp_of_behind h hcame hwaits ht hgo hmin hpc (by omega) (by omega)
    · have hbarrier : (s.threads t).pc = .tileLoaded ∨ (s.threads t).pc = .rowDone ∨ (s.threads t).pc = .flushed := by
        revert hwait hpc
        cases (s.threads t).pc <;> simp [Pc.waits]
      obtain ⟨s', hs'⟩ : ∃ s', stepThread k a stop s t = some s' :=
        stepThread_opens hbarrier (opens_of_behind h hcame hwaits ht hgo hmin)
      exact ⟨.thread t, s', (if_pos ht).trans hs'⟩
  · push Not at hwaits
    obtain ⟨t, ht, hgo, hwait⟩ := hwaits
    obtain ⟨s', hs'⟩ : ∃ s', stepThread k a stop s t = some s' :=
      stepThread_free (Bool.eq_false_iff.mpr hwait) hgo
    exact ⟨.thread t, s', (if_pos ht).trans hs'⟩

/-! ## Schedules -/

/-- What the loop says of the tiles holds in every state. -/
theorem cameTo_step (h : Inv k a cov block s) (hcame : ∀ t < k.blocksz, CameTo k a block stop (s.threads t).place)
    {m : Move} (hstep : step k a stop s m = some s') : ∀ t < k.blocksz, CameTo k a block stop (s'.threads t).place := by
  intro t ht
  rcases (step_goes h hstep).1 t ht with heq | hgoes
  · rw [heq]
    exact hcame t ht
  · exact hgoes.cameTo (hcame t ht)

theorem cameTo_run (moves : List Move) (h : Inv k a cov block s)
    (hcame : ∀ t < k.blocksz, CameTo k a block stop (s.threads t).place) :
    ∀ t < k.blocksz, CameTo k a block stop ((run k a stop moves s).threads t).place := by
  induction moves generalizing s with
  | nil => exact hcame
  | cons m moves ih =>
      show ∀ t < k.blocksz, CameTo k a block stop ((run k a stop moves ((step k a stop s m).getD s)).threads t).place
      cases hstep : step k a stop s m with
      | none => exact ih h hcame
      | some s' => exact ih (inv_step h hstep) (cameTo_step h hcame hstep)

theorem run_append (moves moves' : List Move) (s : Block K) :
    run k a stop (moves ++ moves') s = run k a stop moves' (run k a stop moves s) := List.foldl_append

theorem exists_moves (hrun : Relation.ReflTransGen (fun s s' => ∃ m, step k a stop s m = some s') s s') :
    ∃ moves, run k a stop moves s = s' := by
  induction hrun with
  | refl => exact ⟨[], rfl⟩
  | tail _ hstep ih =>
      obtain ⟨moves, rfl⟩ := ih
      obtain ⟨m, hm⟩ := hstep
      refine ⟨moves ++ [m], ?_⟩
      rw [run_append]
      show (step k a stop _ m).getD _ = _
      rw [hm, Option.getD_some]

/-- **A block can be brought to its end.** -/
theorem block_completes (hH : 0 < k.tileHeight) (h : Inv k a cov block s)
    (hcame : ∀ t < k.blocksz, CameTo k a block stop (s.threads t).place) :
    ∃ moves, ∀ t < k.blocksz, ((run k a stop moves s).threads t).pc = .finished := by
  obtain ⟨s', hrun, hend⟩ : ∃ s', Relation.ReflTransGen (fun s s' => ∃ m, step k a stop s m = some s') s s' ∧
      ∀ t < k.blocksz, (s'.threads t).pc = .finished := reaches_final
    (I := fun s => Inv k a cov block s ∧ ∀ t < k.blocksz, CameTo k a block stop (s.threads t).place)
    (fun s : Block K => ∑ t ∈ Finset.range k.blocksz, (s.threads t).place.left k a)
    (fun s s' hs hstep => hstep.elim fun m hm => ⟨inv_step hs.1 hm, cameTo_step hs.1 hs.2 hm⟩)
    (fun s s' hs hstep => by
      obtain ⟨m, hm⟩ := hstep
      obtain ⟨hall, t, ht, hgoes⟩ := step_goes hs.1 hm
      refine Finset.sum_lt_sum (fun u hu => ?_) ⟨t, Finset.mem_range.mpr ht,
        hgoes.left_lt hH (hs.1.threads t ht).row (hs.2 t ht)⟩
      have hu := Finset.mem_range.mp hu
      rcases hall u hu with heq | hgoes
      · rw [heq]
      · exact (hgoes.left_lt hH (hs.1.threads u hu).row (hs.2 u hu)).le)
    (fun s hs hgo => by
      push Not at hgo
      obtain ⟨m, s', hm⟩ := exists_turn hs.1 hs.2 hgo
      exact ⟨s', m, hm⟩)
    ⟨h, hcame⟩
  obtain ⟨moves, rfl⟩ := exists_moves hrun
  exact ⟨moves, hend⟩

theorem Pc.stage_inj {pc pc' : Pc} (h : pc.stage = pc'.stage) (hpos : 0 < pc.stage) : pc = pc' := by
  cases pc <;> cases pc' <;> first | rfl | simp [stage] at h hpos

theorem Pc.stage_le (pc : Pc) : pc.stage ≤ 5 := by
  cases pc <;> simp [stage]

/-- **A thread has come to each point of the rows it has counted.** -/
theorem counted_run (moves : List Move) (h : Inv k a cov block s)
    (hstart : ∀ t < k.blocksz, ∀ stage, 0 < stage → counted k stage (s.threads t).place = 0) :
    ∀ t < k.blocksz, ∀ pc : Pc, 0 < pc.stage →
      ∀ row < counted k pc.stage ((run k a stop moves s).threads t).place,
        ∃ before, before <+: moves ∧ ((run k a stop before s).threads t).pc = pc ∧
          ((run k a stop before s).threads t).globalRow = row := by
  induction moves using List.reverseRecOn with
  | nil =>
      intro t ht pc hpc row hrow
      rw [show counted k pc.stage ((run k a stop [] s).threads t).place = 0 from hstart t ht _ hpc] at hrow
      exact absurd hrow (Nat.not_lt_zero row)
  | append_singleton moves m ih =>
      intro t ht pc hpc row hrow
      have hinv : Inv k a cov block (run k a stop moves s) := inv_run moves h
      have hbefore : row < counted k pc.stage ((run k a stop moves s).threads t).place →
          ∃ before, before <+: moves ++ [m] ∧ ((run k a stop before s).threads t).pc = pc ∧
            ((run k a stop before s).threads t).globalRow = row := by
        intro hlt
        obtain ⟨before, hprefix, hat⟩ := ih t ht pc hpc row hlt
        exact ⟨before, hprefix.trans (List.prefix_append _ _), hat⟩
      rw [run_append] at hrow
      change row < counted k pc.stage (((step k a stop (run k a stop moves s) m).getD (run k a stop moves s)).threads t).place
        at hrow
      cases hstep : step k a stop (run k a stop moves s) m with
      | none =>
          rw [hstep] at hrow
          exact hbefore hrow
      | some s' =>
          rw [hstep, Option.getD_some] at hrow
          rcases (step_goes hinv hstep).1 t ht with heq | hgoes
          · rw [heq] at hrow
            exact hbefore hrow
          · rcases hgoes.counted (hinv.threads t ht).row hpc pc.stage_le with hsame | ⟨hnext, hstage, hplace⟩
            · rw [hsame] at hrow
              exact hbefore hrow
            · rw [hnext] at hrow
              rcases Nat.lt_succ_iff_lt_or_eq.mp hrow with hlt | rfl
              · exact hbefore hlt
              · -- the turn has brought the thread there
                have hrun : run k a stop (moves ++ [m]) s = s' := by
                  rw [run_append]
                  show (step k a stop _ m).getD _ = s'
                  rw [hstep, Option.getD_some]
                refine ⟨moves ++ [m], List.prefix_rfl, ?_, ?_⟩
                · rw [hrun]
                  exact Pc.stage_inj hstage (hstage ▸ hpc)
                · rw [hrun, Thread.globalRow, ((inv_step hinv hstep).threads t ht).startRow]
                  exact hplace

/-- **The slots keep to their columns.** Whatever turns the threads of a block take, every slot has at the
    start of a row the one column the rotation gives it, with its statistics, and once the hand-off buffer is
    read, the covariance of the recurrence; the in-block test never rejects it, and its position, wherever it
    is flushed, is inside the tile. The threads never wait for ever: further turns bring all of them to the
    end of the kernel. A thread that is there has come to every point of every row of the tiles that the loop
    comes to. -/
theorem shuffle_tracks (k : Instance) (a : KernelArgs K) (cov : Buffer K) (block : ℕ) (stop : ℕ → Bool)
    (raw : ℕ → Thread K) (smem : SCAMPShflSmem K) (moves : List Move) :
    (∀ t < k.blocksz, ∀ i < k.diagsPerThread, SlotTracks k a cov block t i
      ((run k a stop moves (start k a cov block raw smem)).threads t)) ∧
    (∀ f ∈ (run k a stop moves (start k a cov block raw smem)).colFlushes, 0 ≤ f.1 ∧ f.1 < k.tileWidth) ∧
    (0 < k.tileHeight → ∃ moves', ∀ t < k.blocksz,
      ((run k a stop (moves ++ moves') (start k a cov block raw smem)).threads t).pc = .finished) ∧
    ∀ t < k.blocksz, ((run k a stop moves (start k a cov block raw smem)).threads t).pc = .finished →
      ∀ tile, ComesTo k a block stop tile → ∀ row < k.tileHeight, ∀ pc : Pc, 0 < pc.stage →
        ∃ before, before <+: moves ∧
          ((run k a stop before (start k a cov block raw smem)).threads t).pc = pc ∧
          ((run k a stop before (start k a cov block raw smem)).threads t).globalRow =
            tile * k.tileHeight + row := by
  have hstart : Inv k a cov block (start k a cov block raw smem) := inv_start raw smem
  have hfirst : ∀ t < k.blocksz, CameTo k a block stop ((start k a cov block raw smem).threads t).place :=
    fun t _ j hj => absurd hj (Nat.not_lt_zero j)
  have hinv : Inv k a cov block (run k a stop moves (start k a cov block raw smem)) := inv_run moves hstart
  have hcame : ∀ t < k.blocksz,
      CameTo k a block stop ((run k a stop moves (start k a cov block raw smem)).threads t).place :=
    cameTo_run moves hstart hfirst
  refine ⟨fun t ht i hi => (hinv.threads t ht).slotTracks ht hi, hinv.flushes, fun hH => ?_, ?_⟩
  · obtain ⟨moves', hend⟩ := block_completes hH hinv hcame
    refine ⟨moves', fun t ht => ?_⟩
    rw [run_append]
    exact hend t ht
  · intro t ht hfinished tile hcomes row hrow pc hpc
    refine counted_run moves hstart (fun t _ stage hstage => ?_) t ht pc hpc _ ?_
    · exact (congrArg _ (if_neg (Nat.not_le_of_lt hstage))).trans (Nat.zero_mul _)
    · -- the loop has ended after that tile
      have hended := (hcame t ht).of_pc hfinished
      have htile : tile < ((run k a stop moves (start k a cov block raw smem)).threads t).tile := by
        by_contra hle
        rcases Nat.lt_or_eq_of_le (Nat.le_of_not_lt hle) with hlt | heq
        · exact hended ⟨(hcomes.2 _ hlt).1, fun j hj => hcomes.2 j (hj.trans hlt)⟩
        · exact hended (heq ▸ hcomes)
      have hrows := Nat.mul_le_mul_right k.tileHeight (Nat.succ_le_of_lt htile)
      rw [Nat.succ_mul] at hrows
      unfold counted Thread.place
      dsimp only
      omega

end

/-- A block of two warps with two slots a thread, in tiles of four rows. -/
def twoWarps : Instance where
  type := .oneNNIndex
  computeRows := true
  computeCols := true
  diagsPerThread := 2
  outerUnrolledRows := 4
  kernelTileIters := 1
  blocksz := 64
  blocksz_pos := by decide
  warp_dvd_blocksz := by decide
  diags_pos := by decide
  diags_le := by decide
  height_even := by decide
  height_le := by decide

/-- A pass over nine rows and 200 columns, in which a covariance grows by one in every row. -/
def growingArgs : KernelArgs ℚ where
  nX := 200
  nY := 9
  exclusionLower := 0
  exclusionUpper := 0
  dfa _ := 1
  dfb _ := 0
  dga _ := 0
  dgb _ := 1
  normsa _ := .num 1
  normsb _ := .num 1
  matrixWidth := 0
  rowsPerCell := 0
  colsPerCell := 0
  globalStartCol := 0
  globalStartRow := 0
  hasNanInput := false
  threshold := 0

/-- A thread and shared memory with zeros in them. -/
def zeroThread : Thread ℚ where
  state := ⟨fun _ => 0, fun _ => 0, fun _ => 0, fun _ => .num 0, fun _ => ⟨.num 0, 0⟩, 0, fun _ => 0, fun _ => 0⟩
  pc := .tileStart
  bar := ⟨0, false⟩
  tile := 0
  tileStartCol := 0
  tileStartRow := 0
  row := 0
  dfr := 0
  dgr := 0
  inormr := .num 0
  dist _ := .num 0

def zeroSmem : SCAMPShflSmem ℚ := ⟨fun _ => 0, fun _ => 0, fun _ => .num 0, fun _ => 0⟩

/-- The block before its first turn. -/
def growingStart : Block ℚ := start twoWarps growingArgs (fun d => d) 0 (fun _ => zeroThread) zeroSmem

/-- In the second row of the second tile, the first lane of the second warp has the covariance that the last
    lane of the first warp has handed over. -/
theorem shuffle_tracks_twoWarps : ∃ moves th, (run twoWarps growingArgs (fun _ => false) moves growingStart).threads 32 = th ∧
    th.pc = .rowLoaded ∧ th.globalRow = 5 ∧ th.state.globalCol 0 = 64 ∧ th.state.cov 0 = 64 := by
  have htracks := shuffle_tracks twoWarps growingArgs (fun d => d) 0 (fun _ => false) (fun _ => zeroThread) zeroSmem
  obtain ⟨moves, hend⟩ := (htracks []).2.2.1 (by decide)
  have hcomes : ComesTo twoWarps growingArgs 0 (fun _ => false) 1 :=
    ⟨by decide, fun j hj => ⟨by interval_cases j; decide, rfl⟩⟩
  obtain ⟨before, -, hpc, hrow⟩ :=
    (htracks moves).2.2.2 32 (by decide) (hend 32 (by decide)) 1 hcomes 1 (by decide) .rowLoaded (by decide)
  replace hrow : _ = 5 := hrow
  have hslot := (htracks before).1 32 (by decide) 0 (by decide)
  obtain ⟨c, ⟨hmod, hle, hlt⟩, -, hcol⟩ := hslot.column (Or.inr hpc)
  rw [hrow] at hle hlt
  have hc : c = 64 := by
    have hmod : c % 128 = 64 := hmod
    have hlt : c < 5 + 128 := hlt
    omega
  replace hcol : _ = 64 := hcol.trans (congrArg _ hc)
  have hcov := hslot.covariance hpc (by rw [hrow]; decide) (by rw [hcol]; decide)
  rw [hrow, hcol] at hcov
  exact ⟨before, _, rfl, hpc, hrow, hcol, hcov.trans (by norm_num [covAt, growingArgs])⟩

end Shuffle

end Scamp
