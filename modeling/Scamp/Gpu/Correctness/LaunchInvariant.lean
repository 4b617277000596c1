import Scamp.Gpu.Correctness.TileWork

/-!
# `Gpu.Correctness.LaunchInvariant` — what holds during a launch

The invariant of a launch that keeps the best value of each profile entry. An entry, in a profile or in
shared memory, is the one the launch started with or comes from a cell of that entry (`Fair`), and the
correlation of each cell is on its way: offered by an access that a thread has still to make, in the entry of
its tile, to be written back, or in the profile (`BlockInv`).
-/

namespace Scamp

open Lib

namespace SlidingWindow

namespace DoTile

/-! ## Memory -/

section
variable {β : Type} {f : Side → ℕ → β} {side side' : Side} {pos pos' : ℕ} {v : β}

theorem update_update_self : Function.update f side (Function.update (f side) pos v) side pos = v := by
  rw [Function.update_self, Function.update_self]

theorem update_update_ne (h : ¬(side' = side ∧ pos' = pos)) :
    Function.update f side (Function.update (f side) pos v) side' pos' = f side' pos' := by
  by_cases hside : side' = side
  · subst hside
    rw [Function.update_self, Function.update_of_ne fun hpos => h ⟨rfl, hpos⟩]
  · rw [Function.update_of_ne hside]

end

section
variable {K : Type} {smem : BlockSmem K} {side side' : Side} {pos pos' g : ℕ} {e : MpEntry K}

@[simp] theorem localMp_setLocalMp_self : (smem.setLocalMp side pos e).localMp side pos = e := by
  cases side <;> exact Function.update_self _ _ _

theorem localMp_setLocalMp_ne (h : ¬(side' = side ∧ pos' = pos)) :
    (smem.setLocalMp side pos e).localMp side' pos' = smem.localMp side' pos' := by
  cases side <;> cases side' <;> first | rfl | exact Function.update_of_ne (fun hp => h ⟨rfl, hp⟩) _ _

@[simp] theorem localMp_setStats (x : Dbl K × Dbl K × Dbl K) : (smem.setStats side pos x).localMp = smem.localMp := by
  funext side'
  cases side <;> cases side' <;> rfl

section
variable [LinearOrder K] {L : Launch K}

@[simp] theorem holdsStats_setLocalMp : HoldsStats L (smem.setLocalMp side' pos' e).toSCAMPSmem side pos g ↔
    HoldsStats L smem.toSCAMPSmem side pos g := by
  cases side' <;> cases side <;> rfl

theorem holdsStats_setStats_self : HoldsStats L (smem.setStats side pos (L.stats side g)).toSCAMPSmem side pos g := by
  cases side <;> simp [HoldsStats, BlockSmem.setStats]

theorem holdsStats_setStats_ne {x : Dbl K × Dbl K × Dbl K} (h : ¬(side' = side ∧ pos' = pos)) :
    HoldsStats L (smem.setStats side pos x).toSCAMPSmem side' pos' g ↔ HoldsStats L smem.toSCAMPSmem side' pos' g := by
  cases side <;> cases side' <;> first
    | rfl
    | simp [HoldsStats, BlockSmem.setStats, Function.update_of_ne fun hp => h ⟨rfl, hp⟩]

end

end

/-- A block after an access of one of its threads. -/
def BlockState.step {K : Type} (s : BlockState K) (t : ℕ) (smem : BlockSmem K) (checked : Checked K)
    (rest : List (Access K)) : BlockState K :=
  { s with smem := smem, thread := Function.update s.thread t { s.thread t with checked := checked, todo := rest } }

section
variable {K : Type} {s : BlockState K} {t t' : ℕ} {smem : BlockSmem K} {checked : Checked K} {x y : Access K}
  {rest : List (Access K)}

theorem step_thread_ne (h : t' ≠ t) : (s.step t smem checked rest).thread t' = s.thread t' :=
  Function.update_of_ne h _ _

@[simp] theorem step_todo : ((s.step t smem checked rest).thread t).todo = rest := by
  show (Function.update s.thread t _ t).todo = _
  rw [Function.update_self]

@[simp] theorem step_checked : ((s.step t smem checked rest).thread t).checked = checked := by
  show (Function.update s.thread t _ t).checked = _
  rw [Function.update_self]

@[simp] theorem step_info : ((s.step t smem checked rest).thread t').info = (s.thread t').info := by
  by_cases h : t' = t
  · subst h
    show (Function.update s.thread t' _ t').info = _
    rw [Function.update_self]
  · rw [step_thread_ne h]

/-- A thread that has made an access has one less to make. -/
theorem mem_todo_of_step (htodo : (s.thread t).todo = x :: rest)
    (hy : y ∈ ((s.step t smem checked rest).thread t').todo) : y ∈ (s.thread t').todo := by
  by_cases h : t' = t
  · subst h
    rw [step_todo] at hy
    rw [htodo]
    exact List.mem_cons_of_mem _ hy
  · rwa [step_thread_ne h] at hy

theorem mem_step_todo (htodo : (s.thread t).todo = x :: rest) (hy : y ∈ (s.thread t').todo) :
    (t' = t ∧ y = x) ∨ y ∈ ((s.step t smem checked rest).thread t').todo := by
  by_cases h : t' = t
  · subst h
    rw [htodo] at hy
    rw [step_todo]
    exact (List.mem_cons.mp hy).imp_left fun hy => ⟨rfl, hy⟩
  · rw [step_thread_ne h]
    exact Or.inr hy

end

section
variable {K : Type} [Field K] [LinearOrder K]

/-- The profile types of which each entry is the best of its own cells. -/
def PerEntry (type : SCAMPProfileType) : Prop := type = .oneNN ∨ type = .oneNNIndex

theorem PerEntry.keepsMax {type : SCAMPProfileType} (h : PerEntry type) : KeepsMax type := by
  rcases h with rfl | rfl
  · exact Or.inr rfl
  · exact Or.inl rfl

section
variable (L : Launch K) (base : Side → Buffer (MpEntry K))

/-! ## Cells -/

/-- The cells that the threads of the launch have on their diagonals. -/
def Launch.cells : Set (ℕ × ℕ) :=
  {z | ∃ b < numBlocks L.cfg L.dims, ∃ t < L.cfg.blocksz, z ∈ slidingLane L.cfg L.dims (diagOf L b t) z.1}

/-- The cells of `n` rows of a block. -/
def blockCells (b row n : ℕ) : Set (ℕ × ℕ) := {z | ∃ t < L.cfg.blocksz, z ∈ rowsCells L b t row n}

/-- The cells of a tile. -/
def tileCells (b k : ℕ) : Set (ℕ × ℕ) := blockCells L b (k * L.cfg.tileHeight) L.cfg.tileHeight

/-- A position of a tile that is in the matrix. -/
def OnTile (b k : ℕ) (side : Side) (pos : ℕ) : Prop :=
  pos < L.extent side ∧ L.tileStart b k side + pos < L.size side

/-- The entry is the one the launch started with, or comes from a cell of its position. -/
def Fair (side : Side) (pos : ℕ) (e : MpEntry K) : Prop :=
  Attains (keepsIndex L.type) (base side pos) (sideHits L L.cells side pos) e

/-- The entry is not below the correlation of the cell. -/
def Covers (z : ℕ × ℕ) (e : MpEntry K) : Prop := ∀ w, L.corr z.1 z.2 = .num w → AtLeast w e

variable {L base}

omit [Field K] in
theorem blockCells_add (b row n m : ℕ) :
    blockCells L b row (n + m) = blockCells L b row n ∪ blockCells L b (row + n) m := by
  ext z
  constructor
  · rintro ⟨t, ht, hz⟩
    rw [rowsCells_add] at hz
    exact hz.imp (fun hz => ⟨t, ht, hz⟩) fun hz => ⟨t, ht, hz⟩
  · rintro (⟨t, ht, hz⟩ | ⟨t, ht, hz⟩) <;> refine ⟨t, ht, ?_⟩ <;> rw [rowsCells_add]
    · exact Or.inl hz
    · exact Or.inr hz

omit [Field K] in
/-- Where the cells of a thread are. -/
theorem lane_onTile {b t k : ℕ} (ht : t < L.cfg.blocksz) {z : ℕ × ℕ}
    (hz : z ∈ rowsCells L b t (k * L.cfg.tileHeight) L.cfg.tileHeight) (side : Side) :
    L.tileStart b k side ≤ cellPos side z ∧ OnTile L b k side (cellPos side z - L.tileStart b k side) := by
  obtain ⟨⟨hle, hlt⟩, hlane⟩ := hz
  obtain ⟨-, hrow, i, hi, hcol, hin, -⟩ := mem_slidingLane.mp hlane
  have hrow : z.1 < L.args.nY := hrow
  have hin : z.2 < L.args.nX := hin
  have hcol : z.2 = diagOf L b t + (z.1 + i) := hcol
  have hdiags := thread_diags L ht
  have hdiag := diagOf_eq L b t
  have hstart := tileStart_a L b k
  unfold OnTile
  cases side with
  | a =>
      show L.tileStart b k .a ≤ z.2 ∧ z.2 - L.tileStart b k .a < L.cfg.tileHeight + L.cfg.blockDiags ∧
        L.tileStart b k .a + (z.2 - L.tileStart b k .a) < L.args.nX
      omega
  | b =>
      show k * L.cfg.tileHeight ≤ z.1 ∧ z.1 - k * L.cfg.tileHeight < L.cfg.tileHeight ∧
        k * L.cfg.tileHeight + (z.1 - k * L.cfg.tileHeight) < L.args.nY
      omega

omit [Field K] in
/-- A block that has no tile left has no cell left. -/
theorem row_lt_of_noTile {b t k : ℕ} (hno : L.hasTile b k = false) {z : ℕ × ℕ}
    (hz : z ∈ slidingLane L.cfg L.dims (diagOf L b t) z.1) : z.1 < k * L.cfg.tileHeight := by
  obtain ⟨-, hrow, i, -, hcol, hin, -⟩ := mem_slidingLane.mp hz
  have hrow : z.1 < L.args.nY := hrow
  have hin : z.2 < L.args.nX := hin
  have hcol : z.2 = diagOf L b t + (z.1 + i) := hcol
  have hdiag := diagOf_eq L b t
  have hstart := tileStart_a L b k
  have hno : ¬(L.tileStart b k .a < L.args.nX ∧ k * L.cfg.tileHeight < L.args.nY) := of_decide_eq_false hno
  omega

/-! ## The lists of accesses -/

theorem mem_positions {blocksz extent size start : ℕ} (hpos : 0 < blocksz) {pos q : ℕ} :
    q ∈ positions blocksz extent size start hpos pos ↔
      pos ≤ q ∧ q % blocksz = pos % blocksz ∧ q < extent ∧ start + q < size := by
  induction pos using positions.induct blocksz extent size start hpos with
  | case1 pos hin ih =>
      rw [positions, if_pos hin, List.mem_cons, ih, Nat.add_mod_right]
      constructor
      · rintro (rfl | ⟨hle, hmod, hq⟩)
        · exact ⟨le_rfl, rfl, hin⟩
        · exact ⟨by omega, hmod, hq⟩
      · rintro ⟨hle, hmod, hq⟩
        rcases hle.eq_or_lt with rfl | hlt
        · exact Or.inl rfl
        · refine Or.inr ⟨?_, hmod, hq⟩
          -- two numbers that leave the same remainder are `blocksz` apart
          have hdvd : blocksz ∣ q - pos := (Nat.modEq_iff_dvd' hle).mp hmod.symm
          have := Nat.le_of_dvd (by omega) hdvd
          omega
  | case2 pos hout =>
      rw [positions, if_neg hout]
      constructor
      · intro h
        cases h
      · rintro ⟨hle, -, hlt, hsize⟩
        exact absurd ⟨by omega, by omega⟩ hout

omit [Field K] in
/-- The positions of a tile are shared out among the threads. -/
theorem mem_sidePositions {b k t : ℕ} (ht : t < L.cfg.blocksz) {side : Side} {pos : ℕ} :
    pos ∈ sidePositions L b k t side ↔ pos % L.cfg.blocksz = t ∧ OnTile L b k side pos := by
  unfold sidePositions
  rw [mem_positions, Nat.mod_eq_of_lt ht]
  constructor
  · rintro ⟨-, hmod, hin⟩
    exact ⟨hmod, hin⟩
  · rintro ⟨hmod, hin⟩
    exact ⟨hmod ▸ Nat.mod_le _ _, hmod, hin⟩

omit [Field K] in
theorem mem_initSmem {b k t : ℕ} (ht : t < L.cfg.blocksz) {x : Access K} : x ∈ initSmem L b k t ↔
    ∃ side pos, pos % L.cfg.blocksz = t ∧ OnTile L b k side pos ∧ x = .load side pos (L.tileStart b k side + pos) := by
  unfold initSmem
  rw [List.mem_flatMap]
  constructor
  · rintro ⟨side, -, hx⟩
    obtain ⟨pos, hpos, rfl⟩ := List.mem_map.mp hx
    obtain ⟨hmod, hin⟩ := (mem_sidePositions ht).mp hpos
    exact ⟨side, pos, hmod, hin, rfl⟩
  · rintro ⟨side, pos, hmod, hin, rfl⟩
    refine ⟨side, by cases side <;> simp, List.mem_map.mpr ⟨pos, (mem_sidePositions ht).mpr ⟨hmod, hin⟩, rfl⟩⟩

omit [Field K] in
theorem mem_writeBack {b k t : ℕ} (ht : t < L.cfg.blocksz) {x : Access K} : x ∈ writeBack L b k t ↔
    ∃ side pos, L.computing side = true ∧ pos % L.cfg.blocksz = t ∧ OnTile L b k side pos ∧
      x = .store side pos (L.tileStart b k side + pos) := by
  unfold writeBack
  rw [List.mem_flatMap]
  constructor
  · rintro ⟨side, -, hx⟩
    split at hx
    · next hon =>
        obtain ⟨pos, hpos, rfl⟩ := List.mem_map.mp hx
        obtain ⟨hmod, hin⟩ := (mem_sidePositions ht).mp hpos
        exact ⟨side, pos, hon, hmod, hin, rfl⟩
    · cases hx
  · rintro ⟨side, pos, hon, hmod, hin, rfl⟩
    refine ⟨side, by cases side <;> simp, ?_⟩
    rw [if_pos hon]
    exact List.mem_map.mpr ⟨pos, (mem_sidePositions ht).mpr ⟨hmod, hin⟩, rfl⟩

end

/-! ## The invariant -/

section
variable (L : Launch K) (base : Side → Buffer (MpEntry K))

/-- The profiles start with numbers from `-2` on, the value that the registers start with. -/
def StartsAbove : Prop := ∀ side pos, L.computing side = true → pos < L.size side → AtLeast (-2) (base side pos)

/-- The profiles: the entries that are computed are fair, the others as they were. -/
structure MemFair (m : GlobalMemory K) : Prop where
  fair : ∀ side pos, L.computing side = true → pos < L.size side → Fair L base side pos (m.profile side pos)
  kept : ∀ side pos, ¬(L.computing side = true ∧ pos < L.size side) → m.profile side pos = base side pos

/-- The entries of the profiles have not become smaller. -/
def Grows (m m' : GlobalMemory K) : Prop :=
  ∀ side pos w, AtLeast w (m.profile side pos) → AtLeast w (m'.profile side pos)

/-- The position of a tile is loaded. -/
structure Loaded (b k : ℕ) (smem : BlockSmem K) (side : Side) (pos : ℕ) : Prop where
  stats : HoldsStats L smem.toSCAMPSmem side pos (L.tileStart b k side + pos)
  fair : L.computing side = true → Fair L base side (L.tileStart b k side + pos) (smem.localMp side pos)

/-- Between two tiles: what the tiles so far have found is in the profiles, or in entries that threads have
    still to take there. -/
structure WritesBack (m : GlobalMemory K) (b : ℕ) (s : BlockState K) : Prop where
  pending : ∀ t < L.cfg.blocksz, ∀ side pos g, .store side pos g ∈ (s.thread t).todo →
    (L.computing side = true ∧ g < L.size side) ∧ pos % L.cfg.blocksz = t ∧
      Fair L base side g (s.smem.localMp side pos)
  held : ∀ z ∈ blockCells L b 0 (s.tile * L.cfg.tileHeight), ∀ side, L.computing side = true →
    Covers L z (m.profile side (cellPos side z)) ∨
      ∃ t < L.cfg.blocksz, ∃ pos, .store side pos (cellPos side z) ∈ (s.thread t).todo ∧
        Covers L z (s.smem.localMp side pos)

/-- A block that loads a tile. -/
structure Loads (m : GlobalMemory K) (b : ℕ) (s : BlockState K) : Prop extends WritesBack L base m b s where
  before : ∀ t < L.cfg.blocksz, BeforeTile L b s.tile t (s.thread t).info
  order : ∀ t < L.cfg.blocksz, ∃ stores loads, (s.thread t).todo = stores ++ loads ∧
    (∀ x ∈ stores, ∃ side pos g, x = .store side pos g) ∧
    ∀ x ∈ loads, ∃ side pos, pos % L.cfg.blocksz = t ∧ OnTile L b s.tile side pos ∧
      x = .load side pos (L.tileStart b s.tile side + pos)
  loaded : ∀ side pos, OnTile L b s.tile side pos →
    .load side pos (L.tileStart b s.tile side + pos) ∈ (s.thread (pos % L.cfg.blocksz)).todo ∨
      Loaded L base b s.tile s.smem side pos

/-- A block that computes a tile. -/
structure Computes (m : GlobalMemory K) (b : ℕ) (s : BlockState K) : Prop where
  loaded : ∀ side pos, OnTile L b s.tile side pos → Loaded L base b s.tile s.smem side pos
  held : ∀ z ∈ blockCells L b 0 (s.tile * L.cfg.tileHeight), ∀ side, L.computing side = true →
    Covers L z (m.profile side (cellPos side z))
  before : ∀ t < L.cfg.blocksz, BeforeTile L b (s.tile + 1) t (s.thread t).info
  sound : ∀ t < L.cfg.blocksz, ∀ x ∈ (s.thread t).todo, x.Sound
  genuine : ∀ t < L.cfg.blocksz, ∀ x ∈ (s.thread t).todo, ∀ side slot o, x.offer = some (side, slot, o) →
    (L.computing side = true ∧ OnTile L b s.tile side slot) ∧
      Genuine (keepsIndex L.type) (sideHits L L.cells side (L.tileStart b s.tile side + slot)) o
  guarded : ∀ t < L.cfg.blocksz, ∀ pre side slot best post,
    (s.thread t).todo = pre ++ .flush side slot best :: post →
      .check side slot ∈ pre ∨ ((s.thread t).checked side slot).isSome
  checked : ∀ t < L.cfg.blocksz, ∀ side slot d, (s.thread t).checked side slot = some d →
    L.computing side = true → OnTile L b s.tile side slot → ∃ c, d = .num c ∧ AtLeast c (s.smem.localMp side slot)
  offered : ∀ z ∈ tileCells L b s.tile, ∀ side, L.computing side = true →
    Covers L z (s.smem.localMp side (cellPos side z - L.tileStart b s.tile side)) ∨
      ∃ t < L.cfg.blocksz, ∃ x ∈ (s.thread t).todo, ∃ o,
        x.offer = some (side, cellPos side z - L.tileStart b s.tile side, o) ∧ Covers L z o

/-- A block after its last tile. -/
structure Ends (m : GlobalMemory K) (b : ℕ) (s : BlockState K) : Prop extends WritesBack L base m b s where
  stores : ∀ t < L.cfg.blocksz, ∀ x ∈ (s.thread t).todo, ∃ side pos g, x = .store side pos g
  noTile : L.hasTile b s.tile = false

/-- What holds of a block. -/
def BlockInv (m : GlobalMemory K) (b : ℕ) (s : BlockState K) : Prop :=
  match s.phase with
  | .loading => Loads L base m b s
  | .computing => Computes L base m b s
  | .storing => False
  | .finished => Ends L base m b s

/-- What holds of a launch. -/
structure LaunchInv (g : Grid K) : Prop where
  mem : MemFair L base g.mem
  block : ∀ b < numBlocks L.cfg L.dims, BlockInv L base g.mem b (g.block b)

end

end

end DoTile

end SlidingWindow

end Scamp
