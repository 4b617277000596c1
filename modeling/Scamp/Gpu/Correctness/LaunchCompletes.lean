import Scamp.Gpu.Correctness.LaunchRun
import Scamp.Lib.Run
import Mathlib.Algebra.Order.BigOperators.Group.Finset
import Mathlib.Data.Prod.Lex

/-!
# `Gpu.Correctness.LaunchCompletes` — a launch comes to its end

No run of a launch gets stuck: whatever turns were taken, there are turns after which all blocks have ended
(`launch_completes`). A block has a turn to take as long as it has not ended (`block_progress`), and what it
has left to do gets less with each of them (`remaining`).
-/

namespace Scamp

open Lib

namespace SlidingWindow

namespace DoTile

section
variable {K : Type} [Field K] [LinearOrder K] {L : Launch K} {base : Side → Buffer (MpEntry K)} {b : ℕ}
  {g : Grid K}

/-- The place of a phase in its tile. -/
def Phase.left : Phase → ℕ
  | .loading => 2
  | .computing => 1
  | .storing => 1
  | .finished => 0

/-- What a block has left to do: tiles, barriers of its tile, accesses before the next one. -/
def remaining (L : Launch K) (b : ℕ) (g : Grid K) : ℕ ×ₗ ℕ ×ₗ ℕ :=
  toLex (L.args.nY - (g.block b).tile, toLex ((g.block b).phase.left,
    ∑ t ∈ Finset.range L.cfg.blocksz, ((g.block b).thread t).todo.length))

/-- Block `b` has ended. -/
def BlockEnded (L : Launch K) (b : ℕ) (g : Grid K) : Prop :=
  (g.block b).phase = .finished ∧ ∀ t < L.cfg.blocksz, ((g.block b).thread t).todo = []

/-- Where a barrier leads. -/
theorem passBarrier_cases (hper : PerEntry L.type) {raw : RawTile K} {s s' : BlockState K}
    (hpass : passBarrier L raw b s = some s') :
    (s.phase = .loading ∧ s'.tile = s.tile ∧ s'.phase = .computing) ∨
      (s.phase = .computing ∧ s'.tile = s.tile + 1 ∧
        (s'.phase = .loading ∧ L.hasTile b (s.tile + 1) = true ∨ s'.phase = .finished)) ∨ s.phase = .storing := by
  have hcheck : needsCheckIfDone L.type = false := by
    rcases hper with hone | hindex
    · rw [hone]
      rfl
    · rw [hindex]
      rfl
  obtain ⟨tile, phase, smem, thread⟩ := s
  cases phase with
  | loading =>
      simp only [passBarrier] at hpass
      split at hpass
      · obtain rfl := Option.some.inj hpass
        exact Or.inl ⟨rfl, rfl, rfl⟩
      · cases hpass
  | computing =>
      simp only [passBarrier, hcheck, Bool.false_eq_true, if_false, Option.some.injEq] at hpass
      subst hpass
      unfold nextTile
      split
      · next hnext => exact Or.inr (Or.inl ⟨rfl, rfl, Or.inl ⟨rfl, hnext⟩⟩)
      · exact Or.inr (Or.inl ⟨rfl, rfl, Or.inr rfl⟩)
  | storing => exact Or.inr (Or.inr rfl)
  | finished => cases hpass

variable (hper : PerEntry L.type) (hbase : StartsAbove L base) (raw : ℕ → RawTile K)
include hper hbase

/-- **A block that has not ended has a turn to take**, which leaves it less to do. -/
theorem block_progress (h : LaunchInv L base g) (hb : b < numBlocks L.cfg L.dims) (hgo : ¬BlockEnded L b g) :
    ∃ x g', turn L raw g x = some g' ∧ remaining L b g' < remaining L b g ∧ ∀ b' ≠ b, g'.block b' = g.block b' := by
  have hother : ∀ {m : GlobalMemory K} {s : BlockState K}, ∀ b' ≠ b,
      (⟨m, Function.update g.block b s⟩ : Grid K).block b' = g.block b' := fun b' hne => Function.update_of_ne hne _ _
  by_cases hempty : ∀ t < L.cfg.blocksz, ((g.block b).thread t).todo = []
  · -- all threads are at the barrier
    obtain ⟨s', hpass, hturn, -⟩ := barrier_ready hper raw h hb hempty fun hphase => hgo ⟨hphase, hempty⟩
    refine ⟨.barrier b, _, hturn, ?_, hother⟩
    have hblock : (⟨g.mem, Function.update g.block b s'⟩ : Grid K).block b = s' := Function.update_self _ _ _
    unfold remaining
    rw [hblock, Prod.Lex.toLex_lt_toLex, Prod.Lex.toLex_lt_toLex]
    rcases passBarrier_cases hper hpass with ⟨hphase, htile, hphase'⟩ | ⟨hphase, htile, hnext⟩ | hphase
    · rw [hphase, htile, hphase']
      exact Or.inr ⟨rfl, Or.inl (Nat.lt_succ_self 1)⟩
    · rw [hphase, htile]
      rcases hnext with ⟨hphase', hmore⟩ | hphase'
      · obtain ⟨-, hrow⟩ : _ ∧ ((g.block b).tile + 1) * L.cfg.tileHeight < L.args.nY := of_decide_eq_true hmore
        have hheight := Nat.le_mul_of_pos_right ((g.block b).tile + 1) L.cfg.tileHeight_pos
        exact Or.inl (by omega)
      · rw [hphase']
        rcases Nat.lt_or_ge (L.args.nY - ((g.block b).tile + 1)) (L.args.nY - (g.block b).tile) with hlt | hge
        · exact Or.inl hlt
        · exact Or.inr ⟨by omega, Or.inl Nat.one_pos⟩
    · have hblock := h.block b hb
      unfold BlockInv at hblock
      rw [hphase] at hblock
      exact hblock.elim
  · -- a thread with an access to make
    push Not at hempty
    obtain ⟨t, ht, htodo⟩ := hempty
    obtain ⟨x, rest, htodo⟩ := List.exists_cons_of_ne_nil htodo
    obtain ⟨next, hturn, -⟩ := access_ready hper hbase raw h hb ht htodo
    refine ⟨.access b t, _, hturn, ?_, hother⟩
    have hblock : (⟨next.1, Function.update g.block b ((g.block b).step t next.2.1 next.2.2 rest)⟩ : Grid K).block b =
        (g.block b).step t next.2.1 next.2.2 rest := Function.update_self _ _ _
    unfold remaining
    rw [hblock, Prod.Lex.toLex_lt_toLex, Prod.Lex.toLex_lt_toLex]
    refine Or.inr ⟨rfl, Or.inr ⟨rfl, Finset.sum_lt_sum (fun t' _ => ?_) ⟨t, Finset.mem_range.mpr ht, ?_⟩⟩⟩
    · by_cases heq : t' = t
      · subst heq
        rw [step_todo, htodo, List.length_cons]
        exact Nat.le_succ _
      · rw [step_thread_ne heq]
    · rw [step_todo, htodo, List.length_cons]
      exact Nat.lt_succ_self _

/-- **A block can be brought to its end**, while the others wait. -/
theorem block_completes (h : LaunchInv L base g) (hb : b < numBlocks L.cfg L.dims) :
    ∃ g', Relation.ReflTransGen (fun g g' => ∃ x, turn L raw g x = some g') g g' ∧ LaunchInv L base g' ∧
      BlockEnded L b g' ∧ ∀ b' ≠ b, g'.block b' = g.block b' := by
  let Alone (g g' : Grid K) : Prop := (∃ x, turn L raw g x = some g') ∧ remaining L b g' < remaining L b g ∧
    ∀ b' ≠ b, g'.block b' = g.block b'
  have hkeep : ∀ g₁ g₂, LaunchInv L base g₁ → Alone g₁ g₂ → LaunchInv L base g₂ := by
    rintro g₁ g₂ h₁ ⟨⟨x, hx⟩, -⟩
    exact launchInv_turn hper hbase h₁ hx
  obtain ⟨g', hrun, hend⟩ : ∃ g', Relation.ReflTransGen Alone g g' ∧ BlockEnded L b g' :=
    reaches_final (I := LaunchInv L base) (remaining L b) hkeep (fun _ _ _ hstep => hstep.2.1) (fun g₁ h₁ hgo => by
      obtain ⟨x, g₂, hx, hless, hother⟩ := block_progress hper hbase raw h₁ hb hgo
      exact ⟨g₂, ⟨x, hx⟩, hless, hother⟩) h
  refine ⟨g', Relation.ReflTransGen.mono (fun _ _ hstep => hstep.1) _ _ hrun, run_inv hkeep hrun h, hend, ?_⟩
  exact run_inv (I := fun g' => ∀ b' ≠ b, g'.block b' = g.block b')
    (fun g₁ g₂ h₁ hstep b' hne => (hstep.2.2 b' hne).trans (h₁ b' hne)) hrun fun _ _ => rfl

/-- **A launch can be brought to its end.** -/
theorem grid_completes (h : LaunchInv L base g) : ∃ turns g', run L raw g turns = some g' ∧ g'.Finished L := by
  obtain ⟨g', hrun, -, hend⟩ := all_final (F := BlockEnded L) (n := numBlocks L.cfg L.dims) (fun b hb g₁ h₁ => by
    obtain ⟨g₂, hrun, h₂, hend, hother⟩ := block_completes hper hbase raw h₁ hb
    refine ⟨g₂, hrun, h₂, hend, fun b' hb' => ?_⟩
    by_cases heq : b' = b
    · exact heq ▸ hend
    · unfold BlockEnded
      rw [hother b' heq]
      exact hb') h
  obtain ⟨turns, hturns⟩ := exists_run hrun
  exact ⟨turns, g', hturns, hend⟩

end

end DoTile

end SlidingWindow

end Scamp
