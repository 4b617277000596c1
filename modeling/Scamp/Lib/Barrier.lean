import Mathlib.Data.Nat.Basic
import Mathlib.Logic.Function.Basic

/-!
# `Lib.Barrier` — members that meet at barriers

A group of members meets at one barrier after another. A member arrives at its next barrier, may go on with
work that does not depend on the others, and passes the barrier once everyone has arrived at it. However the
members take turns, no one is more than one barrier ahead, and a member that has been overtaken has arrived
(`InStep`, with a rule for each of the two steps).

Nothing here depends on what the members do in between.
-/

namespace Lib

/-- How many barriers a member has passed, and whether it has arrived at the next one. -/
structure BarrierPos where
  passed : ℕ
  arrived : Bool
deriving DecidableEq, Repr

namespace BarrierPos

/-- How many barriers the member has arrived at. -/
def arrivals (p : BarrierPos) : ℕ := p.passed + p.arrived.toNat

def arrive (p : BarrierPos) : BarrierPos := { p with arrived := true }

def pass (p : BarrierPos) : BarrierPos := ⟨p.passed + 1, false⟩

theorem arrivals_le_succ (p : BarrierPos) : p.arrivals ≤ p.passed + 1 :=
  Nat.add_le_add_left p.arrived.toNat_le _

theorem arrivals_le_arrive (p : BarrierPos) : p.arrivals ≤ p.arrive.arrivals :=
  Nat.add_le_add_left p.arrived.toNat_le _

end BarrierPos

variable {n i : ℕ} {members : ℕ → BarrierPos}

/-- The next barrier lets member `i` of `n` pass: it has arrived there, and so has everyone. -/
def Opens (n : ℕ) (members : ℕ → BarrierPos) (i : ℕ) : Prop :=
  (members i).arrived = true ∧ ∀ j < n, (members i).passed < (members j).arrivals

instance : Decidable (Opens n members i) := inferInstanceAs (Decidable (_ ∧ _))

/-- Whatever a member has passed, everyone has arrived at. -/
def InStep (n : ℕ) (members : ℕ → BarrierPos) : Prop :=
  ∀ i < n, ∀ j < n, (members i).passed ≤ (members j).arrivals

theorem inStep_start (h : ∀ i < n, (members i).passed = 0) : InStep n members := by
  intro i hi j _
  rw [h i hi]
  exact Nat.zero_le _

/-- The rule for a member whose arrivals only grow and that passes no barrier that is not open to it. -/
theorem InStep.update (h : InStep n members) {p : BarrierPos} (hgrows : (members i).arrivals ≤ p.arrivals)
    (hpassed : ∀ j < n, p.passed ≤ (members j).arrivals) : InStep n (Function.update members i p) := by
  intro a ha b hb
  by_cases hai : a = i
  · subst hai
    rw [Function.update_self]
    by_cases hbi : b = a
    · subst hbi
      rw [Function.update_self]
      exact Nat.le_trans (hpassed b hb) hgrows
    · rw [Function.update_of_ne hbi]
      exact hpassed b hb
  · rw [Function.update_of_ne hai]
    by_cases hbi : b = i
    · subst hbi
      rw [Function.update_self]
      exact Nat.le_trans (h a ha b hb) hgrows
    · rw [Function.update_of_ne hbi]
      exact h a ha b hb

/-- **Arriving** keeps the members in step. -/
theorem InStep.arrive (h : InStep n members) (hi : i < n) :
    InStep n (Function.update members i (members i).arrive) :=
  h.update (members i).arrivals_le_arrive fun j hj => h i hi j hj

/-- **Passing** an open barrier keeps the members in step. -/
theorem InStep.pass (h : InStep n members) (hopen : Opens n members i) :
    InStep n (Function.update members i (members i).pass) :=
  h.update (members i).arrivals_le_succ fun j hj => hopen.2 j hj

end Lib
