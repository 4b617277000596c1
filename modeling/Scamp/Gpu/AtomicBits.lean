import Scamp.Lib.Binary32

/-!
# `Gpu.AtomicBits` — the atomic operations on the bits of an entry

`kernel_gpu_utils.h`: `fAtomicMax`, which takes a maximum of floats with an integer maximum or minimum of
their bits, and `MPatomicMax`, which replaces an entry with its index by compare-and-swap until it has taken
place or is not called for. `Gpu.Atomics` has what they make of an entry in exact arithmetic; here the entry
is the word in memory.

The calls of `MPatomicMax` on one entry are agents that take turns. A turn is one access to the entry, with
what a call does on its own up to the next one.
-/

namespace Scamp

namespace AtomicBits

open Lib.Binary32

/-! ## Integer operations -/

/-- `do_atomicMax` on an `int`: what the cell holds then, and what is returned. -/
def doAtomicMax (cell other : BitVec 32) : BitVec 32 × BitVec 32 :=
  (if cell.toInt < other.toInt then other else cell, cell)

/-- `do_atomicMin` on an `unsigned int`. -/
def doAtomicMin (cell other : BitVec 32) : BitVec 32 × BitVec 32 :=
  (if other.toNat < cell.toNat then other else cell, cell)

/-- `do_atomicCAS` on an `unsigned long long`. -/
def doAtomicCas (cell v1 v2 : BitVec 64) : BitVec 64 × BitVec 64 := (if cell = v1 then v2 else cell, cell)

/-! ## Floats -/

/-- `fAtomicMax`. -/
def fAtomicMax (cell value : BitVec 32) : BitVec 32 × BitVec 32 :=
  if ge value 0#32 then doAtomicMax cell value else doAtomicMin cell value

/-- `fAtomicMax_check`. -/
def fAtomicMaxCheck (cell value check : BitVec 32) : BitVec 32 × BitVec 32 :=
  if lt value check then (cell, check) else fAtomicMax cell value

/-- Updates of one cell, one after the other. -/
def fAtomicMaxRun (cell : BitVec 32) (updates : List (BitVec 32)) : BitVec 32 :=
  updates.foldl (fun cell value => (fAtomicMax cell value).1) cell

/-! ## Entries with an index -/

/-- `mp_entry`, as the word `ulong`. -/
abbrev MpWord := BitVec 64

/-- `floats[0]`. -/
def MpWord.float0 (e : MpWord) : BitVec 32 := e.extractLsb' 0 32

/-- `ints[1]`. -/
def MpWord.int1 (e : MpWord) : BitVec 32 := e.extractLsb' 32 32

/-- The entry with the two fields written. -/
def MpWord.of (float0 int1 : BitVec 32) : MpWord := int1 ++ float0

/-- A call of `MPatomicMax`, or of `MPatomicMax_check` when `check` is set. -/
structure Call where
  val : BitVec 32
  idx : BitVec 32
  check : Bool

/-- `loc`. -/
def Call.loc (c : Call) : MpWord := .of c.val c.idx

/-- Where a call is. -/
inductive Pc
  /-- Before the check. -/
  | called
  /-- Before the first read of the entry. -/
  | entered
  /-- Before the test of the loop. -/
  | looping (loctest : MpWord)
  | returned
deriving DecidableEq

/-- An entry and the calls on it. `history` has the words the entry has held, the latest first, and
    `attempts` counts the swaps each call has tried. -/
structure State (ι : Type) where
  entry : MpWord
  pc : ι → Pc
  history : List MpWord
  attempts : ι → ℕ

def start {ι : Type} (entry : MpWord) : State ι := ⟨entry, fun _ => .called, [entry], fun _ => 0⟩

section
variable {ι : Type} [DecidableEq ι]

/-- The rest of the state when only a call has moved on. -/
def State.setPc (s : State ι) (i : ι) (pc : Pc) : State ι := { s with pc := Function.update s.pc i pc }

/-- A compare-and-swap of call `i`. -/
def State.swap (s : State ι) (i : ι) (loctest loc : MpWord) : State ι :=
  let swapped := doAtomicCas s.entry loctest loc
  { entry := swapped.1
    pc := Function.update s.pc i (.looping swapped.2)
    history := if s.entry = loctest then loc :: s.history else s.history
    attempts := Function.update s.attempts i (s.attempts i + 1) }

/-- The turn of call `i`. For `MPatomicMax_check`, `curr` is the entry at the time its value was read. -/
def turn (calls : ι → Call) (s : State ι) (t : ι × MpWord) : Option (State ι) :=
  let i := t.1
  let c := calls i
  match s.pc i with
  | .called =>
      if c.check then
        if t.2 ∈ s.history then
          some (s.setPc i (if lt t.2.float0 c.val then .entered else .returned))
        else none
      else some (s.setPc i .entered)
  | .entered => some (s.setPc i (.looping s.entry))
  | .looping loctest =>
      if lt loctest.float0 c.val then some (s.swap i loctest c.loc) else some (s.setPc i .returned)
  | .returned => none

/-- A schedule of turns. -/
def run (calls : ι → Call) (s : State ι) (turns : List (ι × MpWord)) : Option (State ι) :=
  turns.foldlM (turn calls) s

end

end AtomicBits

end Scamp
