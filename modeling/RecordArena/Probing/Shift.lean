import RecordArena.Numeric.PowerOfTwo
import RecordArena.Probing.Path
import RecordArena.Probing.Slots

/-!
# Backward shift

Deleting an entry leaves a hole that would hide later entries of the same cluster. A backward
shift walks on from the hole and pulls back every entry whose probe path passes the hole; the
entry's old slot is the next hole. The walk ends at the first vacant slot.

Every move brings an entry nearer to its home, and between two moves a walk sees each slot at most
once. With `n` slots there are at most `n * (n - 1)` moves and hence at most `n ^ 3` steps.
-/

namespace RecordArena.Slots

open scoped Numeric

variable {τ ε : Type} [Slots τ ε]

/-- Walks on from `slot` with a hole at `hole`, for at most the given number of slots. -/
def shiftFrom (home : ε → Except Fault Nat) :
    (steps : Nat) → (t : τ) → (hole slot : Nat) → Except Fault τ
  | 0, _, _, _ => .error .endless
  | steps + 1, t, hole, slot => do
    let slot := next t slot
    match ← fetch t slot with
    | none => pure t
    | some e =>
      let start := UInt64.ofNat (← home e)
      let mask := UInt64.ofNat (capacity t - 1)
      if inProbeRange start (UInt64.ofNat hole) (UInt64.ofNat slot) mask then
        shiftFrom home steps (relocate t slot hole e) slot slot
      else shiftFrom home steps t hole slot

/-- Closes the vacant slot `hole`. -/
def backwardShift (t : τ) (home : ε → Except Fault Nat) (hole : Nat) : Except Fault τ :=
  shiftFrom home (capacity t ^ (3 : Nat)) t hole hole

/-- Removes the entry in a slot of the table and closes the hole. -/
def delete (t : τ) (home : ε → Except Fault Nat) (slot : Nat) : Except Fault τ := do
  backwardShift (← evict t slot) home slot

end RecordArena.Slots
