import RecordArena.Probing.Slots

/-!
# Linear probing

A probe starts at a slot and walks forward until it meets an entry it looks for or a vacant slot.
After as many steps as there are slots it has seen them all: a table without either would be
walked for ever, which is a fault.
-/

namespace RecordArena

inductive ProbeEnd (ε : Type) where
  /-- At an entry that was looked for. -/
  | found (slot : Nat) (entry : ε)
  | vacant (slot : Nat)
  deriving Repr

def ProbeEnd.slot {ε : Type} : ProbeEnd ε → Nat
  | found slot _ => slot
  | vacant slot => slot

def ProbeEnd.found? {ε : Type} : ProbeEnd ε → Option (Nat × ε)
  | found slot entry => some (slot, entry)
  | vacant _ => none

namespace Slots

variable {τ ε : Type} [Slots τ ε]

/-- Walks forward from `slot`, for at most the given number of slots. -/
def probeFrom (t : τ) (isMatch : ε → Except Fault Bool) :
    (steps : Nat) → (slot : Nat) → Except Fault (ProbeEnd ε)
  | 0, _ => .error .endless
  | steps + 1, slot => do
    match ← fetch t slot with
    | none => pure (.vacant slot)
    | some e =>
      if ← isMatch e then pure (.found slot e) else probeFrom t isMatch steps (next t slot)

/-- Walks forward from `home` to the first match or vacant slot. -/
def probe (t : τ) (isMatch : ε → Except Fault Bool) (home : Nat) : Except Fault (ProbeEnd ε) :=
  probeFrom t isMatch (capacity t) home

def firstVacant (t : τ) (home : Nat) : Except Fault Nat :=
  ProbeEnd.slot <$> probe t (fun _ => pure false) home

/-- Whether a walk from `slot` meets `target` before any vacant slot, within the given number of
slots. -/
def reachesFrom (t : τ) (target : Nat) : (steps : Nat) → (slot : Nat) → Except Fault Bool
  | 0, _ => .error .endless
  | steps + 1, slot =>
    if slot = target then pure true
    else do
      match ← fetch t slot with
      | none => pure false
      | some _ => reachesFrom t target steps (next t slot)

/-- Whether all entries among the given slots are reachable from their homes; the first one that
is not decides. -/
def reachableAt (t : τ) (home : ε → Except Fault Nat) : (slots : List Nat) → Except Fault Bool
  | [] => pure true
  | slot :: rest => do
    match ← fetch t slot with
    | none => reachableAt t home rest
    | some e =>
      if ← reachesFrom t slot (capacity t) (← home e) then reachableAt t home rest
      else pure false

/-- Whether every entry is reachable from its home without crossing a vacant slot. -/
def allReachable (t : τ) (home : ε → Except Fault Nat) : Except Fault Bool :=
  reachableAt t home (List.range (capacity t))

end Slots

end RecordArena
