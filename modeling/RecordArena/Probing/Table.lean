import RecordArena.Bytes.KeyHash
import RecordArena.Probing.Growth
import RecordArena.Probing.Shift
import RecordArena.Probing.Walk
import RecordArena.Traced

/-!
# Growing tables

A table counts its entries and moves them to a larger slot table when the count passes the limit
that the load factor sets. The hash of an entry is read again whenever the entry is moved; it may
come from elsewhere and so may fail.

## Main definitions

* `Table.locate` – probing from the home slot of a hash.
* `Table.add`, `Table.settle` – storing an entry and growing.
* `Table.take` – removing an entry and closing the hole.
-/

namespace RecordArena

/-- A slot table with its count of entries and its limit. -/
structure Table (τ : Type) where
  slots : τ
  count : Nat
  /-- The largest count before the table grows. -/
  limit : Nat
  loadFactor : Binary32

/-- The slot of a table of `capacity` slots, a power of two, where probes for `hash` start. -/
def homeSlot (capacity : Nat) (hash : Int32) : Nat :=
  (spread hash (UInt64.ofNat (capacity - 1))).toNat

namespace Table

variable {τ ε : Type} [Slots τ ε]

def ofSlots (slots : τ) (loadFactor : Binary32) : Table τ :=
  { slots, count := 0, limit := resizeLimit (Slots.capacity slots) loadFactor, loadFactor }

def capacity (t : Table τ) : Nat := Slots.capacity t.slots

def locate (t : Table τ) (hash : Int32) (isMatch : ε → Except Fault Bool) :
    Except Fault (ProbeEnd ε) :=
  Slots.probe t.slots isMatch (homeSlot t.capacity hash)

/-- Puts one entry more into the vacant slot `slot`. -/
def add (t : Table τ) (slot : Nat) (e : ε) : Table τ :=
  { t with slots := Slots.store t.slots slot e, count := t.count + 1 }

/-- Puts entries one after the other into the first vacant slots from their homes. -/
def refill (hash : ε → Except Fault Int32) : (slots : τ) → List ε → Except Fault τ
  | slots, [] => pure slots
  | slots, e :: rest => do
    let slot ← Slots.firstVacant slots (homeSlot (Slots.capacity slots) (← hash e))
    refill hash (Slots.store slots slot e) rest

/-- Moves all entries, in the order of their slots, to larger slots made by `fresh`. -/
def rehash (t : Table τ) (hash : ε → Except Fault Int32) (fresh : Nat → Traced τ)
    (report : (capacity len : Nat) → Event) : Traced (Table τ) := do
  let capacity := grownCapacity t.capacity t.count t.loadFactor
  let slots ← refill hash (← fresh capacity) (Slots.entries t.slots)
  Traced.emit (report capacity t.count)
  pure { t with slots, limit := resizeLimit capacity t.loadFactor }

/-- Grows the table if it holds more entries than its limit allows. -/
def settle (t : Table τ) (hash : ε → Except Fault Int32) (fresh : Nat → Traced τ)
    (report : (capacity len : Nat) → Event) : Traced (Table τ) :=
  if t.limit < t.count then t.rehash hash fresh report else pure t

/-- Removes the entry in `slot` and closes the hole. -/
def take (t : Table τ) (hash : ε → Except Fault Int32) (slot : Nat) : Except Fault (Table τ) := do
  let home := fun e => homeSlot t.capacity <$> hash e
  let slots ← Slots.delete t.slots home slot
  pure { t with slots, count := t.count - 1 }

end Table

end RecordArena
