import RecordArena.InPlace.Basic
import RecordArena.InlineMap.Basic
import RecordArena.KeyIndex.Basic

/-!
# Tables in place

An entry is stored before the table grows, and removed before the hole it leaves is closed. Closing
the hole and growing read hashes of other entries, at a time when the table is changed already.

## Main definitions

* `InPlace.settle`, `InPlace.take` – growing a table, and removing an entry.
* `InPlace.put`, `InPlace.putRecord` – the changes of an inline map that may be refused.
* `InPlace.insert`, `InPlace.removeIndex` – the changes of a key index that name a record.
-/

namespace RecordArena.InPlace

open scoped Numeric

section Tables

variable {τ ε : Type} [Slots τ ε]

/-- Walks on from `slot` with a hole at `hole`, and moves entries into it one by one. -/
def shiftFrom (home : ε → Except Fault Nat) : (steps hole slot : Nat) → InPlace τ Unit
  | 0, _, _ => (throw .endless : Except Fault Unit)
  | steps + 1, hole, slot => do
    let t ← look
    let slot := Slots.next t slot
    match ← Slots.fetch t slot with
    | none => pure ()
    | some e =>
      let start := UInt64.ofNat (← home e)
      let mask := UInt64.ofNat (Slots.capacity t - 1)
      if inProbeRange start (UInt64.ofNat hole) (UInt64.ofNat slot) mask then
        alter (Slots.relocate · slot hole e)
        shiftFrom home steps slot slot
      else shiftFrom home steps hole slot

/-- Changes the slots of a table. -/
def withinSlots {α : Type} (change : InPlace τ α) : InPlace (Table τ) α :=
  within Table.slots (fun slots t => { t with slots }) change

/-- Vacates a slot, counts one entry less and closes the hole. -/
def take (hash : ε → Except Fault Int32) (slot : Nat) : InPlace (Table τ) Unit := do
  let t ← look
  let evicted ← Slots.evict t.slots slot
  withinSlots (alter fun _ => evicted)
  alter fun t => { t with count := t.count - 1 }
  withinSlots
    (shiftFrom (fun e => homeSlot t.capacity <$> hash e) (t.capacity ^ (3 : Nat)) slot slot)

/-- Grows the table if it holds more entries than its limit allows. The larger table is made apart
and takes the place of the other when it is complete. -/
def settle (hash : ε → Except Fault Int32) (fresh : Nat → Traced τ)
    (report : (capacity len : Nat) → Event) : InPlace (Table τ) Unit := do
  let t ← look
  if t.limit < t.count then
    let grown ← t.rehash hash fresh report
    alter fun _ => grown

end Tables

/-- Stores an index where the probe for it ends, and then grows the table if it has to. -/
def insert (slab : Slab) (index : UInt32) : InPlace KeyIndex Unit := do
  let x ← look
  match ← x.table.locate (← slab.keyHash index) (fun e => pure (e == index)) with
  | .found _ _ => pure ()
  | .vacant slot =>
    within KeyIndex.table (fun table _ => ⟨table⟩) do
      alter (Table.add · slot index)
      settle slab.keyHash (fun capacity => pure (Cells.vacant capacity)) .indexRehashed

/-- Removes an index, probing from the key that its record has now, and answers whether it was
registered. -/
def removeIndex (slab : Slab) (index : UInt32) : InPlace KeyIndex Bool := do
  let x ← look
  match ← x.locateIndex index (← slab.keyHash index) with
  | none => pure false
  | some (slot, _) =>
    within KeyIndex.table (fun table _ => ⟨table⟩) (take slab.keyHash slot)
    pure true

section Maps

variable {V : Type} [FixedWidth V]

/-- Changes the table of a map. -/
def withinTable {α : Type} (change : InPlace (Table Rows) α) : InPlace (InlineMap V) α :=
  within InlineMap.table (fun table m => { m with table }) change

/-- Stores a value where the probe for its key ends, and then grows the table if it has to. Answers
the previous value. -/
def put (key : Bytes) (value : V) : InPlace (InlineMap V) (Option V) := do
  let m ← look
  m.checkKey key
  match ← m.locate key with
  | .found slot old =>
    withinTable (withinSlots (alter (Slots.store · slot (InlineMap.payload key value))))
    pure (some (InlineMap.valueOf m.layout old))
  | .vacant slot =>
    withinTable do
      alter (Table.add · slot (InlineMap.payload key value))
      settle (InlineMap.hashOf m.layout)
        (fun capacity => Rows.allocate m.backing capacity (InlineMap.payloadWidth V m.layout))
        .mapRehashed
    pure none

/-- Stores a value by the key of a record; a view too short for a record is refused. -/
def putRecord (view : Bytes) (value : V) : InPlace (InlineMap V) (Option V) := do
  let m ← look
  put (← m.layout.checkedKey view) value

end Maps

end RecordArena.InPlace
