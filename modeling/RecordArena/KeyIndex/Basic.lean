import RecordArena.KeyIndex.Cells
import RecordArena.Probing.Table
import RecordArena.Slab.Basic

/-!
# Key indexes

A key index finds slab records by key. It stores nothing but slab indices: keys and hashes are
read again from the records whenever they are needed, so every operation takes the slab, which has
to be the same one each time. An index belongs into the table only while its record's key does not
change.

## Main definitions

* `KeyIndex.insert` – registering a record.
* `KeyIndex.find`, `KeyIndex.findHashed`, `KeyIndex.findRecord` – looking a key up.
* `KeyIndex.removeKey`, `KeyIndex.removeKeyHashed`, `KeyIndex.removeKeyOf` – by key.
* `KeyIndex.removeIndex`, `KeyIndex.removeIndexAs` – by index.
-/

namespace RecordArena

/-- A table of slab indices ordered by the keys of their records. -/
structure KeyIndex where
  table : Table Cells

namespace KeyIndex

def new (config : TableConfig) : Except Error KeyIndex := do
  pure ⟨Table.ofSlots (Cells.vacant (← config.capacity)) config.loadFactor⟩

def len (x : KeyIndex) : Nat := x.table.count

def isEmpty (x : KeyIndex) : Bool := x.len == 0

def capacity (x : KeyIndex) : Nat := x.table.capacity

/-- Registers a record, whose key has to be written already. An index that is registered already
changes nothing. -/
def insert (x : KeyIndex) (slab : Slab) (index : UInt32) : Traced KeyIndex := do
  match ← x.table.locate (← slab.keyHash index) (fun e => pure (e == index)) with
  | .found _ _ => pure x
  | .vacant slot =>
    let fresh := fun capacity => pure (Cells.vacant capacity)
    pure ⟨← (x.table.add slot index).settle slab.keyHash fresh .indexRehashed⟩

/-- The slot and index of a record with the given key, probing from `hash`. -/
def locateKey (x : KeyIndex) (slab : Slab) (key : Bytes) (hash : Int32) :
    Except Fault (Option (Nat × UInt32)) :=
  ProbeEnd.found? <$> x.table.locate hash (fun e => slab.hasKey e key)

/-- The slot and index of a registered index, probing from `hash`. -/
def locateIndex (x : KeyIndex) (index : UInt32) (hash : Int32) :
    Except Fault (Option (Nat × UInt32)) :=
  ProbeEnd.found? <$> x.table.locate hash (fun e => pure (e == index))

def findHashed (x : KeyIndex) (slab : Slab) (key : Bytes) (hash : Int32) :
    Except Fault (Option UInt32) :=
  Option.map Prod.snd <$> x.locateKey slab key hash

/-- The index of a record with the given key, which spans the full key width. -/
def find (x : KeyIndex) (slab : Slab) (key : Bytes) : Except Fault (Option UInt32) :=
  x.findHashed slab key (slab.layout.hashKey key)

/-- The index of a record with the same key as the given view. -/
def findRecord (x : KeyIndex) (slab : Slab) (view : Bytes) : Except Fault (Option UInt32) := do
  match ← slab.layout.key? view with
  | some key => x.find slab key
  | none => pure none

def takeFound (x : KeyIndex) (slab : Slab) :
    (found : Option (Nat × UInt32)) → Except Fault (Option UInt32 × KeyIndex)
  | none => pure (none, x)
  | some (slot, index) => do pure (some index, ⟨← x.table.take slab.keyHash slot⟩)

/-- Removes a record with the given key, whose hash is known, and answers its index. -/
def removeKeyHashed (x : KeyIndex) (slab : Slab) (key : Bytes) (hash : Int32) :
    Except Fault (Option UInt32 × KeyIndex) := do
  x.takeFound slab (← x.locateKey slab key hash)

def removeKey (x : KeyIndex) (slab : Slab) (key : Bytes) :
    Except Fault (Option UInt32 × KeyIndex) :=
  x.removeKeyHashed slab key (slab.layout.hashKey key)

/-- Removes a record with the same key as the given view and answers its index. -/
def removeKeyOf (x : KeyIndex) (slab : Slab) (view : Bytes) :
    Except Fault (Option UInt32 × KeyIndex) := do
  match ← slab.layout.key? view with
  | some key => x.removeKey slab key
  | none => pure (none, x)

/-- Removes an index, probing from `hash`, and answers whether it was registered. -/
def removeIndexHashed (x : KeyIndex) (slab : Slab) (index : UInt32) (hash : Int32) :
    Except Fault (Bool × KeyIndex) := do
  let (removed, x) ← x.takeFound slab (← x.locateIndex index hash)
  pure (removed.isSome, x)

/-- Removes an index, probing from the key that its record has now. -/
def removeIndex (x : KeyIndex) (slab : Slab) (index : UInt32) :
    Except Fault (Bool × KeyIndex) := do
  x.removeIndexHashed slab index (← slab.keyHash index)

/-- Removes an index, probing from the key of `view`. This serves when the view is a copy of what
was registered and the record has been written since. -/
def removeIndexAs (x : KeyIndex) (slab : Slab) (index : UInt32) (view : Bytes) :
    Except Fault (Bool × KeyIndex) := do
  match ← slab.layout.key? view with
  | some key => x.removeIndexHashed slab index (slab.layout.hashKey key)
  | none => pure (false, x)

/-- The dump of an index: every slot as a signed number, so a vacant slot is `-1`. -/
def dump (x : KeyIndex) : Text.Dump :=
  let entries := x.table.slots.words.toList.map fun word => toString word.toInt32
  ⟨"SlabKeyStore", [("len", .atom (toString x.len)), ("capacity", .atom (toString x.capacity)),
    ("entries", .list entries)]⟩

end KeyIndex

end RecordArena
