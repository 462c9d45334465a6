import RecordArena.Bytes.Compare
import RecordArena.Bytes.FixedWidth
import RecordArena.InlineMap.Rows
import RecordArena.Probing.Table
import RecordArena.Record.Layout
import RecordArena.Text.Dump

/-!
# Inline maps

An inline map takes fixed-width keys to fixed-width integers. A row of its block holds a key
followed by a value, so nothing is allocated per entry.

## Main definitions

* `InlineMap.put`, `InlineMap.get`, `InlineMap.remove` – by bare key.
* `InlineMap.putRecord`, `InlineMap.getRecord`, `InlineMap.removeRecord` – by the key of a record.
* `InlineMap.hasKey`, `InlineMap.hasValue`, `InlineMap.clear`.
-/

namespace RecordArena

/-- A map from the keys of a record layout to values of type `V`. -/
structure InlineMap (V : Type) where
  layout : RecordLayout
  backing : Backing
  table : Table Rows

namespace InlineMap

variable {V : Type} [FixedWidth V]

/-- The width of a payload: a key and a value. -/
def payloadWidth (V : Type) [FixedWidth V] (layout : RecordLayout) : Nat :=
  layout.keyLen + FixedWidth.width V

def payload (key : Bytes) (value : V) : Bytes := key ++ FixedWidth.encode value

def keyOf (layout : RecordLayout) (payload : Bytes) : Bytes := payload.extract 0 layout.keyLen

def valueOf (layout : RecordLayout) (payload : Bytes) : V :=
  FixedWidth.decode (payload.extract layout.keyLen payload.size)

def hashOf (layout : RecordLayout) (payload : Bytes) : Except Fault Int32 :=
  pure (layout.hashKey (keyOf layout payload))

/-- An empty map. The layout is checked before the table. -/
def new (V : Type) [FixedWidth V] (layout : RecordLayout) (config : TableConfig)
    (backing : Backing) : Traced (InlineMap V) := do
  layout.validate
  let capacity ← config.capacity
  Traced.emit (.mapCreated layout.keyLen (FixedWidth.width V) capacity config.loadFactor)
  let rows ← Rows.allocate backing capacity (payloadWidth V layout)
  pure { layout, backing, table := Table.ofSlots rows config.loadFactor }

def len (m : InlineMap V) : Nat := m.table.count

def isEmpty (m : InlineMap V) : Bool := m.len == 0

def capacity (m : InlineMap V) : Nat := m.table.capacity

/-- Refuses keys of the wrong width; a longer key is named an excess of capacity. -/
def checkKey (m : InlineMap V) (key : Bytes) : Except Error Unit :=
  if m.layout.keyLen < key.size then .error (.capacity key.size m.layout.keyLen)
  else if key.size < m.layout.keyLen then .error (.keyWidth m.layout.keyLen key.size)
  else .ok ()

def locate (m : InlineMap V) (key : Bytes) : Except Fault (ProbeEnd Bytes) :=
  m.table.locate (m.layout.hashKey key) (fun p => pure ((keyOf m.layout p).sameKey key))

/-- The slot and payload of a key; a key of the wrong width has none. -/
def locate? (m : InlineMap V) (key : Bytes) : Except Fault (Option (Nat × Bytes)) :=
  if key.size = m.layout.keyLen then ProbeEnd.found? <$> m.locate key else pure none

/-- Inserts or overwrites, and answers the previous value. -/
def put (m : InlineMap V) (key : Bytes) (value : V) : Traced (Option V × InlineMap V) := do
  m.checkKey key
  match ← m.locate key with
  | .found slot old =>
    let slots := Slots.store m.table.slots slot (payload key value)
    pure (some (valueOf m.layout old), { m with table := { m.table with slots } })
  | .vacant slot =>
    let fresh := fun capacity => Rows.allocate m.backing capacity (payloadWidth V m.layout)
    let added := m.table.add slot (payload key value)
    pure (none, { m with table := ← added.settle (hashOf m.layout) fresh .mapRehashed })

def get (m : InlineMap V) (key : Bytes) : Except Fault (Option V) := do
  pure ((← m.locate? key).map fun (_, p) => valueOf m.layout p)

def hasKey (m : InlineMap V) (key : Bytes) : Except Fault Bool := Option.isSome <$> m.get key

def hasValue [DecidableEq V] (m : InlineMap V) (value : V) : Bool :=
  (Slots.entries m.table.slots).any fun p => decide (valueOf m.layout p = value)

def remove (m : InlineMap V) (key : Bytes) : Except Fault (Option V × InlineMap V) := do
  match ← m.locate? key with
  | none => pure (none, m)
  | some (slot, p) =>
    pure (some (valueOf m.layout p), { m with table := ← m.table.take (hashOf m.layout) slot })

/-- Removes every key. The capacity stays. -/
def clear (m : InlineMap V) : InlineMap V :=
  { m with table := { m.table with slots := m.table.slots.clear, count := 0 } }

/-- Inserts or overwrites by the key of a record; a view too short for a record is refused. -/
def putRecord (m : InlineMap V) (view : Bytes) (value : V) : Traced (Option V × InlineMap V) := do
  m.put (← m.layout.checkedKey view) value

/-- The value of the key of a record; a view too short for a record has none. -/
def getRecord (m : InlineMap V) (view : Bytes) : Except Fault (Option V) := do
  match ← m.layout.key? view with
  | some key => m.get key
  | none => pure none

/-- Removes the key of a record; a view too short for a record has none. -/
def removeRecord (m : InlineMap V) (view : Bytes) : Except Fault (Option V × InlineMap V) := do
  match ← m.layout.key? view with
  | some key => m.remove key
  | none => pure (none, m)

def slots (m : InlineMap V) : List (Option (Bytes × V)) :=
  (Slots.toList m.table.slots).map fun p? =>
    p?.map fun p => (keyOf m.layout p, valueOf m.layout p)

/-- The dump of a map: its size, not its entries. -/
def dump (m : InlineMap V) : Text.Dump :=
  ⟨"OffHeapMap", [("len", .atom (toString m.len)), ("capacity", .atom (toString m.capacity)),
    ("key_len", .atom (toString m.layout.keyLen))]⟩

end InlineMap

end RecordArena
