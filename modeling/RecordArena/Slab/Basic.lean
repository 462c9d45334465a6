import RecordArena.Bytes.Compare
import RecordArena.Numeric.PowerOfTwo
import RecordArena.Record.Layout
import RecordArena.Slab.Cursor

/-!
# Slabs

A slab stores fixed-size records in pages and names each by a 32-bit index. An index means
something only from the `create` that returned it to the `free` that ends it; nothing detects
later use. Records are created one after the other through a cursor, and emptied pages are filled
again before new ones are allocated.

## Main definitions

* `Slab.new`, `Slab.create`, `Slab.free` – the life of records.
* `Slab.record`, `Slab.write` – the bytes of a record, by index.
* `Slab.recordAt`, `Slab.writeAt` – the bytes of a record, by place.
* `Slab.isLive`, `Slab.keyHash`, `Slab.hasKey` – questions about an index.
-/

namespace RecordArena

structure SlabConfig where
  /-- Slots per page; rounded up to a power of two. -/
  pageSize : Nat := 256
  initialPages : Nat := 4
  /-- Whether a page is zeroed before it is filled again. -/
  resetOnFree : Bool := true
  deriving DecidableEq, Repr

/-- Paged storage of fixed-size records. -/
structure Slab where
  layout : RecordLayout
  pages : PageTable
  cursor : Cursor
  addressing : Addressing
  live : Nat

/-- A record that was created: its index, and the place that was occupied for it. -/
structure Created where
  index : UInt32
  place : Place
  deriving DecidableEq, Repr

namespace Slab

/-- The checked number of slots per page. -/
def pageSlots (config : SlabConfig) : Except Error Nat :=
  if config.pageSize = 0 ∨ maxPageSlots < config.pageSize then
    .error (.configuration (.pageSize config.pageSize))
  else .ok (Numeric.ceilPowerOfTwo config.pageSize)

/-- An empty slab. The layout is checked before the page size. -/
def new (layout : RecordLayout) (config : SlabConfig) (backing : Backing) : Traced Slab := do
  layout.validate
  let slots ← pageSlots config
  let pages ← PageTable.new config.initialPages slots layout.size config.resetOnFree backing
  let (cursor, pages) ← Cursor.attach pages
  Traced.emit (.slabCreated layout.size slots config.initialPages config.resetOnFree)
  pure { layout, pages, cursor, addressing := Addressing.ofSlots slots, live := 0 }

/-- Creates a record in the slot under the cursor. It holds what the slot held last, which is
zeros when its page was reset. -/
def create (s : Slab) : Traced (Created × Slab) := do
  let created : Created := ⟨s.cursor.index, s.cursor.place⟩
  let pages ← s.pages.occupy created.place
  let (cursor, pages) ← s.cursor.advance pages
  pure (created, { s with pages, cursor, live := s.live + 1 })

def place (s : Slab) (index : UInt32) : Place := s.addressing.decode index

def recordAt (s : Slab) (place : Place) : Except Fault Bytes := s.pages.record place

/-- Replaces the front of the record at a place, live or not. -/
def writeAt (s : Slab) (place : Place) (src : Bytes) : Except Fault Slab := do
  pure { s with pages := ← s.pages.write place src }

/-- The record at an index, live or not. -/
def record (s : Slab) (index : UInt32) : Except Fault Bytes := s.recordAt (s.place index)

/-- Replaces the front of the record at an index, live or not. -/
def write (s : Slab) (index : UInt32) (src : Bytes) : Except Fault Slab :=
  s.writeAt (s.place index) src

/-- Ends the record at an index; without a record there nothing happens. A page whose last record
ends is queued for reuse, unless the cursor is still filling it. -/
def free (s : Slab) (index : UInt32) : Traced Slab := do
  let place := s.place index
  match ← s.pages.vacate place with
  | (none, pages) => pure { s with pages }
  | (some remaining, pages) =>
    let pages ←
      if remaining = 0 ∧ place.page ≠ s.cursor.place.page then pages.release place.page
      else pure pages
    pure { s with pages, live := s.live - 1 }

/-- Whether an index holds a record; an index of no page does not. -/
def isLive (s : Slab) (index : UInt32) : Except Fault Bool :=
  if s.pages.contains (s.place index).page then s.pages.isOccupied (s.place index) else pure false

def keyHash (s : Slab) (index : UInt32) : Except Fault Int32 := do
  s.layout.keyHash (← s.record index)

def hasKey (s : Slab) (index : UInt32) (key : Bytes) : Except Fault Bool := do
  pure ((← s.layout.key (← s.record index)).sameKey key)

/-- The index of the next record to be created. -/
def cursorIndex (s : Slab) : UInt32 := s.cursor.index

def pageCapacity (s : Slab) : Nat := s.addressing.slots

def pageCount (s : Slab) : Nat := s.pages.pages.size

def freePageCount (s : Slab) : Nat := s.pages.free.size

def isEmpty (s : Slab) : Bool := s.live == 0

end Slab

end RecordArena
