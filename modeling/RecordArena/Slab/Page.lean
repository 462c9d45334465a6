import RecordArena.Rows
import RecordArena.Text.Dump

/-!
# Pages

A page is a block of record slots with a count of its live records. The count follows the calls,
not the flags: occupying a slot always raises it, even when the slot is occupied already or lies
past the end of the page.
-/

namespace RecordArena

structure Page where
  index : UInt32
  live : Nat
  /-- The slots; a payload is a record. -/
  rows : Rows

namespace Page

def allocate (backing : Backing) (index : UInt32) (slots recordSize : Nat) : Traced Page := do
  pure ⟨index, 0, ← Rows.allocate backing slots recordSize⟩

/-- Counts one more live record and marks `slot` as occupied. -/
def occupy (page : Page) (slot : Nat) : Page :=
  { page with live := page.live + 1, rows := page.rows.occupy slot }

/-- Counts one live record less and marks `slot` as vacant. -/
def vacate (page : Page) (slot : Nat) : Page :=
  { page with live := page.live - 1, rows := page.rows.vacate slot }

def clear (page : Page) : Page := { page with live := 0, rows := page.rows.clear }

/-- The record in `slot`, occupied or not. -/
def record (page : Page) (slot : Nat) : Except Fault Bytes :=
  if slot < page.rows.count then .ok (page.rows.payload slot) else .error .outOfRange

def isOccupied (page : Page) (slot : Nat) : Except Fault Bool :=
  if slot < page.rows.count then .ok (page.rows.isOccupied slot) else .error .outOfRange

/-- Whether `src` fits the front of a record in `slot`. -/
def accepts (page : Page) (slot : Nat) (src : Bytes) : Bool :=
  slot < page.rows.count && src.size ≤ page.rows.width

/-- Replaces the front of the record in `slot` by `src`. -/
def write (page : Page) (slot : Nat) (src : Bytes) : Page :=
  { page with rows := page.rows.setPayload slot src }

def dump (page : Page) : Text.Dump :=
  ⟨"SlabPage", [("index", .atom (toString page.index)), ("live", .atom (toString page.live))]⟩

end Page

end RecordArena
