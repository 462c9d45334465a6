import RecordArena.Slab.Addressing
import RecordArena.Slab.Page

/-!
# Page tables

A page table holds all pages of a slab and a first-in first-out queue of pages that are free to be
filled. Asking for a page when the queue is empty allocates a new one. The table reserves room for
pages and doubles the room when it is full; pages never move to another number.

## Main definitions

* `PageTable.generate`, `PageTable.nextFree` – new pages and pages to fill.
* `PageTable.release` – queueing an empty page, zeroed first under the reset policy.
* `PageTable.occupy`, `PageTable.vacate`, `PageTable.record`, `PageTable.write` – slots of a page.
-/

namespace RecordArena

/-- The pages of a slab and the queue of free ones. -/
structure PageTable where
  pages : Array Page
  /-- Free pages, the next one to fill first. -/
  free : Array UInt32
  /-- The number of pages there is room for. -/
  reserved : Nat
  slots : Nat
  recordSize : Nat
  /-- Whether a page is zeroed when it is queued. -/
  resetOnFree : Bool
  backing : Backing

namespace PageTable

/-- Bytes that the table itself needs per page. -/
def entryBytes : Nat := 32

/-- A table without pages and with room for `initial` pages, one at least. -/
def empty (initial slots recordSize : Nat) (resetOnFree : Bool) (backing : Backing) :
    Except Fault PageTable :=
  let reserved := max initial 1
  if reserved * entryBytes ≤ Backing.heapLimit then
    .ok { pages := #[], free := #[], reserved, slots, recordSize, resetOnFree, backing }
  else .error (.unallocatable (reserved * entryBytes))

/-- Makes room for one more page, doubling the table when it is full. -/
def reserve (t : PageTable) : Traced PageTable :=
  if t.pages.size = t.reserved then do
    let reserved := t.pages.size + max t.pages.size 1
    Traced.emit (.pageTableGrown t.pages.size reserved)
    pure { t with reserved }
  else pure t

/-- Allocates one more page without queueing it. Page numbers have 32 bits. -/
def addPage (t : PageTable) : Traced (UInt32 × PageTable) := do
  let t ← t.reserve
  let index := UInt32.ofNat t.pages.size
  let page ← Page.allocate t.backing index t.slots t.recordSize
  Traced.emit (.pageGenerated index)
  pure (index, { t with pages := t.pages.push page })

/-- Allocates one more page and queues it. -/
def generate (t : PageTable) : Traced (UInt32 × PageTable) := do
  let (index, t) ← t.addPage
  pure (index, { t with free := t.free.push index })

def generateMany : Nat → PageTable → Traced PageTable
  | 0, t => pure t
  | n + 1, t => do
    let (_, t) ← t.generate
    generateMany n t

/-- A table with `initial` free pages. -/
def new (initial slots recordSize : Nat) (resetOnFree : Bool) (backing : Backing) :
    Traced PageTable := do
  generateMany initial (← empty initial slots recordSize resetOnFree backing)

/-- Takes the next page to fill from the queue, or a new page when none is free. -/
def nextFree (t : PageTable) : Traced (UInt32 × PageTable) :=
  match t.free[0]? with
  | some index => pure (index, { t with free := t.free.extract 1 t.free.size })
  | none => t.addPage

def contains (t : PageTable) (p : UInt32) : Bool := p.toNat < t.pages.size

def page (t : PageTable) (p : UInt32) : Except Fault Page :=
  if h : p.toNat < t.pages.size then .ok t.pages[p.toNat] else .error (.missingPage p)

def modify (t : PageTable) (p : UInt32) (change : Page → Page) : Except Fault PageTable :=
  if t.contains p then .ok { t with pages := t.pages.modify p.toNat change }
  else .error (.missingPage p)

def clear (t : PageTable) (p : UInt32) : Except Fault PageTable := t.modify p Page.clear

/-- Queues an empty page for reuse, zeroed first under the reset policy. -/
def release (t : PageTable) (p : UInt32) : Traced PageTable := do
  let t ← if t.resetOnFree then t.clear p else t.modify p id
  Traced.emit (.pageRecycled (← t.page p).index)
  pure { t with free := t.free.push p }

/-- The record at a place, occupied or not. -/
def record (t : PageTable) (place : Place) : Except Fault Bytes := do
  (← t.page place.page).record place.slot

def isOccupied (t : PageTable) (place : Place) : Except Fault Bool := do
  (← t.page place.page).isOccupied place.slot

/-- Occupies a place; the page counts one more live record whatever the slot. -/
def occupy (t : PageTable) (place : Place) : Except Fault PageTable :=
  t.modify place.page (·.occupy place.slot)

/-- Replaces the front of the record at a place by `src`, which has to fit. -/
def write (t : PageTable) (place : Place) (src : Bytes) : Except Fault PageTable := do
  if (← t.page place.page).accepts place.slot src then
    t.modify place.page (·.write place.slot src)
  else .error .outOfRange

/-- Vacates a place. The answer is the number of records that stay live in the page, or nothing
when the place was vacant already. -/
def vacate (t : PageTable) (place : Place) : Except Fault (Option Nat × PageTable) := do
  if ← t.isOccupied place then
    let t ← t.modify place.page (·.vacate place.slot)
    pure (some (← t.page place.page).live, t)
  else pure (none, t)

end PageTable

end RecordArena
