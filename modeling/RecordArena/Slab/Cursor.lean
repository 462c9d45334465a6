import RecordArena.Slab.PageTable

/-!
# Cursors

A cursor is the write position of a slab: the page that is being filled and its next free slot.
Slots are handed out in order. When the page is exhausted the cursor takes the next page from the
free queue, so allocation never scans.
-/

namespace RecordArena

/-- The write position of a slab. -/
structure Cursor where
  place : Place
  slots : Nat
  shift : UInt32
  deriving DecidableEq, Repr

namespace Cursor

/-- A cursor on the first free page, which is generated if there is none. -/
def attach (t : PageTable) : Traced (Cursor × PageTable) := do
  let (page, t) ← t.nextFree
  pure (⟨⟨page, 0⟩, t.slots, UInt32.ofNat t.slots.log2⟩, t)

def index (c : Cursor) : UInt32 :=
  (c.place.page <<< c.shift) ||| UInt32.ofNat c.place.slot

/-- Steps to the next slot, and from the last slot of a page to the next free page. A page that
is left without live records is recycled: while it was under the cursor it could not be. -/
def advance (c : Cursor) (t : PageTable) : Traced (Cursor × PageTable) :=
  let slot := c.place.slot + 1
  if slot < c.slots then pure ({ c with place := ⟨c.place.page, slot⟩ }, t)
  else do
    let (page, t) ← t.nextFree
    let t ← if (← t.page c.place.page).live = 0 then t.release c.place.page else pure t
    pure ({ c with place := ⟨page, 0⟩ }, t)

def dump (c : Cursor) : Text.Dump :=
  ⟨"Cursor", [("page", .atom (toString c.place.page)), ("slot", .atom (toString c.place.slot)),
    ("slots", .atom (toString c.slots)), ("shift", .atom (toString c.shift))]⟩

end Cursor

end RecordArena
