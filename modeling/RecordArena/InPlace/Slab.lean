import RecordArena.InPlace.Basic
import RecordArena.Slab.Basic

/-!
# Slabs in place

Freeing a record clears its flag and counts it off before its page is queued.
-/

namespace RecordArena.InPlace

/-- Zeroes an empty page under the reset policy, and then queues it. -/
def release (p : UInt32) : InPlace PageTable Unit := do
  let t ← look
  let zeroed ← if t.resetOnFree then t.clear p else t.modify p id
  alter fun _ => zeroed
  Traced.emit (.pageRecycled (← zeroed.page p).index)
  alter fun t => { t with free := t.free.push p }

/-- Ends the record at an index; without a record there nothing happens. -/
def free (index : UInt32) : InPlace Slab Unit := do
  let s ← look
  let place := s.place index
  match ← s.pages.vacate place with
  | (none, _) => pure ()
  | (some remaining, pages) =>
    alter fun s => { s with pages }
    alter fun s => { s with live := s.live - 1 }
    if remaining = 0 ∧ place.page ≠ s.cursor.place.page then
      within Slab.pages (fun pages s => { s with pages }) (release place.page)

/-- Replaces the front of the record at an index, live or not, once its bytes are found. -/
def writeRecord (index : UInt32) (src : Bytes) : InPlace Slab Unit := do
  let s ← look
  let written ← s.write index src
  alter fun _ => written

end RecordArena.InPlace
