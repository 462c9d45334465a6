import RecordArena.InPlace.Basic
import RecordArena.Record.View

/-!
# Records and keys in place

Views and padded keys are written in place: a source is copied to its range, and the rest of a key
is then filled with zeros. A key inside a view is a part of the view's bytes, so what a change of
the key has written is written to the view.
-/

namespace RecordArena

/-- Replaces bytes of the buffer from `start` on. -/
def PaddedKey.overwrite (key : PaddedKey) (start : Nat) (src : Bytes) : PaddedKey where
  raw := key.raw.overwrite start src.toList
  aligned := by rw [Bytes.size_overwrite, key.aligned]

namespace InPlace

/-- Reads a field through a view that is open for changes. -/
def getField (α : Type) [FixedWidth α] (position : Nat) : InPlace Bytes α := do
  let view ← look
  view.getField α position

/-- Copies the bytes of an integer to their range in a view. -/
def putField {α : Type} [FixedWidth α] (position : Nat) (v : α) : InPlace Bytes Unit := do
  let view ← look
  let _ ← view.read position (FixedWidth.width α)
  alter (Bytes.overwrite · position (FixedWidth.encode v).toList)

/-- Copies `src` to its range in a view. -/
def putBytes (offset : Nat) (src : Bytes) : InPlace Bytes Unit := do
  let view ← look
  let _ ← view.roomFor offset src
  alter (Bytes.overwrite · offset src.toList)

/-- Copies `src` to the front of a key and fills the rest with zeros. -/
def setContent (src : Bytes) : InPlace PaddedKey Unit := do
  let key ← look
  if key.capacity < src.size then
    (throw (.capacity src.size key.capacity) : Except Error Unit)
  alter (PaddedKey.overwrite · 0 src)
  alter fun key => key.overwrite src.size (Bytes.zeros (key.capacity - src.size))

/-- Copies the buffer of another key, padding included, and fills the rest with zeros. -/
def copyKey (other : PaddedKey) : InPlace PaddedKey Unit := setContent other.raw

/-- Copies the buffer of a key to the front of a region. -/
def encode (key : PaddedKey) : InPlace Bytes Unit := do
  let dst ← look
  if dst.size < key.capacity then
    (throw (.capacity key.capacity dst.size) : Except Error Unit)
  alter (Bytes.overwrite · 0 key.raw.toList)

/-- Changes the padded key in the `len` bytes from `offset` on. -/
def withinKey (offset len : Nat) (change : InPlace PaddedKey Unit) : InPlace Bytes Unit := do
  let view ← look
  let key ← view.keySlice offset len
  within (fun _ => key) (fun key view => view.overwrite offset key.raw.toList) change

end InPlace

end RecordArena
