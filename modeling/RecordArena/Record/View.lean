import RecordArena.PaddedKey

/-!
# Record views

A view is the bytes of one record. Fields are read and written at fixed positions as
little-endian integers; a field that leaves the view is a fault. Byte ranges and padded keys
inside the view are checked and refused when they do not fit.
-/

namespace RecordArena.Bytes

def getField (α : Type) [FixedWidth α] (view : Bytes) (position : Nat) : Except Fault α :=
  FixedWidth.decode <$> view.read position (FixedWidth.width α)

def putField {α : Type} [FixedWidth α] (view : Bytes) (position : Nat) (v : α) :
    Except Fault Bytes :=
  view.write position (FixedWidth.encode v)

/-- The end of the range of `len` bytes from `offset` on. A range that leaves the view, or ends at
no count at all, is refused. -/
def rangeEnd (view : Bytes) (offset len : Nat) : Except Error Nat :=
  match (Numeric.checkedAdd offset len).filter (· ≤ view.size) with
  | some stop => .ok stop
  | none => .error (.index (Numeric.saturatingAdd offset len) view.size)

/-- The end of the range that takes `src` from `offset` on. Where there is none, the refusal names
the length that the view would need. -/
def roomFor (view : Bytes) (offset : Nat) (src : Bytes) : Except Error Nat :=
  (view.rangeEnd offset src.size).mapError fun _ =>
    .capacity (Numeric.saturatingAdd offset src.size) view.size

/-- The `len` bytes from `offset` on. -/
def slice (view : Bytes) (offset len : Nat) : Except Error Bytes := do
  let stop ← view.rangeEnd offset len
  pure (view.extract offset stop)

/-- Replaces the bytes from `offset` on by `src`; a source that does not fit is refused. -/
def putBytes (view : Bytes) (offset : Nat) (src : Bytes) : Except Error Bytes := do
  let _ ← view.roomFor offset src
  pure (view.overwrite offset src.toList)

/-- The padded key in the `len` bytes from `offset` on. The range is checked before its
alignment. -/
def keySlice (view : Bytes) (offset len : Nat) : Except Error PaddedKey := do
  PaddedKey.wrap (← view.slice offset len)

/-- Changes the padded key in the `len` bytes from `offset` on and leaves all other bytes. -/
def modifyKey (view : Bytes) (offset len : Nat) (change : PaddedKey → Except Error PaddedKey) :
    Except Error Bytes := do
  let key ← change (← view.keySlice offset len)
  pure (view.overwrite offset key.raw.toList)

def fill (view : Bytes) (x : UInt8) : Bytes := Array.replicate view.size x

end RecordArena.Bytes
