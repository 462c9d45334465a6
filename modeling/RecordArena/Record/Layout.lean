import RecordArena.Bytes.KeyHash
import RecordArena.Failure

/-!
# Record layouts

A layout describes fixed-size records: their size, the range that holds the key, and how keys are
hashed. It owns no bytes. Tables hash a bare key and a record's key range alike, so a record and
its key always have the same home.
-/

namespace RecordArena

/-- A fixed-size record. The key spans the whole record unless told otherwise. -/
structure RecordLayout where
  size : Nat
  keyOffset : Nat := 0
  keyLen : Nat := size - keyOffset
  hashKey : Bytes → Int32 := Bytes.keyHash

namespace RecordLayout

/-- Whether records are representable and have a non-empty key inside them. The size is checked
first. -/
def validate (layout : RecordLayout) : Except Error Unit :=
  if layout.size = 0 ∨ maxRecordSize < layout.size then
    .error (.configuration (.recordSize layout.size))
  else if layout.keyLen = 0 ∨ layout.size < layout.keyOffset + layout.keyLen then
    .error (.configuration (.keyRange layout.keyOffset layout.keyLen layout.size))
  else .ok ()

def key (layout : RecordLayout) (record : Bytes) : Except Fault Bytes :=
  record.read layout.keyOffset layout.keyLen

/-- The key range of a view that may be too short for a record, which is refused. -/
def checkedKey (layout : RecordLayout) (view : Bytes) : Except Failure Bytes :=
  if view.size < layout.size then .error (.refused (.keyWidth layout.size view.size))
  else layout.key view

/-- The key range of a view, or nothing when the view is too short for a record. -/
def key? (layout : RecordLayout) (view : Bytes) : Except Fault (Option Bytes) :=
  if view.size < layout.size then .ok none else some <$> layout.key view

def keyHash (layout : RecordLayout) (record : Bytes) : Except Fault Int32 :=
  layout.hashKey <$> layout.key record

end RecordLayout

end RecordArena
