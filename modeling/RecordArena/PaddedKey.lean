import RecordArena.Backing
import RecordArena.Bytes.Compare
import RecordArena.Bytes.FixedWidth
import RecordArena.Numeric.Count
import RecordArena.Record.Layout

/-!
# Padded keys

A padded key is a buffer of whole words. Its content is the part before the first zero byte, and
everything after the content is zero as long as it is written through `set`, `setKey` and `reset`
with sources free of zero bytes. Hash and equality rely on the padding: they step over words and
stop at the first zero word.

## Main definitions

* `PaddedKey.wrap`, `PaddedKey.empty`, `PaddedKey.withContent` – constructors.
* `PaddedKey.content` – the logical bytes.
* `PaddedKey.set`, `PaddedKey.reset` – replacing the content.
* `KeyLayout` – a record that is one padded key.
-/

namespace RecordArena

/-- A buffer of whole words that holds a zero-padded key. -/
structure PaddedKey where
  /-- The whole buffer, padding included. -/
  raw : Bytes
  aligned : raw.size % keyAlignment = 0

namespace PaddedKey

def unaligned (capacity : Nat) : Error := .configuration (.unalignedKey capacity)

/-- Takes over existing bytes, whose number is the capacity. -/
def wrap (raw : Bytes) : Except Error PaddedKey :=
  if h : raw.size % keyAlignment = 0 then .ok ⟨raw, h⟩ else .error (unaligned raw.size)

def empty (capacity : Nat) : Except Failure PaddedKey :=
  if h : capacity % keyAlignment = 0 then
    if capacity ≤ Backing.heapLimit then
      .ok ⟨Bytes.zeros capacity, by rw [Bytes.zeros, Array.size_replicate, h]⟩
    else .error (.faulted (.unallocatable capacity))
  else .error (.refused (unaligned capacity))

def capacity (key : PaddedKey) : Nat := key.raw.size

/-- The bytes before the first zero byte. -/
def content (key : PaddedKey) : Bytes := key.raw.takeWhile (· ≠ 0)

def len (key : PaddedKey) : Nat := key.content.size

def isEmpty (key : PaddedKey) : Bool := key.len == 0

/-- The content byte at `i` as a character. -/
def charAt (key : PaddedKey) (i : Nat) : Except Error Char :=
  if h : i < key.content.size then .ok (Char.ofUInt8 key.content[i])
  else .error (.index i key.len)

/-- The content bytes from `start` up to `stop`. An end past the content is reported first. -/
def sub (key : PaddedKey) (start stop : Nat) : Except Error Bytes :=
  if key.len < stop then .error (.index stop key.len)
  else if stop < start then .error (.index start key.len)
  else .ok (key.content.extract start stop)

/-- The hash of the key, which ignores its padding. -/
def keyHash (key : PaddedKey) : Int32 := key.raw.keyHash

/-- The bytes that represent the key in a general-purpose hasher: its hash, little-endian. -/
def hasherInput (key : PaddedKey) : Bytes := FixedWidth.encode key.keyHash

/-- Keys are compared over the smaller of their capacities. Both have to be padded with zeros. -/
instance : BEq PaddedKey where
  beq a b := a.raw.paddedEq b.raw

/-- The bytes of `src` followed by zeros up to `capacity`. -/
def padded (src : Bytes) (capacity : Nat) : Bytes := src ++ Bytes.zeros (capacity - src.size)

theorem size_padded {src : Bytes} {capacity : Nat} (h : src.size ≤ capacity) :
    (padded src capacity).size = capacity := by
  simp only [padded, Bytes.zeros, Array.size_append, Array.size_replicate]
  omega

/-- Replaces the content by `src` and pads the rest with zeros. A source longer than the capacity
is refused. -/
def set (key : PaddedKey) (src : Bytes) : Except Error PaddedKey :=
  if h : src.size ≤ key.capacity then
    .ok ⟨padded src key.capacity, by rw [size_padded h, capacity, key.aligned]⟩
  else .error (.capacity src.size key.capacity)

/-- Copies the whole buffer of another key, which may have a smaller capacity. -/
def setKey (key other : PaddedKey) : Except Error PaddedKey := key.set other.raw

def reset (key : PaddedKey) : PaddedKey :=
  ⟨key.raw.zero, by rw [Bytes.size_zero, key.aligned]⟩

/-- A key of the given capacity that holds `src`. -/
def withContent (capacity : Nat) (src : Bytes) : Except Failure PaddedKey := do
  let key ← empty capacity
  key.set src

/-- Copies the whole buffer to the front of `dst`. -/
def encodeTo (key : PaddedKey) (dst : Bytes) : Except Error Bytes :=
  if key.capacity ≤ dst.size then .ok (dst.overwrite 0 key.raw.toList)
  else .error (.capacity key.capacity dst.size)

end PaddedKey

/-- A record that consists of a single padded key. -/
structure KeyLayout where
  capacity : Nat
  deriving DecidableEq, Repr

namespace KeyLayout

/-- The layout for keys of a positive whole number of words. Alignment is checked first. -/
def ofCapacity (capacity : Nat) : Except Error KeyLayout :=
  if capacity % keyAlignment ≠ 0 then .error (PaddedKey.unaligned capacity)
  else if capacity = 0 then .error (.configuration .emptyKey)
  else .ok ⟨capacity⟩

/-- The record layout, in which the key is the whole record. -/
def toRecordLayout (layout : KeyLayout) : RecordLayout := { size := layout.capacity }

end KeyLayout

end RecordArena
