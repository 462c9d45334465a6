import RecordArena.Bytes.LittleEndian

/-!
# Words of a byte region

A region splits into full words of eight bytes, read little-endian, and a tail of at most seven
bytes. Hashing and comparison of keys step over this view.
-/

namespace RecordArena.Bytes

def wordSize : Nat := 8

def wordCount (b : Bytes) : Nat := b.size / wordSize

def word (b : Bytes) (i : Nat) : UInt64 :=
  UInt64.ofNat (LittleEndian.toNat (b.extract (i * wordSize) (i * wordSize + wordSize)).toList)

def words (b : Bytes) : List UInt64 := (List.range b.wordCount).map b.word

def tail (b : Bytes) : List UInt8 := (b.extract (b.wordCount * wordSize) b.size).toList

end RecordArena.Bytes
