import RecordArena.Bytes.Words

/-!
# Key hashing

Keys are padded with zeros to a fixed capacity. The hash folds word after word and ends at the
first zero word, so padding contributes nothing; bytes after the last full word are folded one at
a time as signed values. `spread` mixes a hash before it is masked to a table slot.
-/

namespace RecordArena

namespace KeyHash

def seed : Int32 := 19

def multiplier : Int32 := 31

/-- Folds one word: both halves of the word are combined by exclusive or. -/
def foldWord (hash : Int32) (word : UInt64) : Int32 :=
  hash * multiplier + (word ^^^ (word >>> 32)).toUInt32.toInt32

/-- Folds one byte of the tail as a signed value. -/
def foldByte (hash : Int32) (byte : UInt8) : Int32 :=
  hash * multiplier + byte.toInt8.toInt32

/-- Folds words up to the first zero word; the tail counts only when no word is zero. -/
def fold (hash : Int32) : (words : List UInt64) → (tail : List UInt8) → Int32
  | [], tail => tail.foldl foldByte hash
  | word :: words, tail => if word = 0 then hash else fold (foldWord hash word) words tail

end KeyHash

/-- The hash of a key, which ends at its first zero word. -/
def Bytes.keyHash (key : Bytes) : Int32 := KeyHash.fold KeyHash.seed key.words key.tail

namespace Spread

/-- The odd factor of both mixing rounds. -/
def factor : UInt32 := 0x119de1f3

def foldHalves (x : UInt32) : UInt32 := (x >>> 16) ^^^ x

/-- Mixes the bits of a hash: two multiplications between three folds. -/
def mix (hash : Int32) : UInt32 :=
  foldHalves (foldHalves (foldHalves hash.toUInt32 * factor) * factor)

end Spread

def spread (hash : Int32) (mask : UInt64) : UInt64 := (Spread.mix hash).toUInt64 &&& mask

end RecordArena
