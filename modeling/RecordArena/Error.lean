import RecordArena.Numeric.Shortest

/-!
# Refused requests

An `Error` says why a request was refused. Every refusal leaves the structure it was made of as it
was. The wording of each cause is given once, by `Error.message`.
-/

namespace RecordArena

open scoped Numeric

/-- The largest record size in bytes; sizes have to fit a signed 16-bit width. -/
def maxRecordSize : Nat := 32767

def maxPageSlots : Nat := 2 ^ (15 : Nat)

/-- Key capacities are multiples of this. -/
def keyAlignment : Nat := 8

/-- The smallest accepted load factor, one part in `65536`. -/
def minLoadFactor : Binary32 := ⟨0x37800000⟩

/-- Construction parameters that describe nothing representable. -/
inductive Misconfiguration where
  /-- A record of no bytes or of too many. -/
  | recordSize (size : Nat)
  /-- A key that is empty or leaves its record. -/
  | keyRange (offset len size : Nat)
  /-- A page of no slots or of too many. -/
  | pageSize (slots : Nat)
  /-- A load factor at which a table would never grow, or always. -/
  | loadFactor (factor : Binary32)
  /-- A table with too many slots at the start. -/
  | initialCapacity (capacity : Nat)
  /-- A key capacity that is not a whole number of words. -/
  | unalignedKey (capacity : Nat)
  /-- A record that is a key of no bytes. -/
  | emptyKey
  deriving DecidableEq, Repr

inductive Error where
  | configuration (reason : Misconfiguration)
  /-- Input longer than the region it is written into. -/
  | capacity (len limit : Nat)
  /-- A position or range outside a view. -/
  | index (position len : Nat)
  /-- A key or record shorter than the width it must have. -/
  | keyWidth (expected actual : Nat)
  deriving DecidableEq, Repr

def Misconfiguration.message : Misconfiguration → String
  | .recordSize size => s!"record size {size} outside 1..={maxRecordSize}"
  | .keyRange offset len size => s!"key range {offset}+{len} does not fit record of {size} bytes"
  | .pageSize slots => s!"page size {slots} outside 1..={maxPageSlots}"
  | .loadFactor factor => s!"load factor {factor.text} outside [{minLoadFactor.text}, 1)"
  | .initialCapacity capacity => s!"initial capacity {capacity} too large"
  | .unalignedKey capacity => s!"key capacity {capacity} is not a multiple of {keyAlignment}"
  | .emptyKey => "key capacity must be positive"

def Error.message : Error → String
  | .configuration reason => s!"invalid configuration: {reason.message}"
  | .capacity len limit => s!"input of {len} bytes exceeds capacity of {limit} bytes"
  | .index position len => s!"index {position} out of range for length {len}"
  | .keyWidth expected actual => s!"key width mismatch: expected {expected} bytes, got {actual}"

end RecordArena
