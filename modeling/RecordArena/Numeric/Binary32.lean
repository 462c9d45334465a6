import RecordArena.Numeric.PowerOfTwo

/-!
# Single-precision numbers

A single-precision number is kept as its 32 bits: one sign bit, eight exponent bits and 23
fraction bits. Every finite value is a multiple of `2 ^ (-149)`, so a magnitude is a natural
number of such units and comparisons are exact.
-/

namespace RecordArena

open scoped Numeric

/-- A single-precision number in its interchange encoding. -/
structure Binary32 where
  /-- Sign, exponent and fraction, most significant first. -/
  bits : UInt32
  deriving DecidableEq, Repr

namespace Binary32

def isNegative (f : Binary32) : Bool := 2 ^ (31 : Nat) ≤ f.bits.toNat

def exponentField (f : Binary32) : Nat := f.bits.toNat / 2 ^ (23 : Nat) % 2 ^ (8 : Nat)

def fractionField (f : Binary32) : Nat := f.bits.toNat % 2 ^ (23 : Nat)

/-- Whether the value is an infinity or not a number. -/
def isSpecial (f : Binary32) : Bool := f.exponentField == 255

def isNaN (f : Binary32) : Bool := f.isSpecial && f.fractionField != 0

/-- The integer significand, with the leading bit of normal numbers. -/
def significand (f : Binary32) : Nat :=
  if f.exponentField = 0 then f.fractionField else 2 ^ (23 : Nat) + f.fractionField

/-- The exponent of the unit of the significand, counted from the smallest one. -/
def exponent (f : Binary32) : Nat := f.exponentField - 1

/-- The magnitude of a finite value in units of `2 ^ (-149)`. -/
def units (f : Binary32) : Nat := f.significand * 2 ^ f.exponent

def unitsPerOne : Nat := 2 ^ (149 : Nat)

def half : Binary32 := ⟨0x3f000000⟩

end Binary32

end RecordArena
