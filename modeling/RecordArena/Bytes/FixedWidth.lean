import RecordArena.Bytes.LittleEndian
import RecordArena.Numeric.PowerOfTwo

/-!
# Fixed-width integers

A fixed-width integer is stored as the little-endian bytes of an unsigned code. For a signed type
the code is the two's complement pattern.
-/

namespace RecordArena

open scoped Numeric

/-- Integers stored in a fixed number of bytes. Decoding keeps the low bytes of a code. -/
class FixedWidth (α : Type) where
  width : Nat
  code : α → Nat
  ofCode : Nat → α
  code_lt (v : α) : code v < 256 ^ width
  ofCode_code (v : α) : ofCode (code v) = v
  code_ofCode (n : Nat) : code (ofCode n) = n % 256 ^ width

namespace FixedWidth

def encode {α : Type} [FixedWidth α] (v : α) : Bytes :=
  (LittleEndian.ofNat (width α) (code v)).toArray

def decode {α : Type} [FixedWidth α] (b : Bytes) : α := ofCode (LittleEndian.toNat b.toList)

@[simp] theorem size_encode {α : Type} [FixedWidth α] (v : α) : (encode v).size = width α := by
  simp [encode]

instance : FixedWidth UInt8 where
  width := 1
  code := UInt8.toNat
  ofCode := UInt8.ofNat
  code_lt v := v.toNat_lt
  ofCode_code _ := UInt8.ofNat_toNat
  code_ofCode _ := UInt8.toNat_ofNat'

instance : FixedWidth UInt16 where
  width := 2
  code := UInt16.toNat
  ofCode := UInt16.ofNat
  code_lt v := v.toNat_lt
  ofCode_code _ := UInt16.ofNat_toNat
  code_ofCode _ := UInt16.toNat_ofNat'

instance : FixedWidth UInt32 where
  width := 4
  code := UInt32.toNat
  ofCode := UInt32.ofNat
  code_lt v := v.toNat_lt
  ofCode_code _ := UInt32.ofNat_toNat
  code_ofCode _ := UInt32.toNat_ofNat'

instance : FixedWidth UInt64 where
  width := 8
  code := UInt64.toNat
  ofCode := UInt64.ofNat
  code_lt v := v.toNat_lt
  ofCode_code _ := UInt64.ofNat_toNat
  code_ofCode _ := UInt64.toNat_ofNat'

instance : FixedWidth Int16 where
  width := 2
  code v := v.toUInt16.toNat
  ofCode n := (UInt16.ofNat n).toInt16
  code_lt v := v.toUInt16.toNat_lt
  ofCode_code v := by rw [UInt16.ofNat_toNat, Int16.toInt16_toUInt16]
  code_ofCode n := by rw [UInt16.toUInt16_toInt16]; exact UInt16.toNat_ofNat'

instance : FixedWidth Int32 where
  width := 4
  code v := v.toUInt32.toNat
  ofCode n := (UInt32.ofNat n).toInt32
  code_lt v := v.toUInt32.toNat_lt
  ofCode_code v := by rw [UInt32.ofNat_toNat, Int32.toInt32_toUInt32]
  code_ofCode n := by rw [UInt32.toUInt32_toInt32]; exact UInt32.toNat_ofNat'

instance : FixedWidth Int64 where
  width := 8
  code v := v.toUInt64.toNat
  ofCode n := (UInt64.ofNat n).toInt64
  code_lt v := v.toUInt64.toNat_lt
  ofCode_code v := by rw [UInt64.ofNat_toNat, Int64.toInt64_toUInt64]
  code_ofCode n := by rw [UInt64.toUInt64_toInt64]; exact UInt64.toNat_ofNat'

end FixedWidth

end RecordArena
