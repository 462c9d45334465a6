import RecordArena.Bytes.Basic
import RecordArena.Numeric.PowerOfTwo
import RecordArena.Traced

/-!
# Backing memory

A region of memory comes from the heap or from an anonymous mapping. Both hand out zeroed bytes
and behave alike afterwards; they differ in the longest region they provide and in whether a
failure is reported. How long a mapping can be is for the system to say, within `MappingLimit`.
-/

namespace RecordArena

open scoped Numeric

/-- The longest mapping that the system provides. -/
structure MappingLimit where
  bytes : Nat
  /-- The length of a region fits a signed 64-bit width. -/
  bytes_lt : bytes < 2 ^ (63 : Nat)
  /-- The block of the longest page of the widest records can be mapped. -/
  pageBlock_le : maxPageSlots * (maxRecordSize + 1) ≤ bytes
  deriving DecidableEq, Repr

/-- Where the bytes of a region come from. -/
inductive Backing where
  | heap
  /-- A private anonymous mapping outside the heap. -/
  | mapped (limit : MappingLimit)
  deriving DecidableEq, Repr

namespace Backing

/-- Mappings of a process with 47 bits of addresses. -/
def anonymous : Backing :=
  mapped { bytes := 2 ^ (47 : Nat) - 1, bytes_lt := by decide, pageBlock_le := by decide }

/-- The longest region of the heap; lengths have to fit a signed 64-bit width. -/
def heapLimit : Nat := 2 ^ (63 : Nat) - 1

/-- Whether `len` bytes can be provided. Only a failed mapping is reported. -/
def reserve : Backing → (len : Nat) → Traced Unit
  | heap, len =>
    if len ≤ heapLimit then pure () else Traced.fail (.faulted (.unallocatable len))
  | mapped limit, len =>
    if len ≤ limit.bytes then pure ()
    else do
      Traced.emit (.mappingFailed len)
      Traced.fail (.faulted (.unallocatable len))

def allocate (backing : Backing) (len : Nat) : Traced Bytes := do
  backing.reserve len
  pure (Bytes.zeros len)

end Backing

end RecordArena
