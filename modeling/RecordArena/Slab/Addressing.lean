import RecordArena.Text.Dump

/-!
# Slab addresses

A record is named by one 32-bit index: the page number above the slot number. Pages have a power
of two of slots, so the index splits by a shift and a mask. Page bits that do not fit are lost.
-/

namespace RecordArena

structure Place where
  page : UInt32
  slot : Nat
  deriving DecidableEq, Repr

/-- How indices split into pages and slots. -/
structure Addressing where
  /-- Bits of the slot number. -/
  shift : UInt32
  /-- The largest slot number. -/
  mask : UInt32
  deriving DecidableEq, Repr

namespace Addressing

/-- The addressing of pages with `slots` slots, a power of two. -/
def ofSlots (slots : Nat) : Addressing where
  shift := UInt32.ofNat slots.log2
  mask := UInt32.ofNat (slots - 1)

def encode (a : Addressing) (place : Place) : UInt32 :=
  (place.page <<< a.shift) ||| UInt32.ofNat place.slot

def decode (a : Addressing) (index : UInt32) : Place where
  page := index >>> a.shift
  slot := (index &&& a.mask).toNat

def slots (a : Addressing) : Nat := a.mask.toNat + 1

def dump (a : Addressing) : Text.Dump :=
  ⟨"Addressing", [("shift", .atom (toString a.shift)), ("mask", .atom (toString a.mask))]⟩

end Addressing

end RecordArena
