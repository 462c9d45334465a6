import RecordArena.Probing.Slots

/-!
# Index cells

A key index keeps one 32-bit number per slot. The largest number marks a vacant slot, so it cannot
be an entry.
-/

namespace RecordArena

structure Cells where
  words : Array UInt32

namespace Cells

def vacantMark : UInt32 := 0xffffffff

def vacant (capacity : Nat) : Cells := ⟨Array.replicate capacity vacantMark⟩

/-- The number in a cell; cells past the end are vacant. -/
def entryAt (cells : Cells) (slot : Nat) : Option UInt32 :=
  cells.words[slot]?.filter (· ≠ vacantMark)

instance : Slots Cells UInt32 where
  capacity cells := cells.words.size
  entryAt := entryAt
  store cells slot index := ⟨cells.words.setIfInBounds slot index⟩
  vacate cells slot := ⟨cells.words.setIfInBounds slot vacantMark⟩

/-- Every number but the mark of a vacant slot can be stored. -/
instance : LawfulSlots Cells where
  Fits _ index := index ≠ vacantMark
  capacity_store _ _ _ := Array.size_setIfInBounds
  capacity_vacate _ _ := Array.size_setIfInBounds
  entryAt_store cells i j index hi he := by
    simp only [Slots.entryAt, Slots.store, entryAt, Array.getElem?_setIfInBounds]
    split
    · next h => subst h; rw [if_pos (show i < cells.words.size from hi)]; simp [he]
    · rfl
  entryAt_vacate cells i j hi := by
    simp only [Slots.entryAt, Slots.vacate, entryAt, Array.getElem?_setIfInBounds]
    split
    · next h => subst h; rw [if_pos (show i < cells.words.size from hi)]; simp
    · rfl
  fits_entryAt cells i index h := by
    simp only [Slots.entryAt, entryAt, Option.filter_eq_some_iff] at h
    simpa using h.2
  fits_store _ _ _ _ := Iff.rfl
  fits_vacate _ _ _ := Iff.rfl

end Cells

end RecordArena
