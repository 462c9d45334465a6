import RecordArena.Bytes.Basic

/-!
# Little-endian numbers

A number is stored least significant byte first. `ofNat` writes the low bytes of a number at a
given width and `toNat` reads a list of bytes back.
-/

namespace RecordArena.LittleEndian

/-- The number whose little-endian bytes are given. -/
def toNat : List UInt8 → Nat
  | [] => 0
  | b :: bs => b.toNat + 256 * toNat bs

/-- The `width` low bytes of `n`, least significant first. -/
def ofNat : (width : Nat) → (n : Nat) → List UInt8
  | 0, _ => []
  | width + 1, n => UInt8.ofNat n :: ofNat width (n / 256)

@[simp] theorem length_ofNat (width n : Nat) : (ofNat width n).length = width := by
  induction width generalizing n with
  | zero => rfl
  | succ width ih => rw [ofNat, List.length_cons, ih]

end RecordArena.LittleEndian
