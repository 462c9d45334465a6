import Mathlib.Tactic.Ring
import RecordArena.Bytes.FixedWidth

/-!
# Little-endian round trips

Reading back what was written keeps the low bytes of a number, and different bytes of one length
are different numbers. So a fixed-width integer reads back as itself.
-/

namespace RecordArena

namespace LittleEndian

theorem toNat_lt (bytes : List UInt8) : toNat bytes < 256 ^ bytes.length := by
  induction bytes with
  | nil => exact Nat.one_pos
  | cons b bs ih =>
    have hb := b.toNat_lt
    rw [toNat, List.length_cons, Nat.pow_succ]
    omega

/-- Writing `width` bytes and reading them back keeps the low bytes. -/
theorem toNat_ofNat (width n : Nat) : toNat (ofNat width n) = n % 256 ^ width := by
  induction width generalizing n with
  | zero => rw [ofNat, toNat, Nat.pow_zero, Nat.mod_one]
  | succ width ih =>
    have hlow : (UInt8.ofNat n).toNat = n % 256 := UInt8.toNat_ofNat'
    rw [ofNat, toNat, ih, hlow, Nat.pow_succ, Nat.mul_comm (256 ^ width), Nat.mod_mul]

/-- Bytes of one length are told apart by their numbers. -/
theorem toNat_inj {a b : List UInt8} (hlen : a.length = b.length) (h : toNat a = toNat b) :
    a = b := by
  induction a generalizing b with
  | nil => exact (List.length_eq_zero_iff.mp hlen.symm).symm
  | cons x xs ih =>
    cases b with
    | nil => cases hlen
    | cons y ys =>
      rw [toNat, toNat] at h
      have hx := x.toNat_lt
      have hy := y.toNat_lt
      have hhead : x = y := UInt8.toNat_inj.mp (by omega)
      have htail : xs = ys := ih (Nat.succ.inj hlen) (by omega)
      rw [hhead, htail]

/-- The bytes that come first are the low ones. -/
theorem toNat_append (low high : List UInt8) :
    toNat (low ++ high) = toNat low + 256 ^ low.length * toNat high := by
  induction low with
  | nil => rw [List.nil_append, toNat, List.length_nil, Nat.pow_zero, Nat.one_mul, Nat.zero_add]
  | cons b low ih =>
    rw [List.cons_append, toNat, toNat, ih, List.length_cons, Nat.pow_succ]
    ring

end LittleEndian

namespace FixedWidth

variable {α : Type} [FixedWidth α]

theorem decode_encode (v : α) : decode (encode v) = v := by
  rw [decode, encode, List.toList_toArray, LittleEndian.toNat_ofNat,
    Nat.mod_eq_of_lt (code_lt v), ofCode_code]

end FixedWidth

end RecordArena
