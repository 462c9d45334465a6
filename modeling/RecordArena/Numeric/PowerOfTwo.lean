/-!
# Powers of two

Page sizes and table capacities are rounded up to powers of two, so that a slot number is the low
part of a number. A mask is one less than a power of two and keeps that part of a word.
-/

namespace RecordArena.Numeric

-- Where this is opened, a power of a natural number is the core one, whatever else is imported.
attribute [scoped instance (2000)] instPowNat

/-- The least power of two that is at least `n`; one for zero. -/
def ceilPowerOfTwo (n : Nat) : Nat := if n ≤ 1 then 1 else 2 ^ ((n - 1).log2 + 1)

section Mask

variable {mask word : UInt64} {k : Nat}

theorem le_mask_iff (hmask : mask.toNat + 1 = 2 ^ k) : word ≤ mask ↔ word.toNat < 2 ^ k := by
  rw [UInt64.le_iff_toNat_le, ← hmask, Nat.lt_succ_iff]

theorem toNat_and_mask (hmask : mask.toNat + 1 = 2 ^ k) :
    (word &&& mask).toNat = word.toNat % 2 ^ k := by
  rw [UInt64.toNat_and, ← Nat.and_two_pow_sub_one_eq_mod, ← hmask, Nat.add_sub_cancel]

/-- What is kept of a word under one less than `n` is below `n`, for every `n`. -/
theorem toNat_and_lt {n : Nat} (hn : 0 < n) (word : UInt64) :
    (word &&& UInt64.ofNat (n - 1)).toNat < n := by
  have hmask : (UInt64.ofNat (n - 1)).toNat ≤ n - 1 := by
    rw [UInt64.toNat_ofNat']
    exact Nat.mod_le _ _
  have hand : (word &&& UInt64.ofNat (n - 1)).toNat ≤ (UInt64.ofNat (n - 1)).toNat := by
    rw [UInt64.toNat_and]
    exact Nat.and_le_right
  omega

end Mask

end RecordArena.Numeric
