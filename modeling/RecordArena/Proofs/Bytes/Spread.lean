import Mathlib.Data.Set.Card
import RecordArena.Bytes.KeyHash
import RecordArena.Numeric.PowerOfTwo

/-!
# Spreading hashes over slots

Every step of the mixing can be undone: folding the upper half of a word into its lower half is its
own inverse, and the factor has an inverse modulo `2 ^ 32`. Mixing is hence a permutation of the
hashes, and a mask then keeps the lowest bits of its result, which all occur equally often.

## Main definitions

* `Spread.unmix` – the mixing undone.

## Main statements

* `Spread.mix_bijective` – mixing is a permutation.
* `toNat_spread` – a slot is the remainder of the mixed hash.
* `Spread.ncard_remainder` – how many words have a given remainder.
* `spread_fills_evenly` – no two hashes are mixed to the same word, and every slot gets its share.
-/

namespace RecordArena

namespace Spread

/-- The inverse of `factor` modulo `2 ^ 32`. -/
def unfactor : UInt32 := 0x045d9f3b

theorem factor_mul_unfactor : factor * unfactor = 1 := by decide

theorem unfactor_mul_factor : unfactor * factor = 1 := by decide

/-- Folding once more takes the upper half out of the lower one again. -/
@[simp]
theorem foldHalves_foldHalves (x : UInt32) : foldHalves (foldHalves x) = x := by
  have hgone : x >>> 16 >>> 16 = 0 := by
    apply UInt32.toNat_inj.mp
    rw [UInt32.toNat_shiftRight, UInt32.toNat_shiftRight, ← Nat.shiftRight_add]
    exact Nat.shiftRight_eq_zero _ _ x.toNat_lt
  rw [foldHalves, foldHalves, UInt32.shiftRight_xor, hgone, UInt32.zero_xor, ← UInt32.xor_assoc,
    UInt32.xor_self, UInt32.zero_xor]

/-- Undoes the steps of `mix`, the last one first. -/
def unmix (x : UInt32) : Int32 :=
  (foldHalves (foldHalves (foldHalves x * unfactor) * unfactor)).toInt32

theorem unmix_mix (hash : Int32) : unmix (mix hash) = hash := by
  simp [unmix, mix, UInt32.mul_assoc, factor_mul_unfactor]

theorem mix_unmix (x : UInt32) : mix (unmix x) = x := by
  simp [unmix, mix, UInt32.mul_assoc, unfactor_mul_factor]

/-- Mixing is a permutation of the 32-bit words. -/
theorem mix_bijective : Function.Bijective mix :=
  Function.bijective_iff_has_inverse.mpr ⟨unmix, unmix_mix, mix_unmix⟩

/-- The words with a given remainder by `2 ^ k` are told apart by their quotients, of which there
are `2 ^ (32 - k)`. -/
theorem ncard_remainder {k r : Nat} (hk : k ≤ 32) (hr : r < 2 ^ k) :
    {x : UInt32 | x.toNat % 2 ^ k = r}.ncard = 2 ^ (32 - k) := by
  have hpow : 2 ^ k * 2 ^ (32 - k) = 2 ^ 32 := by
    rw [← Nat.pow_add, Nat.add_sub_cancel' hk]
  have hquotients : (fun x : UInt32 => x.toNat / 2 ^ k) '' {x : UInt32 | x.toNat % 2 ^ k = r} =
      Finset.range (2 ^ (32 - k)) := by
    ext q
    simp only [Set.mem_image, Set.mem_ofPred_eq, Finset.coe_range, Set.mem_Iio]
    constructor
    · rintro ⟨x, -, rfl⟩
      rw [Nat.div_lt_iff_lt_mul (Nat.two_pow_pos k), Nat.mul_comm, hpow]
      exact x.toNat_lt
    · intro hq
      have hrow := Nat.mul_le_mul_left (2 ^ k) (Nat.succ_le_of_lt hq)
      rw [Nat.mul_succ, hpow] at hrow
      have hword : (UInt32.ofNat (2 ^ k * q + r)).toNat = 2 ^ k * q + r := by
        rw [UInt32.toNat_ofNat', Nat.mod_eq_of_lt (by omega)]
      refine ⟨UInt32.ofNat (2 ^ k * q + r), ?_, ?_⟩
      · rw [hword, Nat.mul_add_mod, Nat.mod_eq_of_lt hr]
      · rw [hword, Nat.mul_add_div (Nat.two_pow_pos k), Nat.div_eq_of_lt hr, Nat.add_zero]
  have hinj : Set.InjOn (fun x : UInt32 => x.toNat / 2 ^ k) {x | x.toNat % 2 ^ k = r} := by
    intro x hx y hy hquotient
    rw [Set.mem_ofPred_eq] at hx hy
    dsimp only at hquotient
    apply UInt32.toNat_inj.mp
    rw [← Nat.div_add_mod x.toNat (2 ^ k), hquotient, hx, ← hy, Nat.div_add_mod]
  rw [← hinj.ncard_image, hquotients, Set.ncard_coe_finset, Finset.card_range]

end Spread

section Mask

variable {mask : UInt64} {k : Nat}

/-- A slot is the remainder of the mixed hash by the number of slots. -/
theorem toNat_spread (hmask : mask.toNat + 1 = 2 ^ k) (hash : Int32) :
    (spread hash mask).toNat = (Spread.mix hash).toNat % 2 ^ k := by
  rw [spread, Numeric.toNat_and_mask hmask, UInt32.toNat_toUInt64]

/-- A mask of all bits of a hash or more keeps the mixed hash as it is. -/
theorem toNat_spread_of_wide (hmask : mask.toNat + 1 = 2 ^ k) (hk : 32 ≤ k) (hash : Int32) :
    (spread hash mask).toNat = (Spread.mix hash).toNat := by
  rw [toNat_spread hmask, Nat.mod_eq_of_lt]
  exact Nat.lt_of_lt_of_le (UInt32.toNat_lt _) (Nat.pow_le_pow_right Nat.two_pos hk)

/-- The hashes of a slot are those that are mixed to the words with its number as remainder. -/
theorem ncard_spread (hmask : mask.toNat + 1 = 2 ^ k) (hk : k ≤ 32) {slot : UInt64}
    (hslot : slot ≤ mask) : {hash | spread hash mask = slot}.ncard = 2 ^ (32 - k) := by
  have hwords : {hash | spread hash mask = slot} =
      Set.preimage Spread.mix {x | x.toNat % 2 ^ k = slot.toNat} := by
    ext hash
    rw [Set.mem_preimage, Set.mem_ofPred_eq, Set.mem_ofPred_eq, ← UInt64.toNat_inj,
      toNat_spread hmask]
  have hrange : {x : UInt32 | x.toNat % 2 ^ k = slot.toNat} ⊆ Set.range Spread.mix := by
    rw [Spread.mix_bijective.surjective.range_eq]
    exact Set.subset_univ _
  rw [hwords, Set.ncard_preimage_of_injective_subset_range Spread.mix_bijective.injective hrange,
    Spread.ncard_remainder hk ((Numeric.le_mask_iff hmask).mp hslot)]

/-- Spreading loses no hash and fills slots evenly. Mixing is a permutation of the hashes, so under
a mask of 32 bits no two of them share a slot. Under a mask of at most 32 bits every slot gets as
many hashes as the others, and further bits of a mask make no difference. -/
theorem spread_fills_evenly (hmask : mask.toNat + 1 = 2 ^ k) :
    Function.Bijective Spread.mix ∧
      Function.Injective (fun hash => spread hash 0xFFFFFFFF) ∧
      (k ≤ 32 → ∀ slot ≤ mask, {hash | spread hash mask = slot}.ncard = 2 ^ (32 - k)) ∧
      (32 ≤ k → ∀ hash, spread hash mask = spread hash 0xFFFFFFFF) := by
  have hall : (0xFFFFFFFF : UInt64).toNat + 1 = 2 ^ 32 := by decide
  refine ⟨Spread.mix_bijective, fun hash hash' heq => ?_, fun hk slot hslot => ?_,
    fun hk hash => ?_⟩
  · have hmix := congrArg UInt64.toNat heq
    simp only [toNat_spread_of_wide hall (Nat.le_refl 32)] at hmix
    exact Spread.mix_bijective.injective (UInt32.toNat_inj.mp hmix)
  · exact ncard_spread hmask hk hslot
  · apply UInt64.toNat_inj.mp
    rw [toNat_spread_of_wide hmask hk, toNat_spread_of_wide hall (Nat.le_refl 32)]

/-- Sixteen slots get `2 ^ 28` hashes each, and the last slot is one of them. A mask of 40 bits
spreads as one of 32 bits. -/
theorem spread_fills_evenly_sixteen :
    (15 : UInt64).toNat + 1 = 2 ^ 4 ∧ {hash | spread hash 15 = 15}.ncard = 2 ^ 28 ∧
      spread (-1) 0xFFFFFFFFFF = spread (-1) 0xFFFFFFFF := by
  have hfour : (15 : UInt64).toNat + 1 = 2 ^ 4 := by decide
  have hforty : (0xFFFFFFFFFF : UInt64).toNat + 1 = 2 ^ 40 := by decide
  obtain ⟨-, -, hshare, -⟩ := spread_fills_evenly hfour
  obtain ⟨-, -, -, hwide⟩ := spread_fills_evenly hforty
  exact ⟨hfour, hshare (by decide) 15 (UInt64.le_refl 15), hwide (by decide) (-1)⟩

end Mask

end RecordArena
