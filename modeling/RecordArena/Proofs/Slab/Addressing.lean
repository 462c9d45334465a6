import Mathlib.Algebra.Group.Nat.Defs
import RecordArena.Numeric.PowerOfTwo
import RecordArena.Slab.Addressing

/-!
# Splitting indices

With a power of two of slots per page, the shift and the mask of an index are its quotient and its
remainder by the number of slots. A place that fits 32 bits is coded without loss, and different
indices address different places.

## Main statements

* `Addressing.page_decode`, `Addressing.slot_decode` – the place of an index.
* `Addressing.toNat_encode_mod`, `Addressing.toNat_encode` – the index of a place.
* `Addressing.decode_encode`, `Addressing.decode_inj` – coding loses nothing.
* `Addressing.decode_encode_iff` – coding loses what does not fit.
* `Addressing.codes_ofSlots` – indices are the places that fit, in their order.
-/

namespace RecordArena

theorem Place.eq_of_toNat_eq {a b : Place} (hpage : a.page.toNat = b.page.toNat)
    (hslot : a.slot = b.slot) : a = b := by
  obtain ⟨page, slot⟩ := a
  cases UInt32.toNat_inj.mp hpage
  cases hslot
  rfl

/-- The place has one of the indices of pages with `2 ^ k` slots: its page number and its slot
number fit the bits that there are for them. -/
structure Place.Fits (place : Place) (k : Nat) : Prop where
  page_lt : place.page.toNat < 2 ^ (32 - k)
  slot_lt : place.slot < 2 ^ k

namespace Addressing

variable {k : Nat}

/-- Indices and the places of pages with `2 ^ k` slots correspond to each other, and the order of
the indices is that of the pages and, within a page, of the slots. -/
structure Codes (a : Addressing) (k : Nat) : Prop where
  slots_eq : a.slots = 2 ^ k
  decode_encode : ∀ place : Place, place.Fits k → a.decode (a.encode place) = place
  fits_decode : ∀ index, (a.decode index).Fits k
  encode_decode : ∀ index, a.encode (a.decode index) = index
  encode_lt_iff : ∀ place place' : Place, place.Fits k → place'.Fits k →
    (a.encode place < a.encode place' ↔
      place.page < place'.page ∨ place.page = place'.page ∧ place.slot < place'.slot)

theorem toNat_shift (hk : k < 32) : (ofSlots (2 ^ k)).shift.toNat % 32 = k := by
  have hlog : (ofSlots (2 ^ k)).shift = UInt32.ofNat k := by
    rw [ofSlots, Nat.log2_two_pow]
  rw [hlog, UInt32.toNat_ofNat']
  omega

theorem toNat_mask (hk : k < 32) : (ofSlots (2 ^ k)).mask.toNat = 2 ^ k - 1 := by
  have hpow : 2 ^ k ≤ 2 ^ 32 := Nat.pow_le_pow_right (by omega) (by omega)
  have hpos : 0 < 2 ^ k := Nat.two_pow_pos k
  change (UInt32.ofNat (2 ^ k - 1)).toNat = _
  rw [UInt32.toNat_ofNat', Nat.mod_eq_of_lt (by omega)]

theorem slots_ofSlots (hk : k < 32) : (ofSlots (2 ^ k)).slots = 2 ^ k := by
  rw [slots, toNat_mask hk]
  exact Nat.sub_add_cancel (Nat.two_pow_pos k)

theorem page_decode (hk : k < 32) (index : UInt32) :
    ((ofSlots (2 ^ k)).decode index).page.toNat = index.toNat / 2 ^ k := by
  rw [decode, UInt32.toNat_shiftRight, toNat_shift hk, Nat.shiftRight_eq_div_pow]

theorem slot_decode (hk : k < 32) (index : UInt32) :
    ((ofSlots (2 ^ k)).decode index).slot = index.toNat % 2 ^ k := by
  rw [decode, UInt32.toNat_and, toNat_mask hk, Nat.and_two_pow_sub_one_eq_mod]

/-- The index of a place is its number, of which 32 bits are kept. -/
theorem toNat_encode_mod (hk : k < 32) {place : Place} (hslot : place.slot < 2 ^ k) :
    ((ofSlots (2 ^ k)).encode place).toNat =
      (place.page.toNat * 2 ^ k + place.slot) % 2 ^ 32 := by
  have hpow : 2 ^ k * 2 ^ (32 - k) = 2 ^ 32 := by
    rw [← Nat.pow_add, Nat.add_sub_cancel' (Nat.le_of_lt hk)]
  have hle : 2 ^ k ≤ 2 ^ 32 := Nat.pow_le_pow_right (by omega) (by omega)
  have hquotient : (2 ^ k * place.page.toNat + place.slot) / 2 ^ k = place.page.toNat := by
    rw [Nat.mul_add_div (Nat.two_pow_pos k), Nat.div_eq_of_lt hslot, Nat.add_zero]
  rw [encode, UInt32.toNat_or, UInt32.toNat_shiftLeft, toNat_shift hk, UInt32.toNat_ofNat',
    Nat.mod_eq_of_lt (Nat.lt_of_lt_of_le hslot hle), Nat.shiftLeft_eq, Nat.mul_comm, ← hpow,
    Nat.mul_mod_mul_left, ← Nat.two_pow_add_eq_or_of_lt hslot, Nat.mod_mul, hquotient,
    Nat.mul_add_mod, Nat.mod_eq_of_lt hslot, Nat.add_comm]

/-- A place whose number fits 32 bits has that number as its index. -/
theorem toNat_encode (hk : k < 32) {place : Place} (hslot : place.slot < 2 ^ k)
    (hfit : place.page.toNat * 2 ^ k + place.slot < 2 ^ 32) :
    ((ofSlots (2 ^ k)).encode place).toNat = place.page.toNat * 2 ^ k + place.slot := by
  rw [toNat_encode_mod hk hslot, Nat.mod_eq_of_lt hfit]

theorem decode_encode (hk : k < 32) {place : Place} (hslot : place.slot < 2 ^ k)
    (hfit : place.page.toNat * 2 ^ k + place.slot < 2 ^ 32) :
    (ofSlots (2 ^ k)).decode ((ofSlots (2 ^ k)).encode place) = place := by
  have hpage := page_decode hk ((ofSlots (2 ^ k)).encode place)
  have hslot' := slot_decode hk ((ofSlots (2 ^ k)).encode place)
  rw [toNat_encode hk hslot hfit] at hpage hslot'
  rw [Nat.mul_comm, Nat.mul_add_div (Nat.two_pow_pos k), Nat.div_eq_of_lt hslot,
    Nat.add_zero] at hpage
  rw [Nat.mul_add_mod_of_lt hslot] at hslot'
  exact Place.eq_of_toNat_eq hpage hslot'

/-- A place is found again by its index when its number fits 32 bits, and only then. -/
theorem decode_encode_iff (hk : k < 32) {place : Place} (hslot : place.slot < 2 ^ k) :
    (ofSlots (2 ^ k)).decode ((ofSlots (2 ^ k)).encode place) = place ↔
      place.page.toNat * 2 ^ k + place.slot < 2 ^ 32 := by
  refine ⟨fun h => ?_, decode_encode hk hslot⟩
  have hpage := page_decode hk ((ofSlots (2 ^ k)).encode place)
  have hslot' := slot_decode hk ((ofSlots (2 ^ k)).encode place)
  rw [h] at hpage hslot'
  rw [hpage, hslot', Nat.div_add_mod']
  exact UInt32.toNat_lt _

theorem decode_inj (hk : k < 32) {index index' : UInt32}
    (h : (ofSlots (2 ^ k)).decode index = (ofSlots (2 ^ k)).decode index') : index = index' := by
  have hpage := page_decode hk index
  have hslot := slot_decode hk index
  rw [h, page_decode hk] at hpage
  rw [h, slot_decode hk] at hslot
  apply UInt32.toNat_inj.mp
  rw [← Nat.div_add_mod index.toNat (2 ^ k), ← Nat.div_add_mod index'.toNat (2 ^ k), hpage, hslot]

/-- The number of a place that fits is below the number of all indices. -/
theorem number_lt (hk : k < 32) {place : Place} (h : place.Fits k) :
    place.page.toNat * 2 ^ k + place.slot < 2 ^ 32 := by
  have hpages := Nat.mul_le_mul_right (2 ^ k) (Nat.succ_le_of_lt h.page_lt)
  rw [Nat.succ_mul, ← Nat.pow_add, Nat.sub_add_cancel (Nat.le_of_lt hk)] at hpages
  have hslot := h.slot_lt
  omega

theorem fits_decode (hk : k < 32) (index : UInt32) :
    ((ofSlots (2 ^ k)).decode index).Fits k := by
  constructor
  · rw [page_decode hk, Nat.div_lt_iff_lt_mul (Nat.two_pow_pos k), ← Nat.pow_add,
      Nat.sub_add_cancel (Nat.le_of_lt hk)]
    exact index.toNat_lt
  · rw [slot_decode hk]
    exact Nat.mod_lt _ (Nat.two_pow_pos k)

theorem encode_decode (hk : k < 32) (index : UInt32) :
    (ofSlots (2 ^ k)).encode ((ofSlots (2 ^ k)).decode index) = index := by
  have hfits := fits_decode hk index
  apply UInt32.toNat_inj.mp
  rw [toNat_encode hk hfits.slot_lt (number_lt hk hfits), page_decode hk, slot_decode hk,
    Nat.div_add_mod']

/-- Numbers with a quotient and a remainder each are ordered by the quotient first. -/
theorem mul_add_lt_mul_add_iff {n p q i j : Nat} (hi : i < n) (hj : j < n) :
    p * n + i < q * n + j ↔ p < q ∨ p = q ∧ i < j := by
  have hnext : ∀ {p q : Nat}, p < q → p * n + n ≤ q * n := by
    intro p q h
    rw [← Nat.succ_mul]
    exact Nat.mul_le_mul_right n h
  rcases Nat.lt_trichotomy p q with h | rfl | h
  · have := hnext h
    omega
  · omega
  · have := hnext h
    omega

theorem encode_lt_iff (hk : k < 32) {place place' : Place} (h : place.Fits k)
    (h' : place'.Fits k) :
    (ofSlots (2 ^ k)).encode place < (ofSlots (2 ^ k)).encode place' ↔
      place.page < place'.page ∨ place.page = place'.page ∧ place.slot < place'.slot := by
  rw [UInt32.lt_iff_toNat_lt, toNat_encode hk h.slot_lt (number_lt hk h),
    toNat_encode hk h'.slot_lt (number_lt hk h'), mul_add_lt_mul_add_iff h.slot_lt h'.slot_lt,
    UInt32.lt_iff_toNat_lt, UInt32.toNat_inj]

/-- Pages with a power of two of slots are addressed without loss and in order. -/
theorem codes_ofSlots (hk : k < 32) : (ofSlots (2 ^ k)).Codes k where
  slots_eq := slots_ofSlots hk
  decode_encode _ h := decode_encode hk h.slot_lt (number_lt hk h)
  fits_decode := fits_decode hk
  encode_decode := encode_decode hk
  encode_lt_iff _ _ := encode_lt_iff hk

end Addressing

end RecordArena
