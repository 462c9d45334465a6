import Mathlib.Data.Int.ModEq
import Mathlib.Tactic.Positivity
import RecordArena.Proofs.Bytes.LittleEndian
import RecordArena.Proofs.InPlace.Record

/-!
# Fields of views

A field is a little-endian number in a range of bytes. Reading and writing fields obey the laws of a
store: a field reads back as it was written, other bytes stay as they are, and fields that share
bytes agree on them, whatever their types. A field that leaves the view is neither read nor written.

Numbers of ranges carry the laws. The number of a range is put together from those of its parts, so
a wide field is put together from narrow ones, and a field that overlaps another shows some of its
digits to the base 256.

## Main definitions

* `Bytes.numberAt` – the number in a range of bytes.
* `FieldType` – the types of fields, and the integers that their values are.
* `Bytes.combine` – the number of adjacent fields.
* `Bytes.LawfulFields` – the laws.

## Main statements

* `Bytes.numberAt_add`, `Bytes.numberAt_window` – numbers of parts.
* `Bytes.combine_eq` – adjacent fields have the number of their range.
* `Bytes.fields_lawful` – the laws hold in every view.
-/

namespace RecordArena

namespace Bytes

variable {b view : Bytes} {p q m n : Nat}

/-- The number in the `len` bytes from `start` on. -/
def numberAt (b : Bytes) (start len : Nat) : Nat :=
  LittleEndian.toNat (b.extract start (start + len)).toList

theorem length_extract (h : p + n ≤ b.size) : (b.extract p (p + n)).toList.length = n := by
  rw [Array.length_toList, Array.size_extract]
  omega

theorem numberAt_lt (h : p + n ≤ b.size) : b.numberAt p n < 256 ^ n := by
  have hlt := LittleEndian.toNat_lt (b.extract p (p + n)).toList
  rwa [length_extract h] at hlt

/-- The number of a range is put together from those of its two parts. -/
theorem numberAt_add (h : p + m ≤ b.size) (n : Nat) :
    b.numberAt p (m + n) = b.numberAt p m + 256 ^ m * b.numberAt (p + m) n := by
  have hsplit : b.extract p (p + (m + n)) =
      b.extract p (p + m) ++ b.extract (p + m) (p + m + n) := by
    rw [Array.extract_append_extract, Nat.min_eq_left (by omega), Nat.max_eq_right (by omega),
      Nat.add_assoc]
  rw [numberAt, hsplit, Array.toList_append, LittleEndian.toNat_append, length_extract h]
  rfl

theorem numberAt_one (h : p < b.size) : b.numberAt p 1 = b[p].toNat := by
  have hbyte : b.extract p (p + 1) = #[b[p]] := by grind
  rw [numberAt, hbyte]
  exact Nat.add_zero _

/-- Some bytes of a range are some digits of its number. -/
theorem numberAt_window {d : Nat} (h : p + n ≤ b.size) (hm : d + m ≤ n) :
    b.numberAt (p + d) m = b.numberAt p n / 256 ^ d % 256 ^ m := by
  obtain ⟨r, rfl⟩ := Nat.exists_eq_add_of_le hm
  have hlow := numberAt_lt (b := b) (p := p) (n := d) (by omega)
  have hmid := numberAt_lt (b := b) (p := p + d) (n := m) (by omega)
  rw [Nat.add_assoc d m r, numberAt_add (by omega), numberAt_add (by omega),
    Nat.add_mul_div_left _ _ (Nat.pow_pos (by decide)), Nat.div_eq_of_lt hlow, Nat.zero_add,
    Nat.add_mul_mod_self_left, Nat.mod_eq_of_lt hmid]

section

variable {α β : Type} [FixedWidth α] [FixedWidth β]

theorem getField_eq (view : Bytes) (p : Nat) :
    view.getField α p = if p + FixedWidth.width α ≤ view.size then
      .ok (FixedWidth.ofCode (view.numberAt p (FixedWidth.width α))) else .error .outOfRange := by
  rw [getField, read]
  split
  · rfl
  · rfl

theorem putField_eq (view : Bytes) (p : Nat) (v : α) :
    view.putField p v = if p + FixedWidth.width α ≤ view.size then
      .ok (view.overwrite p (FixedWidth.encode v).toList) else .error .outOfRange := by
  rw [putField, write, FixedWidth.size_encode]

/-- A field is the number of its range. -/
theorem code_getField {v : α} (h : view.getField α p = .ok v) :
    p + FixedWidth.width α ≤ view.size ∧
      FixedWidth.code v = view.numberAt p (FixedWidth.width α) := by
  rw [getField_eq] at h
  split at h
  · next hfit =>
    cases h
    refine ⟨hfit, ?_⟩
    rw [FixedWidth.code_ofCode, Nat.mod_eq_of_lt (numberAt_lt hfit)]
  · cases h

theorem getField_byte (view : Bytes) (p : Nat) : view.getField UInt8 p = view.byteAt p := by
  by_cases hp : p < view.size
  · have hget : view.getField UInt8 p = .ok (UInt8.ofNat (view.numberAt p 1)) :=
      (getField_eq view p).trans (if_pos hp)
    rw [hget, numberAt_one hp, UInt8.ofNat_toNat, byteAt, dif_pos hp]
  · rw [byteAt, dif_neg hp]
    exact (getField_eq view p).trans (if_neg hp)

theorem length_encode (v : α) : (FixedWidth.encode v).toList.length = FixedWidth.width α := by
  rw [Array.length_toList, FixedWidth.size_encode]

theorem getField_overwrite {v : α} (h : p + FixedWidth.width α ≤ view.size) :
    (view.overwrite p (FixedWidth.encode v).toList).getField α p = .ok v := by
  rw [← length_encode v] at h
  have hrange := extract_overwrite view h
  rw [length_encode, Array.toArray_toList] at hrange
  rw [length_encode] at h
  rw [getField, read, size_overwrite, if_pos h, hrange, ok_map, FixedWidth.decode_encode]

/-- Fields that share no byte can be written in either order. -/
theorem putField_comm (v : α) (w : β)
    (h : p + FixedWidth.width α ≤ q ∨ q + FixedWidth.width β ≤ p) :
    (do (← view.putField p v).putField q w) = (do (← view.putField q w).putField p v) := by
  rw [putField_eq, putField_eq view q w]
  by_cases hp : p + FixedWidth.width α ≤ view.size
  · by_cases hq : q + FixedWidth.width β ≤ view.size
    · rw [if_pos hp, if_pos hq, ok_bind, ok_bind, putField_eq, putField_eq, size_overwrite,
        size_overwrite, if_pos hp, if_pos hq, overwrite_comm]
      rwa [length_encode, length_encode]
    · rw [if_pos hp, if_neg hq, ok_bind, putField_eq, size_overwrite, if_neg hq]
      rfl
  · by_cases hq : q + FixedWidth.width β ≤ view.size
    · rw [if_neg hp, if_pos hq, ok_bind, putField_eq, size_overwrite, if_neg hp]
      rfl
    · rw [if_neg hp, if_neg hq]
      rfl

end

end Bytes

/-- The types of fields. -/
inductive FieldType where
  | u8
  | i16
  | u16
  | i32
  | u32
  | i64
  | u64
  deriving DecidableEq

namespace FieldType

def Value : FieldType → Type
  | u8 => UInt8
  | i16 => Int16
  | u16 => UInt16
  | i32 => Int32
  | u32 => UInt32
  | i64 => Int64
  | u64 => UInt64

instance (t : FieldType) : FixedWidth t.Value :=
  match t with
  | u8 => inferInstanceAs (FixedWidth UInt8)
  | i16 => inferInstanceAs (FixedWidth Int16)
  | u16 => inferInstanceAs (FixedWidth UInt16)
  | i32 => inferInstanceAs (FixedWidth Int32)
  | u32 => inferInstanceAs (FixedWidth UInt32)
  | i64 => inferInstanceAs (FixedWidth Int64)
  | u64 => inferInstanceAs (FixedWidth UInt64)

def width (t : FieldType) : Nat := FixedWidth.width t.Value

/-- The integer that a value is. -/
def toInt : (t : FieldType) → t.Value → Int
  | u8, v => UInt8.toNat v
  | i16, v => Int16.toInt v
  | u16, v => UInt16.toNat v
  | i32, v => Int32.toInt v
  | u32, v => UInt32.toNat v
  | i64, v => Int64.toInt v
  | u64, v => UInt64.toNat v

def signed : FieldType → Bool
  | i16 | i32 | i64 => true
  | u8 | u16 | u32 | u64 => false

/-- The pattern of an integer in two's complement is the integer modulo the number of patterns. -/
theorem toInt_emod {n : Nat} (x : BitVec n) : x.toInt % 2 ^ n = x.toNat := by
  have hcast : (2 ^ n : Int) = ((2 ^ n : Nat) : Int) := by norm_cast
  rw [BitVec.toInt_eq_toNat_bmod, hcast, Int.bmod_emod]
  exact Int.emod_eq_of_lt (Int.natCast_nonneg _) (Int.ofNat_lt.mpr x.isLt)

theorem code_emod {α : Type} [FixedWidth α] (v : α) :
    (FixedWidth.code v : Int) % 256 ^ FixedWidth.width α = FixedWidth.code v := by
  apply Int.emod_eq_of_lt (Int.natCast_nonneg _)
  exact_mod_cast FixedWidth.code_lt v

/-- The code of a value is its integer, of which the bytes of the type are kept. -/
theorem code_eq (t : FieldType) (v : t.Value) :
    (FixedWidth.code v : Int) = t.toInt v % 256 ^ t.width := by
  cases t with
  | u8 => exact (code_emod (α := UInt8) v).symm
  | u16 => exact (code_emod (α := UInt16) v).symm
  | u32 => exact (code_emod (α := UInt32) v).symm
  | u64 => exact (code_emod (α := UInt64) v).symm
  | i16 => exact (toInt_emod (Int16.toBitVec v)).symm
  | i32 => exact (toInt_emod (Int32.toBitVec v)).symm
  | i64 => exact (toInt_emod (Int64.toBitVec v)).symm

/-- The integer of the type that has the digits. Of a signed type the upper half is negative. -/
def ofDigits (t : FieldType) (digits : Int) : Int :=
  if t.signed then digits.bmod (256 ^ t.width) else digits

/-- A value is known from its digits. -/
theorem ofDigits_toInt (t : FieldType) (v : t.Value) :
    t.ofDigits (t.toInt v % 256 ^ t.width) = t.toInt v := by
  cases t with
  | u8 => exact code_emod (α := UInt8) v
  | u16 => exact code_emod (α := UInt16) v
  | u32 => exact code_emod (α := UInt32) v
  | u64 => exact code_emod (α := UInt64) v
  | i16 => exact (Int.emod_bmod _ (256 ^ 2)).trans (BitVec.toInt_bmod_cancel (Int16.toBitVec v))
  | i32 => exact (Int.emod_bmod _ (256 ^ 4)).trans (BitVec.toInt_bmod_cancel (Int32.toBitVec v))
  | i64 => exact (Int.emod_bmod _ (256 ^ 8)).trans (BitVec.toInt_bmod_cancel (Int64.toBitVec v))

theorem width_bounds (t : FieldType) : 0 < t.width ∧ t.width ≤ 8 := by
  cases t
  all_goals decide

end FieldType

/-- Digits of what is kept of an integer are digits of the integer. -/
theorem emod_ediv_emod (x : Int) {d m n : Nat} (h : d + m ≤ n) :
    x % 256 ^ n / 256 ^ d % 256 ^ m = x / 256 ^ d % 256 ^ m := by
  obtain ⟨r, rfl⟩ := Nat.exists_eq_add_of_le h
  have hpos : (256 : Int) ^ d ≠ 0 := by positivity
  have hkept : x % 256 ^ (d + m + r) =
      x - 256 ^ d * (256 ^ m * (256 ^ r * (x / 256 ^ (d + m + r)))) := by
    rw [Int.emod_def, pow_add, pow_add, mul_assoc, mul_assoc]
  rw [hkept, Int.sub_mul_ediv_left _ _ hpos, Int.sub_mul_emod_self_left]

namespace Bytes

variable {view : Bytes} {p q : Nat} {t u : FieldType} {v : t.Value} {w : u.Value}

/-- The number of fields that follow one another from a position on. Each gives the digits of its
bytes, whether it is signed or not. -/
def combine (view : Bytes) : List FieldType → (position : Nat) → Except Fault Int
  | [], _ => pure 0
  | t :: ts, position => do
    let v ← view.getField t.Value position
    let rest ← view.combine ts (position + t.width)
    pure (t.toInt v % 256 ^ t.width + 256 ^ t.width * rest)

/-- The bytes from one position of 64 bits up to another. -/
def between (view : Bytes) (start stop : UInt64) : Except Fault Bytes :=
  if start ≤ stop ∧ stop.toNat ≤ view.size then .ok (view.extract start.toNat stop.toNat)
  else .error .outOfRange

theorem between_add (hview : view.size ≤ Numeric.maxCount) {len : Nat} (hlen : len ≤ 8)
    (start : UInt64) :
    view.between start (start + UInt64.ofNat len) = view.read start.toNat len := by
  have hlen' : (UInt64.ofNat len).toNat = len :=
    UInt64.toNat_ofNat_of_lt' (Nat.lt_of_le_of_lt hlen (by decide))
  have hstop : (start + UInt64.ofNat len).toNat = (start.toNat + len) % 2 ^ 64 := by
    rw [UInt64.toNat_add, hlen']
  have hlt := start.toNat_lt
  rw [Numeric.maxCount] at hview
  rw [between, read]
  by_cases hfit : start.toNat + len ≤ view.size
  · rw [Nat.mod_eq_of_lt (by omega)] at hstop
    have hle : start ≤ start + UInt64.ofNat len := by
      rw [UInt64.le_iff_toNat_le, hstop]
      exact Nat.le_add_right _ _
    rw [if_pos ⟨hle, hstop.trans_le hfit⟩, if_pos hfit, hstop]
  · -- the sum is past the end, or it wraps to before its start
    have hout : ¬ (start ≤ start + UInt64.ofNat len ∧
        (start + UInt64.ofNat len).toNat ≤ view.size) := by
      rw [UInt64.le_iff_toNat_le, hstop]
      omega
    rw [if_neg hout, if_neg hfit]

/-- All accesses to fields of a view, of any types and at any positions. -/
structure LawfulFields (view : Bytes) : Prop where
  /-- A field can be read exactly when it lies within the view. -/
  get_iff : ∀ (t : FieldType) p,
    (∃ v, view.getField t.Value p = .ok v) ↔ p + t.width ≤ view.size
  get_outside : ∀ (t : FieldType) p, view.size < p + t.width →
    view.getField t.Value p = .error .outOfRange
  /-- A field that lies within the view is written, reads back, and changes no other byte. -/
  put_within : ∀ (t : FieldType) p (v : t.Value), p + t.width ≤ view.size →
    ∃ written, view.putField p v = .ok written ∧ InPlace.putField p v view = (pure (), written) ∧
      written.getField t.Value p = .ok v ∧ written.size = view.size ∧
      ∀ i, i < p ∨ p + t.width ≤ i → written[i]? = view[i]?
  /-- A field that leaves the view is not written, not even in part. -/
  put_outside : ∀ (t : FieldType) p (v : t.Value), view.size < p + t.width →
    view.putField p v = .error .outOfRange ∧
      InPlace.putField p v view = (Traced.fail (.faulted .outOfRange), view)
  /-- With positions of 64 bits, an end that wraps does not pass for one within the view. -/
  wrapped : view.size ≤ Numeric.maxCount → ∀ (t : FieldType) (p : UInt64),
    view.between p (p + UInt64.ofNat t.width) = view.read p.toNat t.width
  /-- Fields that share no byte can be written in either order. -/
  put_comm : ∀ (t u : FieldType) p q (v : t.Value) (w : u.Value),
    p + t.width ≤ q ∨ q + u.width ≤ p →
      (do (← view.putField p v).putField q w) = (do (← view.putField q w).putField p v)
  /-- A byte is its own field. -/
  get_byte : ∀ p, view.getField UInt8 p = view.byteAt p
  /-- Fields of one width at one position are equal modulo the number of patterns. -/
  same_width : ∀ (t u : FieldType) p v w, t.width = u.width →
    view.getField t.Value p = .ok v → view.getField u.Value p = .ok w →
      t.toInt v ≡ u.toInt w [ZMOD 256 ^ t.width]
  /-- Fields that overlap have the same digits in the bytes that they share. -/
  overlap : ∀ (t u : FieldType) p q v w, p ≤ q → q < p + t.width →
    view.getField t.Value p = .ok v → view.getField u.Value q = .ok w →
      t.toInt v / 256 ^ (q - p) ≡ u.toInt w [ZMOD 256 ^ min (p + t.width - q) u.width]
  /-- A wide field is put together from the narrow ones that cover it. -/
  combine : ∀ (t : FieldType) ts p, (ts.map FieldType.width).sum = t.width →
    t.toInt <$> view.getField t.Value p = t.ofDigits <$> view.combine ts p
  /-- A view that is open for changes shows the same fields. -/
  get_in_place : ∀ (t : FieldType) p,
    InPlace.getField t.Value p view = (liftM (view.getField t.Value p), view)

/-- A field within the view has the digits of its range, and there are no others. -/
theorem getField_cases (view : Bytes) (t : FieldType) (p : Nat) :
    (p + t.width ≤ view.size ∧ ∃ v, view.getField t.Value p = .ok v ∧
      t.toInt v % 256 ^ t.width = view.numberAt p t.width) ∨
    (view.size < p + t.width ∧ view.getField t.Value p = .error .outOfRange) := by
  have hget := getField_eq (α := t.Value) view p
  by_cases hfit : p + t.width ≤ view.size
  · have hread := hget.trans (if_pos hfit)
    refine .inl ⟨hfit, _, hread, ?_⟩
    rw [← t.code_eq, (code_getField hread).2]
    rfl
  · exact .inr ⟨Nat.lt_of_not_le hfit, hget.trans (if_neg hfit)⟩

theorem toInt_getField (h : view.getField t.Value p = .ok v) :
    p + t.width ≤ view.size ∧ t.toInt v % 256 ^ t.width = view.numberAt p t.width := by
  rcases view.getField_cases t p with ⟨hfit, v', hget, hdigits⟩ | ⟨-, hget⟩
  · cases h.symm.trans hget
    exact ⟨hfit, hdigits⟩
  · cases h.symm.trans hget

/-- Adjacent fields have the number of their range. -/
theorem combine_eq {ts : List FieldType} (h : p ≤ view.size ∨ ts ≠ []) :
    view.combine ts p = if p + (ts.map FieldType.width).sum ≤ view.size then
      .ok (view.numberAt p (ts.map FieldType.width).sum : Int) else .error .outOfRange := by
  induction ts generalizing p with
  | nil =>
    have hp : p ≤ view.size := h.resolve_right (not_not_intro rfl)
    have hzero : view.numberAt p 0 = 0 := Nat.lt_one_iff.mp (numberAt_lt (n := 0) hp)
    rw [combine, List.map_nil, List.sum_nil, Nat.add_zero, if_pos hp, hzero]
    rfl
  | cons t ts ih =>
    rw [combine, List.map_cons, List.sum_cons]
    rcases view.getField_cases t p with ⟨hfit, v, hget, hdigits⟩ | ⟨hleaves, hget⟩
    · rw [hget, ok_bind, ih (.inl hfit), Nat.add_assoc p]
      split
      · rw [numberAt_add hfit, ok_bind, hdigits]
        push_cast
        rfl
      · rfl
    · rw [hget, if_neg (by omega)]
      rfl

theorem overlap {d m : Nat} (hget : view.getField t.Value p = .ok v)
    (hget' : view.getField u.Value (p + d) = .ok w) (hm : d + m ≤ t.width) (hm' : m ≤ u.width) :
    t.toInt v / 256 ^ d ≡ u.toInt w [ZMOD 256 ^ m] := by
  obtain ⟨hfit, hdigits⟩ := toInt_getField hget
  obtain ⟨hfit', hdigits'⟩ := toInt_getField hget'
  have hwindow := numberAt_window hfit hm
  have hwindow' := numberAt_window (d := 0) hfit' (by omega : 0 + m ≤ u.width)
  rw [Nat.add_zero, hwindow, Nat.pow_zero, Nat.div_one] at hwindow'
  calc t.toInt v / 256 ^ d % 256 ^ m
      = t.toInt v % 256 ^ t.width / 256 ^ d % 256 ^ m := (emod_ediv_emod _ hm).symm
    _ = ((view.numberAt p t.width / 256 ^ d % 256 ^ m : Nat) : Int) := by
        rw [hdigits]
        push_cast
        rfl
    _ = ((view.numberAt (p + d) u.width % 256 ^ m : Nat) : Int) := by rw [hwindow']
    _ = u.toInt w % 256 ^ u.width % 256 ^ m := by
        rw [hdigits']
        push_cast
        rfl
    _ = u.toInt w % 256 ^ m := Int.emod_emod_of_dvd _ (pow_dvd_pow _ hm')

/-- Fields that cover a wide one give its digits, and so its value. -/
theorem combine_covering {ts : List FieldType} (hsum : (ts.map FieldType.width).sum = t.width) :
    t.toInt <$> view.getField t.Value p = t.ofDigits <$> view.combine ts p := by
  have hne : ts ≠ [] := by
    rintro rfl
    exact absurd hsum (Nat.ne_of_lt t.width_bounds.1)
  rw [combine_eq (.inr hne), hsum]
  rcases view.getField_cases t p with ⟨hfit, v, hget, hdigits⟩ | ⟨hleaves, hget⟩
  · rw [hget, if_pos hfit, ok_map, ok_map, ← hdigits, t.ofDigits_toInt]
  · rw [hget, if_neg (Nat.not_le.mpr hleaves), error_map, error_map]

/-- Fields obey the laws of a store. -/
theorem fields_lawful (view : Bytes) : view.LawfulFields where
  get_iff t p := by
    rcases view.getField_cases t p with ⟨hfit, v, hget, -⟩ | ⟨hleaves, hget⟩
    · exact iff_of_true ⟨v, hget⟩ hfit
    · refine iff_of_false ?_ (Nat.not_le.mpr hleaves)
      rintro ⟨v, hv⟩
      cases hget.symm.trans hv
  get_outside t p hleaves := by
    rcases view.getField_cases t p with ⟨hfit, -⟩ | ⟨-, hget⟩
    · exact absurd hfit (Nat.not_le.mpr hleaves)
    · exact hget
  put_within t p v hfit := by
    refine ⟨_, (putField_eq view p v).trans (if_pos hfit),
      (InPlace.putField_eq p v view).trans (if_pos hfit), getField_overwrite hfit,
      size_overwrite _ _ _, fun i hi => ?_⟩
    have hlen : (FixedWidth.encode v).toList.length = t.width := length_encode v
    rw [getElem?_overwrite, if_neg (by omega)]
  put_outside t p v hleaves := by
    have hout := Nat.not_le.mpr hleaves
    exact ⟨(putField_eq view p v).trans (if_neg hout),
      (InPlace.putField_eq p v view).trans (if_neg hout)⟩
  wrapped hview t p := between_add hview t.width_bounds.2 p
  put_comm t u p q v w h := putField_comm v w h
  get_byte := getField_byte view
  same_width t u p v w hwidth hget hget' := by
    have hdigits := (toInt_getField hget).2
    have hdigits' := (toInt_getField hget').2
    rw [← hwidth] at hdigits'
    exact hdigits.trans hdigits'.symm
  overlap t u p q v w hle hlt hget hget' := by
    obtain ⟨d, rfl⟩ := Nat.exists_eq_add_of_le hle
    rw [Nat.add_sub_cancel_left]
    exact overlap hget hget' (by omega) (by omega)
  combine t ts p hsum := combine_covering hsum
  get_in_place t p := InPlace.getField_eq t.Value p view

-- two bytes, and the signed field that they are
example : getField Int16 #[0xFE, 0xFF] 0 = .ok (-2) := by rfl

end Bytes

end RecordArena
