import RecordArena.Proofs.InPlace.Record
import RecordArena.Proofs.PaddedKey.Equality

/-!
# The content of a key

A key reads as some bytes when its buffer is these bytes and zeros behind them: then its content,
its characters and its ranges are theirs. Whatever the buffer was before, a key that is given a
source without zeros, the buffer of a padded key, or no bytes at all reads as that afterwards, and
its capacity is what it was. A key in a record is changed within its range alone.

## Main definitions

* `PaddedKey.Reads` – what a key answers that holds some bytes.
* `KeyChange` – the three ways in which the content of a key is replaced.

## Main statements

* `PaddedKey.WellPadded.reads` – a padded key reads as its content.
* `KeyChange.apply_isOk`, `KeyChange.Clean.reads` – a change is made when its source fits, and then
  the key reads as it.
* `PaddedKey.wrap_of_encodeTo` – the bytes of an encoded key are that key.
* `KeyChange.modifyKey_eq_ok` – a change in a record is one of the key in its range.
-/

namespace RecordArena

namespace PaddedKey

/-- The key holds `s`: its buffer is `s` and zeros behind it, and its content, its characters and
its ranges are those of `s`. -/
structure Reads (key : PaddedKey) (s : Bytes) : Prop where
  raw_eq : key.raw = padded s key.capacity
  content_eq : key.content = s
  len_eq : key.len = s.size
  charAt_eq : ∀ i, key.charAt i =
    if h : i < s.size then .ok (Char.ofUInt8 s[i]) else .error (.index i s.size)
  sub_eq : ∀ start stop, key.sub start stop =
    if start ≤ stop ∧ stop ≤ s.size then .ok (s.extract start stop)
    else .error (.index (if s.size < stop then stop else start) s.size)

variable {key key' : PaddedKey} {s : Bytes}

theorem WellPadded.reads (h : key.WellPadded) : key.Reads key.content where
  raw_eq := h
  content_eq := rfl
  len_eq := rfl
  charAt_eq := fun _ => rfl
  sub_eq := by
    intro start stop
    rw [sub, len]
    by_cases hstop : key.content.size < stop
    · rw [if_pos hstop, if_neg (by omega), if_pos hstop]
    · by_cases hstart : stop < start
      · rw [if_neg hstop, if_pos hstart, if_neg (by omega), if_neg hstop]
      · rw [if_neg hstop, if_neg hstart, if_pos (by omega)]

theorem Reads.wellPadded (h : key.Reads s) : key.WellPadded := by
  rw [WellPadded, h.content_eq]
  exact h.raw_eq

/-- A buffer of bytes without zeros and their padding reads as these bytes. -/
theorem reads_of_raw (hs : ∀ x ∈ s, x ≠ 0) (hraw : key.raw = padded s key.capacity) :
    key.Reads s := by
  obtain ⟨hpadded, hcontent⟩ := wellPadded_of_raw hs hraw
  have hreads := hpadded.reads
  rwa [hcontent] at hreads

/-- A fresh key reads as no bytes. -/
theorem reads_of_empty {capacity : Nat} (h : empty capacity = .ok key) : key.Reads #[] := by
  rw [empty] at h
  split at h
  · split at h
    · cases h
      apply reads_of_raw
      · simp
      · simp [padded, PaddedKey.capacity, Bytes.zeros]
    · cases h
  · cases h

/-- Bytes that are padded twice are padded to the larger capacity. -/
theorem padded_padded {m n : Nat} (hs : s.size ≤ m) (hm : m ≤ n) :
    padded (padded s m) n = padded s n := by
  have hzeros : Bytes.zeros (m - s.size) ++ Bytes.zeros (n - m) = Bytes.zeros (n - s.size) := by
    rw [Bytes.zeros, Bytes.zeros, Bytes.zeros, Array.replicate_append_replicate]
    congr 1
    omega
  rw [padded, size_padded hs, padded, Array.append_assoc, hzeros, padded]

theorem reset_eq_set (key : PaddedKey) : .ok key.reset = key.set #[] := by
  have hfit : (#[] : Bytes).size ≤ key.capacity := Nat.zero_le _
  rw [set, dif_pos hfit]
  apply congrArg
  apply ext_raw
  simp [reset, padded, capacity, Bytes.zero, Bytes.zeros]

theorem set_isOk {src : Bytes} : (∃ key', key.set src = .ok key') ↔ src.size ≤ key.capacity := by
  constructor
  · rintro ⟨key', h⟩
    exact (set_eq_ok h).1
  · intro hfit
    exact ⟨_, dif_pos hfit⟩

theorem wrap_raw (key : PaddedKey) : wrap key.raw = .ok key := dif_pos key.aligned

/-- Encoding writes the buffer at the front of a region and nothing behind it, and the bytes that
it wrote are the key again. -/
theorem wrap_of_encodeTo {dst dst' : Bytes} (h : key.encodeTo dst = .ok dst') :
    dst'.size = dst.size ∧ (∀ j, key.capacity ≤ j → dst'[j]? = dst[j]?) ∧
      wrap (dst'.extract 0 key.capacity) = .ok key := by
  rw [encodeTo] at h
  split at h
  · next hfit =>
    cases h
    refine ⟨Bytes.size_overwrite .., ?_, ?_⟩
    · intro j hj
      rw [Bytes.getElem?_overwrite, Array.length_toList, ← capacity, if_neg (by omega)]
    · have hfront : (dst.overwrite 0 key.raw.toList).extract 0 key.capacity = key.raw := by
        apply Array.ext_getElem?
        intro j
        rw [Array.getElem?_extract, Bytes.size_overwrite, Bytes.getElem?_overwrite,
          Array.length_toList, ← capacity, Nat.min_eq_left hfit, Nat.zero_add, Nat.sub_zero,
          Array.getElem?_toList]
        by_cases hj : j < key.capacity
        · rw [if_pos hj, if_pos (by omega)]
          rfl
        · rw [if_neg hj, Array.getElem?_eq_none (by rw [← capacity]; omega)]
      rw [hfront]
      exact wrap_raw key
  · cases h

theorem encodeTo_isOk {dst : Bytes} (hfit : key.capacity ≤ dst.size) :
    ∃ dst', key.encodeTo dst = .ok dst' :=
  ⟨_, if_pos hfit⟩

/-- Every key is equal to itself, also when it is not padded. -/
theorem beq_self (key : PaddedKey) : (key == key) = true :=
  (Bytes.paddedEq_iff_of_size_eq rfl).mpr rfl

end PaddedKey

/-- A replacement of the content of a key. -/
inductive KeyChange where
  /-- By bytes, with zeros behind them. -/
  | set (src : Bytes)
  /-- By the buffer of another key. -/
  | copy (other : PaddedKey)
  /-- By nothing. -/
  | reset

namespace KeyChange

def apply : KeyChange → PaddedKey → Except Error PaddedKey
  | .set src, key => key.set src
  | .copy other, key => key.setKey other
  | .reset, key => .ok key.reset

/-- The bytes that are copied into the buffer. -/
def source : KeyChange → Bytes
  | .set src => src
  | .copy other => other.raw
  | .reset => #[]

/-- The bytes that the key holds afterwards. -/
def content : KeyChange → Bytes
  | .set src => src
  | .copy other => other.content
  | .reset => #[]

/-- The source has no zeros but for its padding. -/
def Clean : KeyChange → Prop
  | .set src => ∀ x ∈ src, x ≠ 0
  | .copy other => other.WellPadded
  | .reset => True

variable {change : KeyChange} {key key' : PaddedKey}

theorem apply_eq_set (change : KeyChange) (key : PaddedKey) :
    change.apply key = key.set change.source := by
  cases change with
  | set src => rfl
  | copy other => rfl
  | reset => exact PaddedKey.reset_eq_set key

/-- A change is made exactly when its source fits into the buffer. -/
theorem apply_isOk :
    (∃ key', change.apply key = .ok key') ↔ change.source.size ≤ key.capacity := by
  rw [apply_eq_set]
  exact PaddedKey.set_isOk

theorem capacity_apply (h : change.apply key = .ok key') : key'.capacity = key.capacity := by
  rw [apply_eq_set] at h
  exact (PaddedKey.set_eq_ok h).2.1

namespace Clean

theorem content_ne_zero (h : change.Clean) : ∀ x ∈ change.content, x ≠ 0 := by
  cases change with
  | set src => exact h
  | copy other => exact fun x => PaddedKey.content_ne_zero
  | reset => simp [content]

theorem source_eq (h : change.Clean) :
    change.content.size ≤ change.source.size ∧
      change.source = PaddedKey.padded change.content change.source.size := by
  cases change with
  | set src => simp [source, content, PaddedKey.padded, Bytes.zeros]
  | copy other => exact ⟨other.len_le_capacity, h⟩
  | reset => simp [source, content, PaddedKey.padded, Bytes.zeros]

/-- Whatever the key held before, it reads as what the change put there. -/
theorem reads (hclean : change.Clean) (h : change.apply key = .ok key') :
    key'.Reads change.content := by
  rw [apply_eq_set] at h
  obtain ⟨hfit, hcapacity, hraw⟩ := PaddedKey.set_eq_ok h
  obtain ⟨hle, hsource⟩ := hclean.source_eq
  apply PaddedKey.reads_of_raw hclean.content_ne_zero
  rw [hraw, hsource, PaddedKey.padded_padded hle hfit, hcapacity]

end Clean

end KeyChange

namespace Bytes

variable {bytes bytes' : Bytes} {offset len : Nat}

/-- The key in a range depends on the bytes of the range alone. -/
theorem keySlice_congr (hsize : bytes'.size = bytes.size)
    (hrange : ∀ j, offset ≤ j → j < offset + len → bytes'[j]? = bytes[j]?) :
    bytes'.keySlice offset len = bytes.keySlice offset len := by
  have hend : bytes'.rangeEnd offset len = bytes.rangeEnd offset len := by
    rw [rangeEnd, rangeEnd, hsize]
  rw [keySlice, keySlice, slice, slice, hend]
  cases hstop : bytes.rangeEnd offset len with
  | error e => rfl
  | ok stop =>
    obtain ⟨rfl, -, -⟩ := rangeEnd_eq_ok.mp hstop
    have hextract : bytes'.extract offset (offset + len) = bytes.extract offset (offset + len) := by
      apply Array.ext_getElem?
      intro j
      rw [Array.getElem?_extract, Array.getElem?_extract, hsize]
      split
      · exact hrange _ (by omega) (by omega)
      · rfl
    rw [ok_bind, ok_bind]
    exact congrArg PaddedKey.wrap hextract

end Bytes

/-- A change of the key in a range of a record is found there again, and no other byte of the record
is changed. -/
theorem KeyChange.modifyKey_eq_ok {change : KeyChange} {bytes bytes' : Bytes} {offset len : Nat}
    (h : bytes.modifyKey offset len change.apply = .ok bytes') :
    bytes'.size = bytes.size ∧ (∀ j, ¬(offset ≤ j ∧ j < offset + len) → bytes'[j]? = bytes[j]?) ∧
      ∃ key key', bytes.keySlice offset len = .ok key ∧ change.apply key = .ok key' ∧
        bytes'.keySlice offset len = .ok key' := by
  obtain ⟨key, hkey, h⟩ := bind_eq_ok h
  obtain ⟨key', hchange, h⟩ := bind_eq_ok h
  cases h
  obtain ⟨hcount, hfit, hraw⟩ := Bytes.keySlice_eq_ok.mp hkey
  have hlen : key'.raw.size = len := by
    have hsize := congrArg Array.size hraw
    rw [Array.size_extract] at hsize
    have hcapacity : key'.raw.size = key.raw.size := capacity_apply hchange
    omega
  refine ⟨Bytes.size_overwrite .., ?_, key, key', hkey, hchange, ?_⟩
  · intro j hj
    rw [Bytes.getElem?_overwrite, Array.length_toList, hlen, if_neg (by omega)]
  · refine Bytes.keySlice_eq_ok.mpr ⟨hcount, (Bytes.size_overwrite ..).symm ▸ hfit, ?_⟩
    apply Array.ext_getElem?
    intro j
    rw [Array.getElem?_extract, Bytes.size_overwrite, Bytes.getElem?_overwrite,
      Array.length_toList, hlen, Array.getElem?_toList]
    by_cases hj : j < len
    · rw [if_pos (by omega), if_pos (by omega), Nat.add_sub_cancel_left]
    · rw [if_neg (by omega), Array.getElem?_eq_none (by omega)]

/-- A change of the key in a range is made exactly when it can be made of the key. -/
theorem KeyChange.modifyKey_isOk {change : KeyChange} {bytes : Bytes} {offset len : Nat}
    {key : PaddedKey} (hkey : bytes.keySlice offset len = .ok key) :
    (∃ bytes', bytes.modifyKey offset len change.apply = .ok bytes') ↔
      change.source.size ≤ key.capacity := by
  rw [← apply_isOk, Bytes.modifyKey, hkey, ok_bind]
  constructor
  · rintro ⟨bytes', h⟩
    obtain ⟨key', hchange, -⟩ := bind_eq_ok h
    exact ⟨key', hchange⟩
  · rintro ⟨key', hchange⟩
    rw [hchange]
    exact ⟨_, rfl⟩

end RecordArena
