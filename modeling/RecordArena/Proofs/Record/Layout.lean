import RecordArena.Proofs.Outcome
import RecordArena.Record.Layout

/-!
# Keys of records

A validated layout has its key inside the record, so the key of every record can be read and has
the width of the layout.

## Main statements

* `RecordLayout.key_eq` – the key of a record.
* `RecordLayout.key?_eq`, `RecordLayout.checkedKey_eq` – the key of a view that may be too short.
-/

namespace RecordArena.RecordLayout

variable {layout : RecordLayout} {record : Bytes}

/-- The bytes of a record that hold its key. -/
def keyIn (layout : RecordLayout) (record : Bytes) : Bytes :=
  record.extract layout.keyOffset (layout.keyOffset + layout.keyLen)

theorem validate_eq_ok : layout.validate = .ok () ↔
    0 < layout.size ∧ layout.size ≤ maxRecordSize ∧ 0 < layout.keyLen ∧
      layout.keyOffset + layout.keyLen ≤ layout.size := by
  rw [validate]
  constructor
  · intro h
    split at h
    · cases h
    · split at h
      · cases h
      · omega
  · intro h
    rw [if_neg (by omega), if_neg (by omega)]

theorem size_keyIn (hvalid : layout.validate = .ok ()) (h : layout.size ≤ record.size) :
    (layout.keyIn record).size = layout.keyLen := by
  obtain ⟨-, -, -, hrange⟩ := validate_eq_ok.mp hvalid
  rw [keyIn, Array.size_extract]
  omega

/-- What holds a key of full width reaches to the end of the key. -/
theorem range_le_of_size_keyIn (hvalid : layout.validate = .ok ())
    (h : (layout.keyIn record).size = layout.keyLen) :
    layout.keyOffset + layout.keyLen ≤ record.size := by
  obtain ⟨-, -, hpos, -⟩ := validate_eq_ok.mp hvalid
  rw [keyIn, Array.size_extract] at h
  omega

/-- A record whose front is overwritten past its key has the key of the front. -/
theorem keyIn_overwrite {src : Bytes} (hkey : layout.keyOffset + layout.keyLen ≤ src.size)
    (hsize : src.size ≤ record.size) :
    layout.keyIn (record.overwrite 0 src.toList) = layout.keyIn src := by
  apply Array.ext_getElem?
  intro k
  rw [keyIn, keyIn, Array.getElem?_extract, Array.getElem?_extract, Bytes.size_overwrite,
    Nat.min_eq_left (Nat.le_trans hkey hsize), Nat.min_eq_left hkey, Nat.add_sub_cancel_left]
  by_cases hk : k < layout.keyLen
  · have hfront : 0 ≤ layout.keyOffset + k ∧
        layout.keyOffset + k < 0 + src.toList.length ∧ layout.keyOffset + k < record.size := by
      rw [Array.length_toList]
      omega
    rw [if_pos hk, if_pos hk, Bytes.getElem?_overwrite, if_pos hfront, Nat.sub_zero,
      Array.getElem?_toList]
  · rw [if_neg hk, if_neg hk]

theorem key_eq (hvalid : layout.validate = .ok ()) (h : layout.size ≤ record.size) :
    layout.key record = .ok (layout.keyIn record) := by
  obtain ⟨-, -, -, hrange⟩ := validate_eq_ok.mp hvalid
  rw [key, Bytes.read, if_pos (by omega)]
  rfl

theorem key?_eq (hvalid : layout.validate = .ok ()) (view : Bytes) :
    layout.key? view =
      .ok (if view.size < layout.size then none else some (layout.keyIn view)) := by
  rw [key?]
  split
  · rfl
  · next h =>
    rw [key_eq hvalid (by omega)]
    rfl

theorem checkedKey_eq (hvalid : layout.validate = .ok ()) (view : Bytes) :
    layout.checkedKey view =
      if view.size < layout.size then .error (.refused (.keyWidth layout.size view.size))
      else .ok (layout.keyIn view) := by
  rw [checkedKey]
  split
  · rfl
  · next h =>
    rw [key_eq hvalid (by omega)]
    rfl

end RecordArena.RecordLayout
