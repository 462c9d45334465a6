import RecordArena.Backing

/-!
# Rows of a block

A block is cut into rows of one flag byte followed by a payload of fixed width:

`[flag : 1][payload : width] [flag : 1][payload : width] ...`

A row is occupied when its flag is not zero. Vacating a row clears the flag alone, so the payload
keeps its last bytes until the row is written again or the block is cleared.

## Main statements

* `Rows.flagPosition_add_lt`, `Rows.flagPosition_add_inj` – rows lie inside the block and do not
  overlap.
* `Rows.isOccupied_setFlag`, `Rows.payload_setFlag` – a flag is written without touching payloads.
* `Rows.isOccupied_setPayload`, `Rows.payload_setPayload` – a payload is written without touching
  flags or other payloads.
-/

namespace RecordArena

structure Rows where
  count : Nat
  width : Nat
  block : Bytes
  size_block : block.size = count * (width + 1)

namespace Rows

/-- Bytes per row. -/
def stride (rows : Rows) : Nat := rows.width + 1

/-- The position of the flag of row `i`. -/
def flagPosition (rows : Rows) (i : Nat) : Nat := i * rows.stride

/-- The position of the payload of row `i`. -/
def payloadPosition (rows : Rows) (i : Nat) : Nat := rows.flagPosition i + 1

def vacant (count width : Nat) : Rows where
  count := count
  width := width
  block := Bytes.zeros (count * (width + 1))
  size_block := Array.size_replicate

/-- Vacant rows in a fresh block. -/
def allocate (backing : Backing) (count width : Nat) : Traced Rows := do
  backing.reserve (count * (width + 1))
  pure (vacant count width)

/-- Whether row `i` is occupied; there are no rows past the last one. -/
def isOccupied (rows : Rows) (i : Nat) : Bool :=
  rows.block.getD (rows.flagPosition i) 0 != 0

def payload (rows : Rows) (i : Nat) : Bytes :=
  rows.block.extract (rows.payloadPosition i) (rows.payloadPosition i + rows.width)

def setFlag (rows : Rows) (i : Nat) (flag : UInt8) : Rows :=
  { rows with
    block := rows.block.setIfInBounds (rows.flagPosition i) flag
    size_block := by rw [Array.size_setIfInBounds, rows.size_block] }

/-- Replaces the front of the payload of row `i` by `src`, of which no more than a payload is
written. -/
def setPayload (rows : Rows) (i : Nat) (src : Bytes) : Rows :=
  { rows with
    block := rows.block.overwrite (rows.payloadPosition i) (src.toList.take rows.width)
    size_block := by rw [Bytes.size_overwrite, rows.size_block] }

def occupy (rows : Rows) (i : Nat) : Rows := rows.setFlag i 1

/-- Marks row `i` as vacant; its payload stays. -/
def vacate (rows : Rows) (i : Nat) : Rows := rows.setFlag i 0

def clear (rows : Rows) : Rows :=
  { rows with
    block := rows.block.zero
    size_block := by rw [Bytes.size_zero, rows.size_block] }

theorem stride_pos (rows : Rows) : 0 < rows.stride := Nat.succ_pos _

theorem flagPosition_inj {rows : Rows} {i j : Nat} :
    rows.flagPosition i = rows.flagPosition j ↔ i = j :=
  Nat.mul_left_inj (Nat.pos_iff_ne_zero.mp rows.stride_pos)

/-- Every byte of a row lies inside the block. -/
theorem flagPosition_add_lt {rows : Rows} {i k : Nat} (hi : i < rows.count)
    (hk : k < rows.stride) : rows.flagPosition i + k < rows.block.size := by
  have h : (i + 1) * rows.stride ≤ rows.count * rows.stride := Nat.mul_le_mul_right _ hi
  rw [rows.size_block]
  simp only [flagPosition, stride, Nat.add_mul, Nat.one_mul] at *
  omega

/-- Bytes of different rows lie at different positions. -/
theorem flagPosition_add_inj {rows : Rows} {i j k l : Nat} (hk : k < rows.stride)
    (hl : l < rows.stride) (h : rows.flagPosition i + k = rows.flagPosition j + l) :
    i = j ∧ k = l := by
  have hi : (rows.flagPosition i + k) / rows.stride = i := by
    rw [flagPosition, Nat.mul_comm, Nat.mul_add_div rows.stride_pos, Nat.div_eq_of_lt hk,
      Nat.add_zero]
  have hj : (rows.flagPosition j + l) / rows.stride = j := by
    rw [flagPosition, Nat.mul_comm, Nat.mul_add_div rows.stride_pos, Nat.div_eq_of_lt hl,
      Nat.add_zero]
  have hij : i = j := by rw [← hi, h, hj]
  subst hij
  exact ⟨rfl, by omega⟩

theorem size_payload {rows : Rows} {i : Nat} (hi : i < rows.count) :
    (rows.payload i).size = rows.width := by
  have := flagPosition_add_lt hi (Nat.lt_succ_self rows.width)
  simp only [payload, payloadPosition, Array.size_extract]
  omega

/-- The bytes of a payload, read at their positions in the block. -/
theorem getElem?_payload {rows : Rows} {i : Nat} (hi : i < rows.count) (k : Nat) :
    (rows.payload i)[k]? =
      if k < rows.width then rows.block[rows.flagPosition i + (k + 1)]? else none := by
  have := flagPosition_add_lt hi (Nat.lt_succ_self rows.width)
  rw [payload, payloadPosition, Array.getElem?_extract, Nat.min_eq_left (by omega),
    Nat.add_sub_cancel_left, Nat.add_assoc, Nat.add_comm 1]

theorem isOccupied_setFlag {rows : Rows} {i : Nat} (hi : i < rows.count) (flag : UInt8) (j : Nat) :
    (rows.setFlag i flag).isOccupied j = if i = j then flag != 0 else rows.isOccupied j := by
  have hb : rows.flagPosition i < rows.block.size := flagPosition_add_lt hi rows.stride_pos
  simp only [isOccupied, Array.getD_eq_getD_getElem?]
  change ((rows.block.setIfInBounds (rows.flagPosition i) flag)[rows.flagPosition j]?.getD 0 != 0)
    = _
  rw [Array.getElem?_setIfInBounds]
  by_cases h : i = j
  · subst h
    rw [if_pos rfl, if_pos rfl, if_pos hb]
    rfl
  · rw [if_neg h, if_neg (fun e => h (flagPosition_inj.mp e))]

theorem payload_setFlag {rows : Rows} (i : Nat) (flag : UInt8) {j : Nat} (hj : j < rows.count) :
    (rows.setFlag i flag).payload j = rows.payload j := by
  apply Array.ext_getElem?
  intro k
  rw [getElem?_payload (show j < (rows.setFlag i flag).count from hj), getElem?_payload hj]
  change (if k < rows.width then (rows.block.setIfInBounds (rows.flagPosition i) flag)[
    rows.flagPosition j + (k + 1)]? else none) = _
  by_cases hk : k < rows.width
  · rw [if_pos hk, if_pos hk, Array.getElem?_setIfInBounds, if_neg]
    intro h
    have := flagPosition_add_inj (k := 0) rows.stride_pos (Nat.succ_lt_succ hk) h
    omega
  · rw [if_neg hk, if_neg hk]

/-- A row's payload is written between its flag and the flag of the next row. -/
theorem getElem?_setPayload {rows : Rows} {i : Nat} (src : Bytes) {j k : Nat}
    (hj : j < rows.count) (hk : k < rows.stride) :
    (rows.setPayload i src).block[rows.flagPosition j + k]? =
      if i = j ∧ 0 < k ∧ k ≤ src.size then src[k - 1]?
      else rows.block[rows.flagPosition j + k]? := by
  have hb := flagPosition_add_lt hj hk
  have hkw : k ≤ rows.width := Nat.le_of_lt_succ hk
  simp only [setPayload, Bytes.getElem?_overwrite, payloadPosition, List.length_take,
    Array.length_toList]
  by_cases hij : i = j
  · subst hij
    by_cases h : 0 < k ∧ k ≤ src.size
    · rw [if_pos (by omega), if_pos ⟨rfl, h⟩]
      have : rows.flagPosition i + k - (rows.flagPosition i + 1) = k - 1 := by omega
      rw [this, List.getElem?_take_of_lt (by omega), Array.getElem?_toList]
    · rw [if_neg (by omega), if_neg (by omega)]
  · rw [if_neg, if_neg (fun h => hij h.1)]
    intro h
    have he : rows.flagPosition i + (rows.flagPosition j + k - rows.flagPosition i)
        = rows.flagPosition j + k := by omega
    exact hij (flagPosition_add_inj (by simp only [stride]; omega) hk he).1

theorem isOccupied_setPayload {rows : Rows} (i : Nat) (src : Bytes) {j : Nat}
    (hj : j < rows.count) : (rows.setPayload i src).isOccupied j = rows.isOccupied j := by
  have h := getElem?_setPayload (i := i) src hj rows.stride_pos
  rw [if_neg (by omega), Nat.add_zero] at h
  simp only [isOccupied, Array.getD_eq_getD_getElem?]
  change ((rows.setPayload i src).block[rows.flagPosition j]?.getD 0 != 0) = _
  rw [h]

theorem payload_setPayload {rows : Rows} (i : Nat) {src : Bytes} (hs : src.size = rows.width)
    {j : Nat} (hj : j < rows.count) :
    (rows.setPayload i src).payload j = if i = j then src else rows.payload j := by
  apply Array.ext_getElem?
  intro k
  rw [getElem?_payload (show j < (rows.setPayload i src).count from hj)]
  change (if k < rows.width then (rows.setPayload i src).block[
    rows.flagPosition j + (k + 1)]? else none) = _
  by_cases hk : k < rows.width
  · rw [if_pos hk, getElem?_setPayload src hj (Nat.succ_lt_succ hk)]
    by_cases hij : i = j
    · rw [if_pos hij, if_pos ⟨hij, by omega, by omega⟩, Nat.succ_sub_one]
    · rw [if_neg hij, if_neg (fun h => hij h.1), getElem?_payload hj, if_pos hk]
  · rw [if_neg hk]
    by_cases hij : i = j
    · rw [if_pos hij, Array.getElem?_eq_none (by omega)]
    · rw [if_neg hij, getElem?_payload hj, if_neg hk]

end Rows

end RecordArena
