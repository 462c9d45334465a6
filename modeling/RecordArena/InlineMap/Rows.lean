import RecordArena.Probing.Slots
import RecordArena.Rows

/-!
# Rows as table slots

The rows of a block serve as the slots of a table whose entries are payloads. Moving an entry
copies the payload and vacates the old row, so no byte of the block is interpreted.
-/

namespace RecordArena

instance : Slots Rows Bytes where
  capacity rows := rows.count
  entryAt rows slot :=
    if slot < rows.count ∧ rows.isOccupied slot then some (rows.payload slot) else none
  store rows slot payload := (rows.occupy slot).setPayload slot payload
  vacate rows slot := rows.vacate slot

/-- Every payload of the width of a row can be stored. -/
instance : LawfulSlots Rows where
  Fits rows payload := payload.size = rows.width
  capacity_store _ _ _ := rfl
  capacity_vacate _ _ := rfl
  entryAt_store rows i j payload hi he := by
    change (if j < rows.count ∧ ((rows.occupy i).setPayload i payload).isOccupied j = true
      then some (((rows.occupy i).setPayload i payload).payload j) else none) =
      if i = j then some payload else
        if j < rows.count ∧ rows.isOccupied j = true then some (rows.payload j) else none
    by_cases hj : j < rows.count
    · have hj' : j < (rows.occupy i).count := hj
      have he' : payload.size = (rows.occupy i).width := he
      rw [Rows.isOccupied_setPayload i payload hj', Rows.payload_setPayload i he' hj', Rows.occupy,
        Rows.isOccupied_setFlag hi, Rows.payload_setFlag i 1 hj]
      by_cases hij : i = j
      · simp [hij, hj]
      · simp [hij, hj]
    · have hij : i ≠ j := fun h => hj (h ▸ hi)
      simp [hij, hj]
  entryAt_vacate rows i j hi := by
    change (if j < rows.count ∧ (rows.vacate i).isOccupied j = true
      then some ((rows.vacate i).payload j) else none) =
      if i = j then none else
        if j < rows.count ∧ rows.isOccupied j = true then some (rows.payload j) else none
    by_cases hj : j < rows.count
    · rw [Rows.vacate, Rows.isOccupied_setFlag hi, Rows.payload_setFlag i 0 hj]
      by_cases hij : i = j
      · simp [hij]
      · simp [hij, hj]
    · simp [hj]
  fits_entryAt rows i payload h := by
    change (if i < rows.count ∧ rows.isOccupied i = true then some (rows.payload i) else none) =
      some payload at h
    split at h
    · next hi => rw [← Option.some.inj h, Rows.size_payload hi.1]
    · simp at h
  fits_store _ _ _ _ := Iff.rfl
  fits_vacate _ _ _ := Iff.rfl

end RecordArena
