import Mathlib.Algebra.Group.Nat.Defs
import RecordArena.Proofs.Outcome
import RecordArena.Rows

/-!
# Blocks within reach

A region that is no longer than its backing provides is always there, and the rows of a fresh or
cleared block are vacant.

## Main statements

* `Rows.allocate_of_le` – a block within the limit of its backing is allocated.
* `Rows.isOccupied_vacant`, `Rows.isOccupied_clear` – its rows are vacant.
-/

namespace RecordArena

namespace Backing

/-- The longest region of a backing. -/
def limit : Backing → Nat
  | heap => heapLimit
  | mapped limit => limit.bytes

theorem limit_lt (backing : Backing) : backing.limit < 2 ^ 63 := by
  cases backing with
  | heap => decide
  | mapped limit => exact limit.bytes_lt

theorem reserve_eq_pure {backing : Backing} {len : Nat} (h : len ≤ backing.limit) :
    backing.reserve len = pure () := by
  cases backing with
  | heap => exact if_pos h
  | mapped limit => exact if_pos h

/-- A region that is not there is a fault, never a refusal. -/
theorem reserve_of_lt {backing : Backing} {len : Nat} (h : backing.limit < len) :
    (backing.reserve len).outcome = .error (.faulted (.unallocatable len)) := by
  cases backing with
  | heap =>
    have hlen : ¬ len ≤ heapLimit := Nat.not_le.mpr h
    rw [reserve, if_neg hlen]
    rfl
  | mapped limit =>
    have hlen : ¬ len ≤ limit.bytes := Nat.not_le.mpr h
    rw [reserve, if_neg hlen]
    rfl

end Backing

namespace Rows

theorem allocate_eq_pure {backing : Backing} {count width : Nat}
    (h : count * (width + 1) ≤ backing.limit) :
    allocate backing count width = pure (vacant count width) := by
  rw [allocate, Backing.reserve_eq_pure h, pure_bind]

theorem allocate_of_le {backing : Backing} {count width : Nat}
    (h : count * (width + 1) ≤ backing.limit) :
    (allocate backing count width).outcome = .ok (vacant count width) := by
  rw [allocate_eq_pure h, Traced.outcome_pure]

theorem allocate_of_lt {backing : Backing} {count width : Nat}
    (h : backing.limit < count * (width + 1)) : (allocate backing count width).outcome =
      .error (.faulted (.unallocatable (count * (width + 1)))) := by
  rw [allocate, Traced.outcome_bind, Backing.reserve_of_lt h]
  rfl

theorem isOccupied_of_zeros {rows : Rows} {len : Nat} (h : rows.block = Bytes.zeros len)
    (i : Nat) : rows.isOccupied i = false := by
  rw [isOccupied, h, Bytes.zeros, Array.getD_eq_getD_getElem?, Array.getElem?_replicate]
  split <;> rfl

theorem isOccupied_vacant (count width i : Nat) : (vacant count width).isOccupied i = false :=
  isOccupied_of_zeros rfl i

theorem isOccupied_clear (rows : Rows) (i : Nat) : rows.clear.isOccupied i = false :=
  isOccupied_of_zeros rfl i

end Rows

end RecordArena
