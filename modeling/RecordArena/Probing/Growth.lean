import RecordArena.Error
import RecordArena.Numeric.Count
import RecordArena.Numeric.PowerOfTwo
import RecordArena.Numeric.Rounding

/-!
# Table capacities

A table doubles its capacity when more entries are stored than its load factor allows. The limit
is the product of capacity and load factor, computed at double precision and truncated to an
unsigned 64-bit width.

## Main definitions

* `TableConfig.capacity` – the checked initial capacity.
* `resizeLimit` – the number of entries a capacity may hold.
* `grownCapacity` – the first doubling whose limit holds the entries.
-/

namespace RecordArena

open scoped Numeric

structure TableConfig where
  /-- Slots at the start; rounded up to a power of two. -/
  initialCapacity : Nat := 8
  /-- The share of slots in use above which the table grows. -/
  loadFactor : Binary32 := Binary32.half
  deriving DecidableEq, Repr

/-- Whether a number can be a load factor: at least `minLoadFactor` and below one. -/
def Binary32.isLoadFactor (f : Binary32) : Bool :=
  !f.isNegative && minLoadFactor.units ≤ f.units && f.units < Binary32.unitsPerOne

def maxInitialCapacity : Nat := 2 ^ (30 : Nat)

/-- The number of slots a table starts with. The load factor is checked first. -/
def TableConfig.capacity (config : TableConfig) : Except Error Nat :=
  if !config.loadFactor.isLoadFactor then
    .error (.configuration (.loadFactor config.loadFactor))
  else if maxInitialCapacity < config.initialCapacity then
    .error (.configuration (.initialCapacity config.initialCapacity))
  else .ok (Numeric.ceilPowerOfTwo config.initialCapacity)

def doublePrecision : Nat := 53

/-- The most entries a table of `capacity` slots may hold: the product with the load factor,
rounded to double precision, truncated and clamped to a count. -/
def resizeLimit (capacity : Nat) (factor : Binary32) : Nat :=
  if factor.isNaN || factor.isNegative then 0
  else if factor.isSpecial then (if capacity = 0 then 0 else Numeric.maxCount)
  else
    let slots := Numeric.roundToBits doublePrecision capacity
    let product := Numeric.roundToBits doublePrecision (slots * factor.units)
    min (product / Binary32.unitsPerOne) Numeric.maxCount

/-- The first of `capacity`, `2 * capacity`, ... whose limit holds `len`, after at most the given
number of doublings. -/
def firstHolding (len : Nat) (factor : Binary32) : (doublings : Nat) → (capacity : Nat) → Nat
  | 0, capacity => capacity
  | doublings + 1, capacity =>
    if resizeLimit capacity factor < len then firstHolding len factor doublings (2 * capacity)
    else capacity

/-- The capacity to move to once `len` has passed the limit of `capacity`; a count has 64 bits, so
64 doublings reach every one. -/
def grownCapacity (capacity len : Nat) (factor : Binary32) : Nat :=
  firstHolding len factor 64 (2 * capacity)

end RecordArena
