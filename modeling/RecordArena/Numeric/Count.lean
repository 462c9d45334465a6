import RecordArena.Numeric.PowerOfTwo

/-!
# Counts

Lengths, positions and capacities are unsigned 64-bit numbers. Sums that are used are checked; sums
that are only reported saturate at the largest one.
-/

namespace RecordArena.Numeric

def maxCount : Nat := 2 ^ (64 : Nat) - 1

/-- The sum of two counts, nothing when it is no count. -/
def checkedAdd (a b : Nat) : Option Nat := if a + b ≤ maxCount then some (a + b) else none

/-- The sum of two counts, at most the largest one. -/
def saturatingAdd (a b : Nat) : Nat := min (a + b) maxCount

end RecordArena.Numeric
