import RecordArena.Numeric.PowerOfTwo

/-!
# Rounding to a binary precision

`roundToBits p n` is the number nearest to `n` that has at most `p` significant bits; of two
nearest numbers it is the one whose last kept bit is zero.
-/

namespace RecordArena.Numeric

/-- The multiple of `step` nearest to `n`, divided by `step`; a tie goes to the even quotient. -/
def roundQuotient (n step : Nat) : Nat :=
  let q := n / step
  let r := n % step
  if 2 * r < step then q
  else if step < 2 * r then q + 1
  else q + q % 2

/-- `n` rounded to `p` significant bits, ties to even. -/
def roundToBits (p n : Nat) : Nat :=
  if n < 2 ^ p then n
  else
    let step := 2 ^ (n.log2 + 1 - p)
    roundQuotient n step * step

end RecordArena.Numeric
