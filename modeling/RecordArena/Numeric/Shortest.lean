import RecordArena.Numeric.Binary32

/-!
# Shortest decimal text of single-precision numbers

The text of a finite number has the fewest digits that read back as the same number. The numbers
that read back are those between the midpoints to the two neighbours, midpoints included when the
significand is even. The coarsest decimal grid with a point in that interval gives the digits: one
of the two grid points next to the value lies in it whenever any does. The nearer of two such
points is taken, and the upper one of an exact tie.

The notation is positional: no exponent, and no point in a whole number.
-/

namespace RecordArena.Binary32

open scoped Numeric

structure Decimal where
  digits : Nat
  power : Int

/-- Magnitudes in quarters of a unit, so that midpoints between neighbours are whole. -/
structure Interval where
  low : Nat
  value : Nat
  high : Nat
  /-- Whether the ends belong to the interval. -/
  closed : Bool

/-- The magnitudes that read back as `f`. Below a power of two the neighbour is half as far. -/
def readBack (f : Binary32) : Interval :=
  let gap := 2 ^ f.exponent
  let below := if f.fractionField = 0 ∧ 1 < f.exponentField then gap else 2 * gap
  { low := 4 * f.units - below
    value := 4 * f.units
    high := 4 * f.units + 2 * gap
    closed := f.significand % 2 = 0 }

def Interval.contains (i : Interval) (numerator denominator : Nat) : Bool :=
  if i.closed then
    i.low * denominator ≤ numerator && numerator ≤ i.high * denominator
  else
    i.low * denominator < numerator && numerator < i.high * denominator

/-- The point of the grid `10 ^ power` that stands for the interval, if one of the two points next
to the value lies in it. -/
def Interval.onGrid (i : Interval) (power : Int) : Option Decimal :=
  -- a grid point `d` is `d * step / denominator` quarters of a unit
  let step := 4 * unitsPerOne * 10 ^ power.toNat
  let denominator := 10 ^ (-power).toNat
  let lower := i.value * denominator / step
  let upper := lower + 1
  let lowerFits := i.contains (lower * step) denominator
  let upperFits := i.contains (upper * step) denominator
  let twice := 2 * (i.value * denominator)
  if lowerFits && (!upperFits || twice < (lower + upper) * step) then some ⟨lower, power⟩
  else if upperFits then some ⟨upper, power⟩
  else none

/-- The powers of ten of the grids, coarsest first: every magnitude is below `10 ^ 39`, and nine
digits tell any two apart. -/
def gridPowers : List Int := (List.range 93).map fun (i : Nat) => 39 - (i : Int)

/-- The shortest decimal that reads back as the nonzero magnitude of `f`. -/
def shortest (f : Binary32) : Decimal :=
  (gridPowers.findSome? f.readBack.onGrid).getD ⟨0, 0⟩

def Decimal.text (d : Decimal) : String :=
  let digits := toString d.digits
  let places := (-d.power).toNat
  if places = 0 then digits.pushn '0' d.power.toNat
  else if digits.length ≤ places then "0.".pushn '0' (places - digits.length) ++ digits
  else
    let whole := digits.length - places
    (digits.take whole).toString ++ "." ++ (digits.drop whole).toString

/-- The text of a number: shortest digits, `inf` and `NaN`. -/
def text (f : Binary32) : String :=
  if f.isNaN then "NaN"
  else
    let sign := if f.isNegative then "-" else ""
    if f.isSpecial then sign ++ "inf"
    else if f.units = 0 then sign ++ "0"
    else sign ++ f.shortest.text

end RecordArena.Binary32
