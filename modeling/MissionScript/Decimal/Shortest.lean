/-!
# Shortest decimals

A positive binary fraction `m * 2 ^ q` of a floating-point format stands for every real number that
rounds to it. Its shortest decimal is the one with the fewest digits among those; of two with equally
many digits it is the nearer, and of two equally near the larger.
-/

namespace MissionScript.Decimal

/-- A positive floating-point value `mantissa * 2 ^ exponent`. -/
structure Binary where
  mantissa : Nat
  exponent : Int
  /-- The next smaller value is only half a step away. -/
  atBoundary : Bool

/-- A decimal `digits * 10 ^ exponent`. -/
structure Scaled where
  digits : Nat
  exponent : Int
deriving DecidableEq, Repr

/-- A double has fifty-two fraction bits. -/
def fractionUnit : Nat := 0x10000000000000

/-- `base ^ exponent` as a numerator and a denominator. -/
def powerFraction (base : Nat) (exponent : Int) : Nat × Nat :=
  (Nat.pow base exponent.toNat, Nat.pow base (-exponent).toNat)

namespace Binary

/-- A value and the ends of the interval that rounds to it, in units of `10 ^ e` over a common
denominator. -/
structure Ruler where
  value : Nat
  low : Nat
  high : Nat
  unit : Nat

/-- The interval of `b` measured in units of `10 ^ e`. Quarter steps make its ends whole numbers. -/
def ruler (b : Binary) (e : Int) : Ruler :=
  let (twos, halves) := powerFraction 2 (b.exponent - 2)
  let (tens, tenths) := powerFraction 10 e
  let scale := twos * tenths
  { value := 4 * b.mantissa * scale
    low := (4 * b.mantissa - if b.atBoundary then 1 else 2) * scale
    high := (4 * b.mantissa + 2) * scale
    unit := halves * tens }

/-- The multiple of the unit to write, if the value has a neighbour on this decimal grid that rounds
to it. The ends of the interval round to the value if its mantissa is even. -/
def onGrid? (b : Binary) (r : Ruler) : Option Nat :=
  let below := r.value / r.unit
  let above := below + 1
  let even := b.mantissa % 2 == 0
  let lowFits := r.low < below * r.unit || (even && r.low == below * r.unit)
  let highFits := above * r.unit < r.high || (even && above * r.unit == r.high)
  match lowFits, highFits with
  | false, false => none
  | true, false => some below
  | false, true => some above
  | true, true =>
    if 2 * (r.value - below * r.unit) < r.unit then some below else some above

/-- Look for the shortest decimal on the grids `10 ^ e`, `10 ^ (e - 1)`, … -/
def searchFrom (b : Binary) : (grids : Nat) → (e : Int) → Scaled
  | 0, e => ⟨(b.ruler e).value / (b.ruler e).unit, e⟩
  | grids + 1, e =>
    match b.onGrid? (b.ruler e) with
    | some digits => ⟨digits, e⟩
    | none => b.searchFrom grids (e - 1)

/-- A power of ten above the value: a bit counts for less than 0.30103 digits. -/
def topExponent (b : Binary) : Int :=
  (b.exponent + b.mantissa.log2 + 1) * 30103 / 100000 + 2

/-- The shortest decimal. Seventeen digits are always enough for a value of 53 bits, and the search
starts at most three places above the first digit. -/
def shortest (b : Binary) : Scaled := b.searchFrom 25 b.topExponent

end Binary

example : Binary.shortest ⟨1, 0, false⟩ = ⟨1, 0⟩ := by decide

example : Binary.shortest ⟨1, -1074, false⟩ = ⟨5, -324⟩ := by decide +kernel

example : Binary.shortest ⟨0x1999999999999A, -56, false⟩ = ⟨1, -1⟩ := by decide +kernel

end MissionScript.Decimal
