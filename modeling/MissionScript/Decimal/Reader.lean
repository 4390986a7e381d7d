import MissionScript.Decimal.Shortest
import MissionScript.Text.Basic

/-!
# Reading numbers

A number is an optional sign and either digits with at most one point and an optional exponent, or
one of the words `inf`, `infinity` and `nan` in any case. A decimal is rounded to the nearest
double, half to even, at any length and any exponent.
-/

namespace MissionScript.Decimal

/-- The number that decimal digits spell after `value`. -/
def digitsValue (value : Nat) (digits : Text) : Nat :=
  digits.foldl (fun value c => 10 * value + (c.toNat - '0'.toNat)) value

/-- Round `numerator / denominator` to a whole number, half to even. -/
def roundHalfEven (numerator denominator : Nat) : Nat :=
  let whole := numerator / denominator
  let twice := 2 * (numerator % denominator)
  if twice < denominator || (twice == denominator && whole % 2 == 0) then whole else whole + 1

/-- The bits of positive infinity. -/
def infinityBits : Nat := 2047 * fractionUnit

/-- The bits of the double nearest to the positive fraction `numerator / denominator`. The exponent
of the last place is chosen so that the rounded mantissa has 53 bits, or fewer below the smallest
normal number; a mantissa that rounds up to 54 bits carries into the exponent field by itself. -/
def nearestBits (numerator denominator : Nat) : Nat :=
  let estimate : Int := (numerator.log2 : Int) - denominator.log2
  let place (e : Int) : Nat × Nat :=
    let (twos, halves) := powerFraction 2 (e - 52)
    (numerator * halves, denominator * twos)
  let short := (place estimate).1 < (place estimate).2 * fractionUnit
  let top := max (if short then estimate - 1 else estimate) (-1022)
  let mantissa := roundHalfEven (place top).1 (place top).2
  min ((top + 1022).toNat * fractionUnit + mantissa) infinityBits

/-- The double nearest to `digits * 10 ^ exponent`. Outside the range of the format the exact power
is not formed. -/
def ofScaled (d : Scaled) : Float :=
  let top := d.exponent + (Text.ofNat d.digits).length
  let bits :=
    if d.digits == 0 || top < -330 then 0
    else if 310 < top then infinityBits
    else
      let (tens, tenths) := powerFraction 10 d.exponent
      nearestBits (d.digits * tens) tenths
  Float.ofBits bits.toUInt64

/-- An exponent mark with its digits, or nothing. -/
def readExponent? : Text → Option Int
  | [] => some 0
  | mark :: text =>
    let (negative, digits) :=
      match text with
      | '-' :: rest => (true, rest)
      | '+' :: rest => (false, rest)
      | _ => (false, text)
    if (mark == 'e' || mark == 'E') && !digits.isEmpty && digits.all Char.isDigit then
      let value : Int := digitsValue 0 digits
      some (if negative then -value else value)
    else none

/-- Digits with at most one point and an optional exponent. -/
def readDecimal? (text : Text) : Option Scaled :=
  let whole := text.takeWhile Char.isDigit
  let rest := text.drop whole.length
  let (fraction, tail) :=
    match rest with
    | '.' :: rest => (rest.takeWhile Char.isDigit, rest.dropWhile Char.isDigit)
    | _ => ([], rest)
  if whole.isEmpty && fraction.isEmpty then none
  else (readExponent? tail).map fun power =>
    ⟨digitsValue (digitsValue 0 whole) fraction, power - fraction.length⟩

/-- A number without its sign. -/
def readMagnitude? (text : Text) : Option Float :=
  let word := Text.str (text.map Char.toLower)
  if word == "inf" || word == "infinity" then some (Float.ofBits infinityBits.toUInt64)
  else if word == "nan" then some (Float.ofBits (infinityBits + fractionUnit / 2).toUInt64)
  else (readDecimal? text).map ofScaled

/-- A number. -/
def read? : Text → Option Float
  | '-' :: text => (readMagnitude? text).map fun x => -x
  | '+' :: text => readMagnitude? text
  | text => readMagnitude? text

end MissionScript.Decimal
