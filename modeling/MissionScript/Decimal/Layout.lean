import MissionScript.Decimal.Shortest
import MissionScript.Text.Basic

/-!
# Writing numbers

Numbers are written with their shortest decimal digits. In scripts, listings and messages the plain
layout is used: positional at every size, without a fraction for whole numbers. The results of tests
use the marked layout, which always shows that a number is not an integer and writes very large and
very small ones with an exponent.
-/

namespace MissionScript.Decimal

/-- A floating-point number taken apart. -/
inductive Parts where
  | nan
  | infinite (negative : Bool)
  | zero (negative : Bool)
  | finite (negative : Bool) (magnitude : Binary)

/-- Take a double apart: one sign bit, eleven exponent bits, fifty-two fraction bits. -/
def parts (x : Float) : Parts :=
  let bits := x.toBits.toNat
  let negative := bits / 0x8000000000000000 == 1
  let biased : Nat := bits / fractionUnit % 2048
  let fraction : Nat := bits % fractionUnit
  if biased == 2047 then
    if fraction == 0 then .infinite negative else .nan
  else if biased == 0 then
    if fraction == 0 then .zero negative else .finite negative ⟨fraction, -1074, false⟩
  else
    .finite negative ⟨fractionUnit + fraction, (biased : Int) - 1075, fraction == 0⟩

/-- Whether a number has no fraction. -/
def isWhole (x : Float) : Bool :=
  match parts x with
  | .nan | .infinite _ => false
  | .zero _ => true
  | .finite _ magnitude => magnitude.mantissa % Nat.pow 2 (-magnitude.exponent).toNat == 0

/-- Positional notation of `digits * 10 ^ exponent`. -/
def positional (d : Scaled) : Text :=
  let digits := Text.ofNat d.digits
  if 0 ≤ d.exponent then digits ++ List.replicate d.exponent.toNat '0'
  else
    let places := (-d.exponent).toNat
    if places < digits.length then
      digits.take (digits.length - places) ++ '.' :: digits.drop (digits.length - places)
    else '0' :: '.' :: List.replicate (places - digits.length) '0' ++ digits

/-- Notation with one digit before the point and a power of ten. -/
def exponential (d : Scaled) : Text :=
  let digits := Text.ofNat d.digits
  let power := d.exponent + (digits.length - 1 : Nat)
  let mantissa :=
    match digits with
    | first :: second :: rest => first :: '.' :: second :: rest
    | _ => digits
  mantissa ++ 'e' :: (if power < 0 then ['-'] else []) ++ Text.ofNat power.natAbs

/-- The text of a number, its magnitude written by `magnitude`. -/
def write (zero : Text) (magnitude : Scaled → Text) (x : Float) : Text :=
  let signed (negative : Bool) (text : Text) : Text := if negative then '-' :: text else text
  match parts x with
  | .nan => "NaN".toList
  | .infinite negative => signed negative "inf".toList
  | .zero negative => signed negative zero
  | .finite negative b => signed negative (magnitude b.shortest)

/-- The plain layout. -/
def plain (x : Float) : Text := write ['0'] positional x

/-- The marked layout: an exponent from `1e16` on and below `1e-4`, and otherwise a point with at
least one digit after it. -/
def marked (x : Float) : Text :=
  write ['0', '.', '0'] (fun d =>
    let power := d.exponent + ((Text.ofNat d.digits).length - 1 : Nat)
    if power < -4 || 16 ≤ power then exponential d
    else if 0 ≤ d.exponent then positional d ++ ['.', '0']
    else positional d) x

end MissionScript.Decimal
