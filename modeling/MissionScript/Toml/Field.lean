import MissionScript.Toml.Document

/-!
# Fields of TOML tables

Reading the entries of a table as the fields of a record: every key must be known, and every value
must have the type of its field.
-/

namespace MissionScript

namespace Toml

def text? : Toml → Option Text
  | text t => some t
  | _ => none

def boolean? : Toml → Option Bool
  | boolean b => some b
  | _ => none

/-- A whole number from zero on. -/
def count? : Toml → Option Nat
  | integer n => if 0 ≤ n then some n.toNat else none
  | _ => none

/-- A number, written with or without a fraction. -/
def number? : Toml → Option Float
  | float x => some x
  | integer n =>
    let magnitude := Decimal.ofScaled ⟨n.natAbs, 0⟩
    some (if n < 0 then -magnitude else magnitude)
  | _ => none

def entries? : Toml → Option TomlEntries
  | table _ entries => some entries
  | _ => none

/-- A list whose items are read by `item?`. -/
def list? (item? : Toml → Option α) : Toml → Option (List α)
  | array items => items.mapM item?
  | tables items => items.mapM fun entries => item? (.table .header entries)
  | _ => none

end Toml

namespace TomlEntries

/-- Whether all keys are among those of a record. -/
def hasOnly (entries : TomlEntries) (keys : List String) : Bool :=
  entries.all fun (key, _) => keys.contains key.str

/-- A field that may be absent. Nothing if its value has the wrong type. -/
def optional (entries : TomlEntries) (key : String) (read? : Toml → Option α) :
    Option (Option α) :=
  match entries.lookup key.toList with
  | none => some none
  | some held => (read? held).map some

/-- A field that must be there. -/
def required (entries : TomlEntries) (key : String) (read? : Toml → Option α) : Option α :=
  (entries.lookup key.toList).bind read?

end TomlEntries

/-- The fields of a record with these keys. An array is taken as the values of the fields in order. -/
def Toml.fields? (keys : List String) : Toml → Option TomlEntries
  | table _ entries => if TomlEntries.hasOnly entries keys then some entries else none
  | array items => some ((keys.map String.toList).zip items)
  | _ => none

end MissionScript
