import MissionScript.Objects.Store
import MissionScript.Operand.Basic

/-!
# Values of operands

Reading and writing the values that operands name in a store of objects.
-/

namespace MissionScript

/-- Why a value cannot be computed or written. -/
inductive ValueError where
  | undefined (name : Text)
  | notVariable (name typeName : Text)
  | noParameter (owner field : Text)
  | notArray (name typeName : Text)
  /-- One index for an array with several rows and columns. -/
  | needsTwoIndices (array : Text)
  | badIndex (value : Float)
  | outOfRange (array : Text) (row column : Nat)
  | assignToNumber (value : Float)
  | divisionByZero
  | zeroStep

namespace ValueError

def message : ValueError → String
  | undefined name => "undefined object " ++ name.quoted
  | notVariable name typeName =>
    name.quoted ++ " is a " ++ typeName.str ++ ", not a Variable"
  | noParameter owner field =>
    "object " ++ owner.quoted ++ " has no parameter " ++ field.quoted
  | notArray name typeName => name.quoted ++ " is a " ++ typeName.str ++ ", not an Array"
  | needsTwoIndices array => array.quoted ++ " needs a row and a column index"
  | badIndex value =>
    "array index " ++ (Decimal.plain value).str ++ " must be a positive integer"
  | outOfRange array row column =>
    "index " ++ (cellParameter row column).str ++ " out of range for " ++ array.quoted
  | assignToNumber value => "cannot assign to the number " ++ (Decimal.plain value).str
  | divisionByZero => "division by zero"
  | zeroStep => "loop step cannot be zero"

end ValueError

/-- The array index that a number stands for: a whole number from one on. Beyond the range of 64 bits
the largest index is taken. -/
def indexOf (value : Float) : Except ValueError Nat :=
  if value >= 1 && Decimal.isWhole value then .ok value.toUInt64.toNat
  else .error (.badIndex value)

namespace Store

/-- The object of a name that is an array, with its rows and columns. -/
def arraySize (store : Store) (name : Text) : Except ValueError (Nat × Nat) :=
  match store.get? name with
  | none => .error (.undefined name)
  | some object =>
    if object.typeName = arrayType then .ok (object.dimensions.getD (0, 0))
    else .error (.notArray name object.typeName)

/-- Check that a row and a column lie inside an array. -/
def checkCell (array : Text) (size : Nat × Nat) (row column : Nat) :
    Except ValueError (Nat × Nat) :=
  if size.1 < row || size.2 < column then .error (.outOfRange array row column)
  else .ok (row, column)

/-- The row and column of a single index: arrays with one row are indexed by column, other arrays with
one column by row. -/
def cellOfIndex (array : Text) (size : Nat × Nat) (index : Nat) :
    Except ValueError (Nat × Nat) :=
  if size.1 == 1 then checkCell array size 1 index
  else if size.2 == 1 then checkCell array size index 1
  else .error (.needsTwoIndices array)

/-- The value of an element of an array. -/
def cellValue (store : Store) (array : Text) (cell : Nat × Nat) : Except ValueError Float :=
  match store.parameter? array (cellParameter cell.1 cell.2) with
  | some value => .ok value
  | none => .error (.outOfRange array cell.1 cell.2)

/-- The variable of a name. -/
def variableNamed (store : Store) (name : Text) : Except ValueError Object :=
  match store.get? name with
  | none => .error (.undefined name)
  | some object =>
    if object.typeName = variableType then .ok object
    else .error (.notVariable name object.typeName)

/-- Set a parameter of an object that exists. -/
def setParameter (store : Store) (name field : Text) (value : Float) :
    Except ValueError Store :=
  match modify? store name (·.setParameter field value) with
  | some store => .ok store
  | none => .error (.undefined name)

end Store

namespace Operand

/-- The value of an operand. -/
def value (store : Store) : Operand → Except ValueError Float
  | number value => .ok value
  | var name => do
    let object ← Store.variableNamed store name
    return (object.parameter? valueParameter).getD 0
  | parameter owner field =>
    match store.get? owner with
    | none => .error (.undefined owner)
    | some object =>
      match object.parameter? field with
      | some value => .ok value
      | none => .error (.noParameter owner field)
  | element array index => do
    let size ← Store.arraySize store array
    let index ← indexOf (← index.value store)
    Store.cellValue store array (← Store.cellOfIndex array size index)
  | cell array row column => do
    let size ← Store.arraySize store array
    let row ← indexOf (← row.value store)
    let column ← indexOf (← column.value store)
    Store.cellValue store array (← Store.checkCell array size row column)

/-- Write the value of an operand. -/
def assign (store : Store) (new : Float) : Operand → Except ValueError Store
  | number value => .error (.assignToNumber value)
  | var name => do
    let _ ← Store.variableNamed store name
    Store.setParameter store name valueParameter new
  | parameter owner field => Store.setParameter store owner field new
  | element array index => do
    let size ← Store.arraySize store array
    let index ← indexOf (← index.value store)
    let (row, column) ← Store.cellOfIndex array size index
    Store.setParameter store array (cellParameter row column) new
  | cell array row column => do
    let size ← Store.arraySize store array
    let row ← indexOf (← row.value store)
    let column ← indexOf (← column.value store)
    let (row, column) ← Store.checkCell array size row column
    Store.setParameter store array (cellParameter row column) new

end Operand

end MissionScript
