import MissionScript.Decimal.Reader
import MissionScript.Objects.Table

/-!
# Objects

The configuration objects that a script creates and its commands read and change. An object has a
type, numeric parameters and textual settings; the store holds objects under their names.
-/

namespace MissionScript

def variableType : Text := "Variable".toList

def arrayType : Text := "Array".toList

def spacecraftType : Text := "Spacecraft".toList

/-- The parameter that holds the value of a variable. -/
def valueParameter : Text := "Value".toList

/-- Object types that drive solver loops unless others are chosen. -/
def builtinSolverTypes : List Text :=
  ["DifferentialCorrector", "FminconOptimizer", "SQP", "VF13ad", "Yukon"].map String.toList

/-- The parameters of a new spacecraft. -/
def spacecraftDefaults : List (Text × Float) :=
  [("SMA", ⟨7191938817629, -9⟩), ("ECC", ⟨24549749, -9⟩), ("INC", ⟨12850080056, -9⟩),
   ("RAAN", ⟨30661480219, -8⟩), ("AOP", ⟨31419055153, -8⟩), ("TA", ⟨99887749332, -9⟩),
   ("DryMass", (⟨850, 0⟩ : Decimal.Scaled))].map fun (name, d) => (name.toList, Decimal.ofScaled d)

/-- The parameter of an array that holds the element in a row and a column, counted from one. -/
def cellParameter (row column : Nat) : Text :=
  '(' :: Text.ofNat row ++ ',' :: Text.ofNat column ++ [')']

/-- A configuration object. Its name is the one it is stored under. -/
structure Object where
  typeName : Text
  /-- Numeric fields. -/
  parameters : Table Float := .empty
  /-- Fields that are not numbers. -/
  settings : Table Text := .empty
  /-- Rows and columns of an array. -/
  dimensions : Option (Nat × Nat) := none

namespace Object

/-- A new object: a variable has the value zero, a spacecraft its default orbit. -/
def ofType (typeName : Text) : Object where
  typeName
  parameters :=
    if typeName = variableType then .ofList [(valueParameter, 0)]
    else if typeName = spacecraftType then .ofList spacecraftDefaults
    else .empty

/-- The parameters that hold the elements of an array. -/
def cells (rows columns : Nat) : List Text :=
  (List.range rows).flatMap fun row =>
    (List.range columns).map fun column => cellParameter (row + 1) (column + 1)

/-- An array filled with zeros. The last cell by name is put in first, so that each one goes in front
of the others. -/
def array (rows columns : Nat) : Object where
  typeName := arrayType
  parameters := .ofList <| ((cells rows columns).mergeSort fun a b => !(a < b)).map (·, 0)
  dimensions := some (rows, columns)

def parameter? (object : Object) (name : Text) : Option Float := object.parameters.get? name

def setParameter (object : Object) (name : Text) (value : Float) : Object :=
  { object with parameters := object.parameters.insert name value }

def setting? (object : Object) (name : Text) : Option Text := object.settings.get? name

def setSetting (object : Object) (name value : Text) : Object :=
  { object with settings := object.settings.insert name value }

end Object

/-- The objects that exist, by name. -/
abbrev Store := Table Object

namespace Store

/-- Store a new object. Nothing if its name is taken. -/
def add? (store : Store) (name : Text) (object : Object) : Option Store :=
  if store.contains name then none else some (store.insert name object)

/-- Change the object of a name. Nothing if there is none. -/
def modify? (store : Store) (name : Text) (f : Object → Object) : Option Store :=
  (store.get? name).map fun object => store.insert name (f object)

def parameter? (store : Store) (name parameter : Text) : Option Float :=
  (store.get? name).bind (·.parameter? parameter)

/-- Store the object of `old` under `new`, and tell whether there is one. Nothing if `new` is the name
of another object. -/
def rename? (store : Store) (old new : Text) : Option (Store × Bool) :=
  if old = new then some (store, store.contains old)
  else if store.contains new then none
  else match store.get? old with
    | none => some (store, false)
    | some object => some ((store.erase old).insert new object, true)

/-- The names of the objects of a type. -/
def ofType (store : Store) (typeName : Text) : List Text :=
  (store.entries.filter fun entry => entry.2.typeName = typeName).map (·.1)

end Store

end MissionScript
