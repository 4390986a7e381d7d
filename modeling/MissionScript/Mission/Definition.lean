import MissionScript.Operand.Value
import MissionScript.Script.Statement
import MissionScript.Expression.Parser
import MissionScript.Sequence.Error

/-!
# Definitions and settings

The statements that make and configure objects: `Create` with a type and names, and assignments in
front of the mission sequence.
-/

namespace MissionScript

/-- Array sizes have 64 bits. -/
def sizeLimit : Nat := 0x10000000000000000

/-- The number that decimal digits write. -/
def readSize (digits : Text) : Nat :=
  digits.foldl (fun size digit => 10 * size + (digit.toNat - '0'.toNat)) 0

/-- Read a number of rows or columns. -/
def parseSize (text : Text) : Except ArgumentError Nat :=
  if !text.isInteger then .error (.badDimension text)
  else if readSize text < sizeLimit then .ok (readSize text)
  else .error .dimensionTooLarge

/-- Read an array definition `A[rows,columns]` or `A[columns]` as the name and the array. -/
def parseArray (token : Text) : Except ArgumentError (Text × Object) :=
  match token.cutAt '[' with
  | none => .error (.noDimensions token)
  | some (name, rest) =>
    match Text.before? [']'] rest with
    | none => .error (.noDimensions token)
    | some sizes =>
      if !name.isIdentifier then .error (.badArrayName name)
      else match (sizes.splitOn ',').map Text.trim with
        | [columns] => do
          let columns ← parseSize columns
          return (name, .array 1 columns)
        | [rows, columns] => do
          let rows ← parseSize rows
          let columns ← parseSize columns
          return (name, .array rows columns)
        | _ => .error (.badDimensions token)

/-- Read one entry of a definition as the name and the new object. -/
def parseDefinition (objectType token : Text) : Except ArgumentError (Text × Object) :=
  if objectType = arrayType then parseArray token
  else if token.isIdentifier then .ok (token, .ofType objectType)
  else .error (.badObjectName token)

namespace Store

/-- Add the object of a definition entry. -/
def define (store : Store) (instruction objectType token : Text) : Except SequenceError Store :=
  match parseDefinition objectType token with
  | .error cause => .error (.invalidArgument ⟨createKeyword, instruction⟩ cause)
  | .ok (name, object) =>
    match store.add? name object with
    | none => .error (.duplicateObject name)
    | some store => .ok store

/-- The value that is written for a parameter, if the text computes to one. -/
def configuredValue (store : Store) (written : Text) : Except ArgumentError Float :=
  match Expression.parse written with
  | .error cause => .error (.expression cause)
  | .ok expression => (expression.value store).mapError .value

/-- Configure an object with an assignment in front of the mission sequence. What does not compute to
a number becomes the text of a setting, without the quotes around it. -/
def configure (store : Store) (target written : Text) : Except ArgumentError Store := do
  let operand ← (Operand.parse target).mapError .operand
  if let some name := operand.names.find? (!store.contains ·) then
    throw (.value (.undefined name))
  match store.configuredValue written, operand with
  | .ok new, _ => (operand.assign store new).mapError .value
  | .error _, .parameter owner field =>
    return (Store.modify? store owner (·.setSetting field (Text.trimChar '\'' written))).getD store
  | .error cause, _ => throw cause

end Store

end MissionScript
