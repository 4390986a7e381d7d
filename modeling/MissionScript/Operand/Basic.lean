import MissionScript.Bracket.Group
import MissionScript.Decimal.Layout
import MissionScript.Decimal.Reader
import MissionScript.Text.Word

/-!
# Operands

An operand names a value that commands read and write: a number, a variable, a parameter of an
object, or an element of an array, whose indices are operands again.
-/

namespace MissionScript

/-- A value that a script names. -/
inductive Operand where
  | number (value : Float)
  /-- A variable. -/
  | var (name : Text)
  /-- `Owner.Field`; the field may hold further dots. -/
  | parameter (owner field : Text)
  /-- `A(index)` -/
  | element (array : Text) (index : Operand)
  /-- `A(row,column)` -/
  | cell (array : Text) (row column : Operand)
deriving Inhabited

/-- Why a text is not an operand. -/
inductive OperandError where
  | missing
  | badNumber (text : Text)
  | unbalanced (text : Text)
  | badArrayName (name : Text)
  | unrecognized (text : Text)
deriving DecidableEq, Repr

namespace OperandError

def message : OperandError → String
  | missing => "missing operand"
  | badNumber text => text.quoted ++ " is not a valid number"
  | unbalanced text => "unbalanced parentheses in " ++ text.quoted
  | badArrayName name => name.quoted ++ " is not a valid array name"
  | unrecognized text =>
    text.quoted ++ " is not a number, variable, array element or object parameter"

end OperandError

namespace Operand

/-- Read a trimmed text without a group at its end: a variable or a parameter. -/
def ofName (text : Text) : Except OperandError Operand :=
  match text.cutAt '.' with
  | some (owner, field) =>
    if owner.isIdentifier && field.isDottedName then .ok (.parameter owner field)
    else .error (.unrecognized text)
  | none => if text.isIdentifier then .ok (.var text) else .error (.unrecognized text)

/-- Read an operand. The indices of an array element are cut at the first comma. -/
def parse (source : Text) : Except OperandError Operand :=
  let text := source.trim
  match text.head? with
  | none => .error .missing
  | some first =>
    if first.isDigit || first == '.' then
      match Decimal.read? text with
      | some value => .ok (.number value)
      | none => .error (.badNumber text)
    else if text.getLast? == some ')' then
      match _found : Bracket.paren.scan text 0 with
      | .matched group =>
        if !group.after.isEmpty then .error (.unbalanced text)
        else if !(Text.ofGlyphs group.before).isIdentifier then
          .error (.badArrayName (Text.ofGlyphs group.before))
        else
          match _cut : group.content.cutAt ',' with
          | some (row, column) => do
            let row ← parse row
            let column ← parse column
            return .cell (Text.ofGlyphs group.before) row column
          | none => do
            let index ← parse group.content
            return .element (Text.ofGlyphs group.before) index
      | _ => .error (.unbalanced text)
    else ofName text
termination_by source.length
decreasing_by
  all_goals
    have inner := Bracket.length_content_of_scan _found
    have outer : text.length ≤ source.length := Text.length_trim_le source
  · have := (Text.length_of_cutAt _cut).1
    omega
  · have := (Text.length_of_cutAt _cut).2
    omega
  · omega

/-- The text of an operand. -/
def display : Operand → Text
  | number value => Decimal.plain value
  | var name => name
  | parameter owner field => owner ++ '.' :: field
  | element array index => array ++ '(' :: index.display ++ [')']
  | cell array row column => array ++ '(' :: row.display ++ ',' :: column.display ++ [')']

/-- The objects that an operand reads or writes, in order of appearance. -/
def names : Operand → List Text
  | number _ => []
  | var name => [name]
  | parameter owner _ => [owner]
  | element array index => array :: index.names
  | cell array row column => array :: row.names ++ column.names

/-- The owner of an `Owner.Field` operand. -/
def owner? : Operand → Option Text
  | parameter owner _ => some owner
  | _ => none

/-- Whether the operand is a number. -/
def isNumber : Operand → Bool
  | number _ => true
  | _ => false

/-- Put `new` for the object name `old`. -/
def rename (old new : Text) : Operand → Operand
  | number value => number value
  | var name => var (if name = old then new else name)
  | parameter owner field => parameter (if owner = old then new else owner) field
  | element array index => element (if array = old then new else array) (index.rename old new)
  | cell array row column =>
    cell (if array = old then new else array) (row.rename old new) (column.rename old new)

end Operand

end MissionScript
