import MissionScript.Command.Condition
import MissionScript.Script.Split

/-!
# Function calls

`[outputs] = Name(inputs)` or `Name(inputs)`. The body of a function is not part of a mission
sequence, so the arguments stay text.
-/

namespace MissionScript

structure FunctionCall where
  name : Text
  outputs : List Text
  inputs : List Text
deriving DecidableEq, Repr

namespace FunctionCall

/-- The pieces of an argument list in brackets. -/
def argumentList (family : Bracket) (delimiters text : Text) :
    Except ArgumentError (List Text) :=
  (separateGroup family delimiters true text).mapError fun e => .argumentList e.cause

def parse (outputs signature : Text) : Except ArgumentError FunctionCall := do
  let signature := signature.trim
  let name := signature.takeWhile (· != '(')
  let arguments := signature.drop name.length
  let name := Text.trim name
  if !name.isIdentifier then throw (.badFunctionName name)
  let inputs ← if arguments.isEmpty then pure [] else argumentList .paren [','] arguments
  let outputs := outputs.trim
  let outputs ←
    if outputs.head? == some '[' then argumentList .square [',', ' '] outputs
    else if outputs.isEmpty then pure []
    else pure [outputs]
  return { name, outputs, inputs }

def arguments (c : FunctionCall) : List Text := c.outputs ++ c.inputs

/-- The objects that the arguments name, as far as they are operands. -/
def argumentNames (c : FunctionCall) : List Text :=
  c.arguments.foldl (fun names argument =>
    match Operand.parse argument with
    | .ok o => Text.addNames names o.names
    | .error _ => names) []

/-- Put `new` for the object name `old`, in the name of the function or in the arguments, as the type
of the object says. Nothing if it does not occur. -/
def rename? (objectType : ObjectType) (old new : Text) (c : FunctionCall) : Option FunctionCall :=
  let inName := (objectType == .function || objectType == .any) && c.name == old
  let replace (argument : Text) : Text :=
    if objectType == .function then argument else Text.replaceWord old new argument
  let renamed : FunctionCall :=
    { name := if inName then new else c.name
      outputs := c.outputs.map replace
      inputs := c.inputs.map replace }
  if inName || renamed.arguments != c.arguments then some renamed else none

end FunctionCall

end MissionScript
