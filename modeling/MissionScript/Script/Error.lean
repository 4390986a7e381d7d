import MissionScript.Bracket.Basic

/-!
# Parse errors

The ways in which a line of script fails to come apart into its pieces, and the messages for them.
-/

namespace MissionScript

/-- The syntactic category of one block of script. -/
inductive BlockType where
  /-- Comment and blank lines only. -/
  | comment
  /-- `Create Type Name ...` -/
  | definition
  /-- A command keyword with its arguments, or a function call. -/
  | command
  /-- `lhs = rhs` -/
  | assignment
  /-- `function [outputs] = Name(inputs)` -/
  | function
deriving DecidableEq, Repr

namespace BlockType

def name : BlockType → String
  | comment => "Comment"
  | definition => "Definition"
  | command => "Command"
  | assignment => "Assignment"
  | function => "Function"

end BlockType

/-- What is wrong with a line. -/
inductive ParseCause where
  /-- Every line of the block is blank. -/
  | emptyBlock
  | createKeywordMissing
  | objectTypeMissing
  | objectNameMissing
  | commandNameMissing
  | functionNameMissing
  /-- An assignment without a top-level `=`. -/
  | noAssignment
  | leftSideMissing
  | rightSideMissing
  /-- A group is opened and never closed. -/
  | unmatchedBracket
  /-- A close without its open, or groups of two families that cross. -/
  | unbalancedBracket
  /-- A family other than the three. -/
  | unknownBracket
  /-- A text that should be one whole group of the family is not. -/
  | outerBracketMissing (bracket : Bracket)
deriving DecidableEq, Repr

namespace ParseCause

def message : ParseCause → String
  | emptyBlock => "logical block is empty"
  | createKeywordMissing => "Create keyword missing"
  | objectTypeMissing => "object type missing"
  | objectNameMissing => "object name missing"
  | commandNameMissing => "command name missing"
  | functionNameMissing => "function name missing"
  | noAssignment => "no assignment expression found"
  | leftSideMissing => "LHS of = missing"
  | rightSideMissing => "RHS of = missing"
  | unmatchedBracket => "unmatched bracket"
  | unbalancedBracket => "unbalanced bracket"
  | unknownBracket => "unknown bracket character"
  | outerBracketMissing bracket => "expecting outer bracket " ++ bracket.spec.quoted

end ParseCause

/-- A parse error with the text that caused it. -/
structure ParseError where
  cause : ParseCause
  /-- The text that was being read. -/
  text : Text
  blockType : Option BlockType := none
deriving DecidableEq, Repr

namespace ParseError

/-- The whole message, with the text trimmed. -/
def message (e : ParseError) : String :=
  match e.blockType with
  | some blockType =>
    e.cause.message ++ " in " ++ blockType.name ++ " block " ++ e.text.trim.quoted
  | none => e.cause.message ++ " in " ++ e.text.trim.quoted

/-- Remarks shown below the message. -/
def notes (e : ParseError) : List String :=
  if e.text.isEmpty then [] else ["while parsing: " ++ e.text.trim.str]

end ParseError

end MissionScript
