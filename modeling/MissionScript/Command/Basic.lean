import MissionScript.Command.Call
import MissionScript.Command.Range
import MissionScript.Command.Result
import MissionScript.Command.SolverLoop
import MissionScript.Script.Statement
import MissionScript.Sequence.Error

/-!
# Commands

A command has a kind, the text that it was generated from, and a body that holds its arguments.
-/

namespace MissionScript

/-- The arguments of a command. -/
inductive CommandBody where
  /-- None. -/
  | structural
  | assignment (target : Operand) (expression : Expression)
  | call (call : FunctionCall)
  | condition (condition : Condition)
  | range (range : LoopRange)
  | solverLoop (loop : SolverLoop)
  | objective (objective : Objective)
  | constraint (constraint : Constraint)
  /-- The arguments of a keyword without behavior of its own. -/
  | generic (arguments : Text)

structure Command where
  kind : CommandKind
  /-- The keyword, or the kind where there is none. -/
  typeName : Text
  /-- The quoted label in front of the arguments. -/
  label : Option Text := none
  /-- The text that describes the command. -/
  generating : Text
  body : CommandBody := .structural
  /-- Where the statement of the command stands in its source. -/
  span : Option Span := none

/-- Split a leading quoted label off the arguments of a command. -/
def splitLabel (source : Text) : Option Text × Text :=
  let arguments := source.trim
  match arguments with
  | '\'' :: rest =>
    match Text.cutAt '\'' rest with
    | some (label, rest) => (some label, rest.trim)
    | none => (none, arguments)
  | _ => (none, arguments)

namespace CommandBody

/-- Read the arguments of a keyword. -/
def parse (kind : CommandKind) (arguments : Text) : Except ArgumentError CommandBody :=
  match kind with
  | .ifThen | .whileLoop => (Condition.parse arguments).map condition
  | .forLoop => (LoopRange.parse arguments).map range
  | .optimize | .target => (SolverLoop.parse arguments).map solverLoop
  | .minimize => (Objective.parse arguments).map objective
  | .nonlinearConstraint => (Constraint.parse arguments).map constraint
  | .generic => .ok (generic arguments.trim)
  | _ => if arguments.isEmpty then .ok structural else .error (.unexpectedArguments arguments)

/-- Read an assignment. -/
def parseAssignment (target expression : Text) : Except ArgumentError CommandBody := do
  let operand ← (Operand.parse target).mapError .operand
  if operand.isNumber then throw (.assignToNumber target.trim)
  let expression ← (Expression.parse expression).mapError .expression
  return assignment operand expression

/-- What is reported for a solver, and where the command stands with it. -/
def resultState? : CommandBody → Option ResultState
  | objective o => some o.state
  | constraint c => some c.state
  | _ => none

/-- Forget the number of the result. -/
def forgetResult : CommandBody → CommandBody
  | objective o => objective { o with state := .unregistered }
  | constraint c => constraint { c with state := .unregistered }
  | body => body

end CommandBody

namespace Command

/-- How errors name the command. -/
def subject (c : Command) : Subject := ⟨c.typeName, c.generating⟩

/-- A command of a kind without arguments. -/
def ofKind (kind : CommandKind) : Command where
  kind
  typeName := kind.name
  generating := if kind = .noOp then [] else kind.name ++ [';']

/-- The command of a keyword. -/
def ofKeyword (keyword arguments generating : Text) : Except SequenceError Command := do
  let kind := CommandKind.ofKeyword keyword
  let (label, arguments) := splitLabel arguments
  let body ← (CommandBody.parse kind arguments).mapError (.invalidArgument ⟨keyword, generating⟩)
  return { kind, typeName := keyword, label, generating, body }

/-- The command that a statement describes. -/
def ofStatement (s : Statement) : Except SequenceError Command :=
  let generating := s.instruction ++ [';']
  let make (kind : CommandKind) (body : Except ArgumentError CommandBody) :
      Except SequenceError Command :=
    match body with
    | .ok body => .ok { kind, typeName := kind.name, generating, body }
    | .error cause => .error (.invalidArgument ⟨kind.name, generating⟩ cause)
  match s.parts with
  | .assignment target expression =>
    make .assignment (CommandBody.parseAssignment target expression)
  | .call outputs signature =>
    make .callFunction ((FunctionCall.parse outputs signature).map .call)
  | .command keyword arguments => ofKeyword keyword (arguments.getD []) generating
  | parts =>
    .error (.invalidArgument ⟨parts.shape.blockType.name.toList, generating⟩ .notCommand)

/-- The command that a line of script describes. -/
def ofLine (keywords : Keywords) (line : Text) : Except SequenceError Command :=
  match Statement.ofBlock keywords line with
  | .ok s => ofStatement s
  | .error e => .error (.parse e)

/-- Whether the command answers to a name: its type name, its kind, or one of its families. -/
def isOfType (c : Command) (name : Text) : Bool :=
  name == c.typeName || name == c.kind.name || name == "GmatCommand".toList ||
    (name == "BranchCommand".toList && c.kind.ownsBranches) ||
    (name == "BranchEnd".toList && c.kind.endsBranch) ||
    c.kind.family? == some name

/-- Whether the command ends a branch. -/
def isBranchEnd (c : Command) : Bool := c.isOfType "BranchEnd".toList

/-- Forget the number of the result once a run or a solver loop is done. -/
def forgetResult (c : Command) : Command := { c with body := c.body.forgetResult }

end Command

end MissionScript
