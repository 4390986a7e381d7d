import MissionScript.Command.Argument
import MissionScript.Command.Kind
import MissionScript.Expression.Parser
import MissionScript.Script.Split
import MissionScript.Solver.Basic

/-!
# Results

The arguments of the commands that report to a solver: `Minimize solver(objective)` and
`NonlinearConstraint solver(value <= bound)`, also with `>=` and `=`. The first time in a run such a
command registers its result, later it reports values.
-/

namespace MissionScript

/-- Where a command stands with its solver. -/
inductive ResultState where
  | unregistered
  /-- The result has a number, and nothing has been reported yet. -/
  | registered (id : Nat)
  | reporting (id : Nat)
deriving DecidableEq, Repr

namespace ResultState

def id? : ResultState → Option Nat
  | unregistered => none
  | registered id => some id
  | reporting id => some id

end ResultState

/-- Cut `solver(argument)` into the solver and its single argument. Square brackets and braces are not
part of this grammar. -/
def splitSolverCall (source : Text) : Except ArgumentError (Text × Text) := do
  let arguments := source.trim
  if arguments.any "[]\x7b\x7d".toList.contains then throw (.bracketsNotAllowed arguments)
  (checkBalance arguments).mapError .parse
  match ← (decompose .paren false false arguments).mapError .parse with
  | [solver, group] =>
    if !solver.isIdentifier then throw (.badSolverName solver)
    match ← (separateGroup .paren [','] true group).mapError .parse with
    | [argument] => return (solver, argument)
    | [] => throw (.solverArgumentMissing arguments)
    | _ => throw (.severalSolverArguments arguments)
  | _ => throw (.badSolverCall arguments)

/-- An objective to minimize. -/
structure Objective where
  solver : Text
  /-- The objective as it is written, which names its result. -/
  name : Text
  operand : Operand
  state : ResultState := .unregistered

namespace Objective

def parse (arguments : Text) : Except ArgumentError Objective := do
  let (solver, name) ← splitSolverCall arguments
  let operand ← (Operand.parse name).mapError .operand
  if operand.isNumber then throw (.numberAsObjective name)
  return { solver, name, operand }

/-- Put `new` for the object name `old`, as the solver or in the objective, as the type of the object
says. Nothing if it does not occur. -/
def rename? (objectType : ObjectType) (old new : Text) (o : Objective) : Option Objective :=
  let asSolver := (objectType == .any || objectType == .solver) && o.solver == old
  let inOperand := objectType != .solver && o.operand.names.contains old
  if asSolver || inOperand then
    let operand := if inOperand then o.operand.rename old new else o.operand
    some
      { o with
        solver := if asSolver then new else o.solver
        name := if inOperand then operand.display else o.name
        operand }
  else none

end Objective

/-- A relation that the solver is to satisfy. -/
structure Constraint where
  solver : Text
  /-- The constrained value as it is written, which names the result. -/
  name : Text
  operand : Operand
  kind : ConstraintKind
  /-- The bound as it is written. -/
  boundName : Text
  bound : Expression
  state : ResultState := .unregistered

/-- Cut a constraint at its relation: the first `<=`, `>=`, `==` or `=`. Strict relations are
refused. The character after a `<`, `>` or `=` is the next one outside literals. -/
def splitConstraint (whole : Text) :
    List Glyph → Except ArgumentError (Text × ConstraintKind × Text)
  | [] => .error (.noConstraintRelation whole)
  | g :: rest =>
    let followed : Bool := (rest.find? Glyph.isFree).any (·.char == '=')
    let right (width : Nat) : Text := Text.ofGlyphs (rest.drop (width - 1))
    if g.isFree && g.char == '<' then
      if followed then .ok ([], .lessOrEqual, right 2) else .error (.strictInequality whole)
    else if g.isFree && g.char == '>' then
      if followed then .ok ([], .greaterOrEqual, right 2) else .error (.strictInequality whole)
    else if g.isFree && g.char == '=' then .ok ([], .equality, right (if followed then 2 else 1))
    else (splitConstraint whole rest).map fun (left, kind, right) => (g.char :: left, kind, right)

namespace Constraint

def parse (arguments : Text) : Except ArgumentError Constraint := do
  let (solver, text) ← splitSolverCall arguments
  let (left, kind, right) ← splitConstraint text text.glyphs
  let name := left.trim
  let boundName := right.trim
  if name.isEmpty || boundName.isEmpty then throw (.incompleteConstraint text)
  let operand ← (Operand.parse name).mapError .operand
  if operand.isNumber then throw (.numberAsConstrained name)
  let bound ← (Expression.parse boundName).mapError .expression
  return { solver, name, operand, kind, boundName, bound }

def isInequality (c : Constraint) : Bool := c.kind != .equality

/-- The value for the solver. An inequality is satisfied when it is not positive, an equality when it
is zero. -/
def value (store : Store) (c : Constraint) : Except ValueError Float := do
  let operand ← c.operand.value store
  let bound ← c.bound.value store
  return match c.kind with
    | .lessOrEqual | .equality => operand - bound
    | .greaterOrEqual => bound - operand

/-- The objects on both sides of the relation. -/
def names (c : Constraint) : List Text := Text.addNames c.operand.names c.bound.names

def owners (c : Constraint) : List Text := Text.addNames c.operand.owner?.toList c.bound.owners

/-- Put `new` for the object name `old`, as the solver or on either side of the relation, as the type
of the object says. Nothing if it does not occur. -/
def rename? (objectType : ObjectType) (old new : Text) (c : Constraint) : Option Constraint :=
  let asSolver := (objectType == .any || objectType == .solver) && c.solver == old
  let inOperand := objectType != .solver && c.operand.names.contains old
  let inBound := objectType != .solver && c.bound.names.contains old
  if asSolver || inOperand || inBound then
    let operand := if inOperand then c.operand.rename old new else c.operand
    some
      { c with
        solver := if asSolver then new else c.solver
        name := if inOperand then operand.display else c.name
        operand
        boundName := if inBound then Text.replaceWord old new c.boundName else c.boundName
        bound := if inBound then c.bound.rename old new else c.bound }
  else none

end Constraint

end MissionScript
