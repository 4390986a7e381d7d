import MissionScript.Expression.Token
import MissionScript.Script.Error

/-!
# Argument errors

The ways in which the arguments of a command, an assignment or a definition fail their grammar.
-/

namespace MissionScript

/-- What is wrong with the arguments of a statement. -/
inductive ArgumentError where
  | operand (error : OperandError)
  | expression (error : ExpressionError)
  | value (error : ValueError)
  /-- The arguments do not come apart; the message shows the text at fault. -/
  | parse (error : ParseError)
  /-- A list in a function call does not come apart; the message does not show the text. -/
  | argumentList (cause : ParseCause)
  | notCommand
  | unexpectedArguments (arguments : Text)
  | functionBlock
  | alreadyStarted
  | assignToNumber (target : Text)
  | badFunctionName (name : Text)
  | incompleteComparison (text : Text)
  | noRelation (text : Text)
  | noLoopIndex (text : Text)
  | numberAsIndex
  | badRange (range : Text)
  | solverMissing
  | badSolverLoop (arguments : Text)
  | badSolverName (name : Text)
  | badOption (entry : Text)
  | unknownOption (option : Text)
  | unknownSolveMode (mode : Text)
  | bracketsNotAllowed (arguments : Text)
  | badSolverCall (arguments : Text)
  | solverArgumentMissing (arguments : Text)
  | severalSolverArguments (arguments : Text)
  | numberAsObjective (objective : Text)
  | incompleteConstraint (text : Text)
  | numberAsConstrained (name : Text)
  | strictInequality (text : Text)
  | noConstraintRelation (text : Text)
  | badObjectName (name : Text)
  | noDimensions (token : Text)
  | badArrayName (name : Text)
  | badDimension (dimension : Text)
  | dimensionTooLarge
  | badDimensions (token : Text)

namespace ArgumentError

def message : ArgumentError → String
  | operand error => error.message
  | expression error => error.message
  | value error => error.message
  | parse error => error.message
  | argumentList cause => cause.message
  | notCommand => "not a command"
  | unexpectedArguments arguments => "unexpected arguments " ++ arguments.quoted
  | functionBlock => "function definitions cannot appear in a mission script"
  | alreadyStarted => "the mission sequence was already started"
  | assignToNumber target => "cannot assign to the number " ++ target.str
  | badFunctionName name => name.quoted ++ " is not a valid function name"
  | incompleteComparison text => "incomplete comparison " ++ text.quoted
  | noRelation text => "expecting a relational operator in " ++ text.quoted
  | noLoopIndex text => "expecting \"index = start:end\" in " ++ text.quoted
  | numberAsIndex => "loop index must be a variable"
  | badRange range => "expecting \"start:end\" or \"start:step:end\", got " ++ range.quoted
  | solverMissing => "solver name missing"
  | badSolverLoop arguments =>
    "expecting \"solver \x7boptions\x7d\", got " ++ arguments.quoted
  | badSolverName name => name.quoted ++ " is not a valid solver name"
  | badOption entry => "expecting \"Option = value\", got " ++ entry.quoted
  | unknownOption option => "unknown option " ++ option.quoted
  | unknownSolveMode mode => "unknown SolveMode " ++ mode.quoted
  | bracketsNotAllowed arguments =>
    "brackets \"[]\x7b\x7d\" are not allowed in " ++ arguments.quoted
  | badSolverCall arguments =>
    "expecting \"SolverName(argument)\", got " ++ arguments.quoted
  | solverArgumentMissing arguments => "missing argument in " ++ arguments.quoted
  | severalSolverArguments arguments => "expecting a single argument in " ++ arguments.quoted
  | numberAsObjective objective =>
    "objective " ++ objective.quoted ++ " must be a variable or parameter"
  | incompleteConstraint text => "incomplete constraint " ++ text.quoted
  | numberAsConstrained name =>
    "constrained value " ++ name.quoted ++ " must be a variable or parameter"
  | strictInequality text =>
    "strict inequality in " ++ text.quoted ++ ", use \"<=\" or \">=\""
  | noConstraintRelation text => "expecting \"<=\", \">=\" or \"=\" in " ++ text.quoted
  | badObjectName name => name.quoted ++ " is not a valid object name"
  | noDimensions token =>
    "array " ++ token.quoted ++ " needs dimensions, e.g. " ++ token.str ++ "[3,3]"
  | badArrayName name => name.quoted ++ " is not a valid array name"
  | badDimension dimension => "invalid array dimension " ++ dimension.quoted
  | dimensionTooLarge => "number too large to fit in target type"
  | badDimensions token => "invalid array dimensions in " ++ token.quoted

end ArgumentError

end MissionScript
