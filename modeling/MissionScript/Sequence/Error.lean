import MissionScript.Command.Argument
import MissionScript.Command.Kind
import MissionScript.Script.Block

/-!
# Sequence errors

What goes wrong while a command sequence is built, edited, prepared and run, with the messages.
-/

namespace MissionScript

/-- A handle to a command of an arena: a slot, and which of its occupants is meant. -/
structure Handle where
  index : Nat
  generation : UInt32
deriving DecidableEq, Repr

namespace Handle

/-- The slot of a handle as listings and messages show it. -/
def display (h : Handle) : Text := "cmd#".toList ++ Text.ofNat h.index

end Handle

/-- The command that an error is about, as messages show it. -/
structure Subject where
  typeName : Text
  generating : Text
deriving DecidableEq, Repr

/-- Why the references of a command do not resolve. -/
inductive ResolutionError where
  | undefined (name : Text)
  | solverNotCreated (name : Text)
  | notSolver (name : Text)
  /-- A solver loop runs, and no solver has the name. -/
  | noSolver (name : Text)
deriving DecidableEq, Repr

namespace ResolutionError

def message : ResolutionError → String
  | undefined name => "undefined object " ++ name.quoted
  | solverNotCreated name => "solver " ++ name.quoted ++ " was not created"
  | notSolver name => name.quoted ++ " is not a solver"
  | noSolver name => "no solver named " ++ name.quoted

end ResolutionError

/-- Why a command fails when it runs. -/
inductive RunError where
  | value (error : ValueError)
  | functionCall
  | outsideSolverLoop
  | otherSolver (named active : Text)
  | noResult (solver : Text) (id : Nat)

namespace RunError

def message : RunError → String
  | value error => error.message
  | functionCall => "function calls are not executed"
  | outsideSolverLoop => "not inside an Optimize or Target loop"
  | otherSolver named active =>
    "refers to solver " ++ named.quoted ++ " but runs inside the " ++ active.quoted ++ " loop"
  | noResult solver id =>
    solver.str ++ " has no result with id " ++ (Text.ofNat id).str

end RunError

inductive SequenceError where
  /-- Nothing closes a block. -/
  | unmatchedBlock (subject : Subject)
  /-- A script block to be removed has no command before it. -/
  | nullPrevious (subject : Subject)
  /-- No branch command owns the first command of a branch. -/
  | parentNotFound (subject : Subject)
  | cannotRemoveHead
  | staleHandle (handle : Handle)
  /-- A terminator does not close the innermost open block. -/
  | unexpectedTerminator (subject : Subject) (expected : Option CommandKind)
  | unresolvedReference (subject : Subject) (cause : ResolutionError)
  | invalidArgument (subject : Subject) (cause : ArgumentError)
  | unsupportedObjectType (typeName : Text) (objectType : ObjectType)
  | duplicateObject (name : Text)
  | execution (subject : Subject) (cause : RunError)
  /-- A loop reached the limit on its passes. -/
  | loopLimit (typeName : Text) (limit : Nat)
  | parse (error : ParseError)

namespace SequenceError

def message : SequenceError → String
  | unmatchedBlock s =>
    "no matching end found for " ++ s.typeName.str ++ " command " ++ s.generating.quoted
  | nullPrevious s =>
    "previous command cannot be null when removing " ++ s.typeName.str ++ " command " ++
      s.generating.quoted
  | parentNotFound s =>
    "parent command not found for " ++ s.typeName.str ++ " command " ++ s.generating.quoted
  | cannotRemoveHead => "the first command of a sequence cannot be removed"
  | staleHandle h => "command " ++ h.display.str ++ " no longer exists"
  | unexpectedTerminator s (some expected) =>
    s.typeName.str ++ " found where " ++ expected.name.str ++ " was expected in " ++
      s.generating.quoted
  | unexpectedTerminator s none =>
    s.typeName.str ++ " has no open block to close in " ++ s.generating.quoted
  | unresolvedReference s cause =>
    "cannot initialize " ++ s.typeName.str ++ " command " ++ s.generating.quoted ++ ": " ++
      cause.message
  | invalidArgument s cause =>
    cause.message ++ " in " ++ s.typeName.str ++ " command " ++ s.generating.quoted
  | unsupportedObjectType typeName objectType =>
    typeName.str ++ " command has no " ++ objectType.name ++ " references"
  | duplicateObject name => "an object named " ++ name.quoted ++ " already exists"
  | execution s cause =>
    s.typeName.str ++ " failed in " ++ s.generating.quoted ++ ": " ++ cause.message
  | loopLimit typeName limit =>
    typeName.str ++ " loop exceeded " ++ (Text.ofNat limit).str ++ " iterations"
  | parse error => error.message

end SequenceError

/-- An error or a warning with the place of the statement that it comes from. -/
structure Diagnostic where
  error : SequenceError
  span : Option Span := none
  /-- The number of the source file. -/
  source : Nat := 0
  isWarning : Bool := false

namespace Diagnostic

/-- A diagnostic for a statement of a source, or for a command that comes from none. -/
def locate (error : SequenceError) (span : Option Span) (source : Nat) : Diagnostic :=
  match span with
  | some span => { error, span := some span, source }
  | none => { error }

end Diagnostic

end MissionScript
