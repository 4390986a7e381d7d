import MissionScript.Text.Basic

/-!
# Kinds of commands

Every kind of command that a sequence can hold, and what the kind says about the structure of the
sequence: which commands own branches, which open and close blocks, and what closes an open block.
-/

namespace MissionScript

/-- A kind of command. A keyword without behavior of its own makes a `generic` command, which keeps
the keyword as its type name. -/
inductive CommandKind where
  | noOp
  | beginMissionSequence
  | beginScript
  | endScript
  | assignment
  | callFunction
  | ifThen
  | otherwise
  | endIf
  | whileLoop
  | endWhile
  | forLoop
  | endFor
  | optimize
  | endOptimize
  | target
  | endTarget
  | minimize
  | nonlinearConstraint
  | generic
deriving DecidableEq, Repr

namespace CommandKind

def all : List CommandKind :=
  [noOp, beginMissionSequence, beginScript, endScript, assignment, callFunction, ifThen, otherwise,
   endIf, whileLoop, endWhile, forLoop, endFor, optimize, endOptimize, target, endTarget, minimize,
   nonlinearConstraint, generic]

def name : CommandKind → Text
  | noOp => "NoOp".toList
  | beginMissionSequence => "BeginMissionSequence".toList
  | beginScript => "BeginScript".toList
  | endScript => "EndScript".toList
  | assignment => "Assignment".toList
  | callFunction => "CallFunction".toList
  | ifThen => "If".toList
  | otherwise => "Else".toList
  | endIf => "EndIf".toList
  | whileLoop => "While".toList
  | endWhile => "EndWhile".toList
  | forLoop => "For".toList
  | endFor => "EndFor".toList
  | optimize => "Optimize".toList
  | endOptimize => "EndOptimize".toList
  | target => "Target".toList
  | endTarget => "EndTarget".toList
  | minimize => "Minimize".toList
  | nonlinearConstraint => "NonlinearConstraint".toList
  | generic => "Generic".toList

/-- The family that a kind answers to besides its own name. -/
def family? : CommandKind → Option Text
  | ifThen | whileLoop => some "ConditionalBranch".toList
  | optimize | target => some "SolverBranchCommand".toList
  | _ => none

/-- The kind that closes the block which this kind opens. -/
def terminator? : CommandKind → Option CommandKind
  | beginScript => some endScript
  | ifThen => some endIf
  | whileLoop => some endWhile
  | forLoop => some endFor
  | optimize => some endOptimize
  | target => some endTarget
  | _ => none

/-- The kind owns branches. A script block is no branch: its commands stay on the chain. -/
def ownsBranches : CommandKind → Bool
  | ifThen | whileLoop | forLoop | optimize | target => true
  | _ => false

def opensBlock (kind : CommandKind) : Bool := kind.terminator?.isSome

def closesBlock : CommandKind → Bool
  | endScript | endIf | endWhile | endFor | endOptimize | endTarget => true
  | _ => false

/-- The kind ends a branch. `Else` ends the first branch of an `If` without closing the `If`. -/
def endsBranch : CommandKind → Bool
  | otherwise | endIf | endWhile | endFor | endOptimize | endTarget => true
  | _ => false

/-- The kind of command that a keyword starts. -/
def ofKeyword (keyword : Text) : CommandKind :=
  let reserved : CommandKind → Bool
    | assignment | callFunction | generic => true
    | _ => false
  (all.find? fun kind => kind.name == keyword && !reserved kind).getD generic

/-- What closes an open block is what its terminator closes. -/
theorem closesBlock_iff (kind : CommandKind) :
    kind.closesBlock ↔ ∃ opener : CommandKind, opener.terminator? = some kind := by
  cases kind <;> simp only [closesBlock, Bool.false_eq_true, false_iff, true_iff, not_exists]
  case endScript => exact ⟨beginScript, rfl⟩
  case endIf => exact ⟨ifThen, rfl⟩
  case endWhile => exact ⟨whileLoop, rfl⟩
  case endFor => exact ⟨forLoop, rfl⟩
  case endOptimize => exact ⟨optimize, rfl⟩
  case endTarget => exact ⟨target, rfl⟩
  all_goals intro opener; cases opener <;> simp [terminator?]

end CommandKind

/-- Categories of objects that a command can be asked about. -/
inductive ObjectType where
  | any
  | spacecraft
  | parameter
  | solver
  | hardware
  | function
deriving DecidableEq, Repr

namespace ObjectType

def name : ObjectType → String
  | any => "object"
  | spacecraft => "Spacecraft"
  | parameter => "Parameter"
  | solver => "Solver"
  | hardware => "Hardware"
  | function => "Function"

end ObjectType

end MissionScript
