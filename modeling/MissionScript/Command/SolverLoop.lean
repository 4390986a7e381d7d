import MissionScript.Command.Argument
import MissionScript.Script.Split

/-!
# Solver loops

The arguments of `Optimize` and `Target`: a solver and a block of options,
`solver {Option = value, ...}`.
-/

namespace MissionScript

/-- How a solver loop treats its body. -/
inductive SolveMode where
  /-- Iterate until the solver is finished. -/
  | solve
  /-- Run the body once with the initial guesses and stop. -/
  | runInitialGuess
deriving DecidableEq, Repr

namespace SolveMode

def name : SolveMode → Text
  | solve => "Solve".toList
  | runInitialGuess => "RunInitialGuess".toList

def ofName? (name : Text) : Option SolveMode :=
  [solve, runInitialGuess].find? (·.name == name)

end SolveMode

inductive SolverOption where
  | solveMode
  | exitMode
  | showProgressWindow
deriving DecidableEq, Repr

namespace SolverOption

def all : List SolverOption := [solveMode, exitMode, showProgressWindow]

def name : SolverOption → Text
  | solveMode => "SolveMode".toList
  | exitMode => "ExitMode".toList
  | showProgressWindow => "ShowProgressWindow".toList

def ofName? (name : Text) : Option SolverOption := all.find? (·.name == name)

end SolverOption

structure SolverLoop where
  solver : Text
  mode : SolveMode := .solve
  /-- The options as they are written, under their names. -/
  options : Table Text := .empty
deriving DecidableEq, Repr

namespace SolverLoop

def option? (s : SolverLoop) (o : SolverOption) : Option Text := s.options.get? o.name

/-- Set an option. The last value of an option stands. -/
def setOption (s : SolverLoop) (o : SolverOption) (written : Text) :
    Except ArgumentError SolverLoop := do
  let mode ← match o with
    | .solveMode =>
      match SolveMode.ofName? written with
      | some mode => pure mode
      | none => throw (.unknownSolveMode written)
    | _ => pure s.mode
  return { s with mode, options := s.options.insert o.name written }

/-- Set the option of an entry `Option = value`. -/
def addEntry (s : SolverLoop) (entry : Text) : Except ArgumentError SolverLoop :=
  match entry.cutAt '=' with
  | none => .error (.badOption entry)
  | some (key, written) =>
    match SolverOption.ofName? key.trim with
    | none => .error (.unknownOption key.trim)
    | some o => s.setOption o written.trim

/-- The solver name and the option block, if there is one. -/
def split (arguments : Text) : Except ArgumentError (Text × Option Text) := do
  match ← (decompose .brace false false arguments).mapError .parse with
  | [] => throw .solverMissing
  | [solver] => return (solver, none)
  | [solver, options] =>
    if options.head? == some '\x7b' then return (solver, some options)
    else throw (.badSolverLoop arguments.trim)
  | _ => throw (.badSolverLoop arguments.trim)

def parse (arguments : Text) : Except ArgumentError SolverLoop := do
  let (solver, options) ← split arguments
  if !solver.isIdentifier then throw (.badSolverName solver)
  match options with
  | none => return { solver }
  | some options =>
    let entries ← (separateGroup .brace [','] true options).mapError .parse
    entries.foldlM addEntry { solver }

def rename (old new : Text) (s : SolverLoop) : SolverLoop :=
  { s with solver := if s.solver = old then new else s.solver }

end SolverLoop

end MissionScript
