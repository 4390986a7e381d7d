import MissionScript.Command.Report
import MissionScript.Mission.Draft
import MissionScript.Sequence.Removal

/-!
# Sessions

A session holds a mission with the solvers that drive its loops. It is made ready once and can then
run any number of times; between runs objects can be renamed.
-/

namespace MissionScript

structure RunOptions where
  /-- The object types that count as solvers. -/
  solverTypes : List Text := builtinSolverTypes
  /-- How many passes a loop may make. -/
  passLimit : Nat := 100000

/-- What a run that succeeds tells. -/
structure RunReport where
  /-- How many commands ran, counted each time. -/
  executed : Nat
  /-- The results of every solver, by its name. -/
  results : List (Text × List SolverResult)
  warnings : List Diagnostic

structure Session where
  mission : Mission
  options : RunOptions := {}
  solvers : Table DryRun := .empty
  /-- The solvers of the loops that are running, innermost first. -/
  active : List Text := []
  /-- The references of all commands have been resolved. -/
  ready : Bool := false
  executed : Nat := 0
  /-- The warnings of the run, last first. -/
  warnings : List Diagnostic := []

/-- A step of a run. What it has changed before it fails stays. -/
abbrev Run := ExceptT Diagnostic (StateM Session)

namespace Session

def arena (s : Session) : Arena := s.mission.arena

def objects (s : Session) : Store := s.mission.objects

def withArena (s : Session) (arena : Arena) : Session :=
  { s with mission := { s.mission with arena } }

def withObjects (s : Session) (objects : Store) : Session :=
  { s with mission := { s.mission with objects } }

/-- All commands of the mission. -/
def commands (s : Session) : List Handle := s.arena.commandsFrom s.mission.head

/-- The solver of the innermost loop, with its name. -/
def activeSolver? (s : Session) : Option (Text × DryRun) :=
  s.active.head?.bind fun name => (s.solvers.get? name).map fun solver => (name, solver)

/-- An error in a command. -/
def diagnose (s : Session) (c : Command) (error : SequenceError) : Diagnostic :=
  .locate error c.span s.mission.source

def addSolver (s : Session) (name : Text) : Session :=
  { s with solvers := s.solvers.insert name { name } }

/-- Give every solver object that has no solver a new one. -/
def addSolvers (s : Session) : Session :=
  s.objects.entries.foldl (fun s (name, object) =>
    if s.options.solverTypes.contains object.typeName && !s.solvers.contains name then
      s.addSolver name
    else s) s

/-- The first error in the references of some commands. -/
def unresolved? (s : Session) (resolution : Resolution) : List Handle → Option Diagnostic
  | [] => none
  | h :: rest =>
    match s.arena.command? h with
    | none => some (.locate (.staleHandle h) none s.mission.source)
    | some c =>
      match c.resolve resolution with
      | .ok () => s.unresolved? resolution rest
      | .error e => some (s.diagnose c e)

/-- Make the session ready to run: give the solver objects their solvers and resolve the references
of all commands. -/
def prepare : Run Unit := do
  modify addSolvers
  let s ← get
  match s.unresolved? ⟨s.objects, s.options.solverTypes⟩ s.commands with
  | some e => throw e
  | none => set { s with ready := true }

/-- Put `new` for an object name in some commands, and count the commands that change. -/
def renameIn (objectType : ObjectType) (old new : Text) :
    List Handle → Arena → Except SequenceError Nat × Arena
  | [], a => (.ok 0, a)
  | h :: rest, a =>
    match Edit.rename h objectType old new a with
    | (.error e, a) => (.error e, a)
    | (.ok changed, a) =>
      let (count, a) := renameIn objectType old new rest a
      (count.map fun n => if changed then n + 1 else n, a)

/-- Rename an object in the store and in every command, and count the commands that change. -/
def rename (s : Session) (objectType : ObjectType) (old new : Text) :
    Except SequenceError Nat × Session :=
  match Store.rename? s.objects old new with
  | none => (.error (.duplicateObject new), s)
  | some (objects, _) =>
    let s := s.withObjects objects
    let (count, arena) := renameIn objectType old new s.commands s.arena
    (count, s.withArena arena)

/-- Where the result commands of the mission stand. -/
def resultStates (s : Session) : List ResultState :=
  s.commands.filterMap fun h => (s.arena.command? h).bind (·.body.resultState?)

end Session

end MissionScript
