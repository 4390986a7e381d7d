import MissionScript.Objects.Store

/-!
# Solvers

A solver drives a solver loop and collects what the commands of its body report. The dry run makes one
pass in which results are registered and then as many nominal passes as its iteration limit says,
recording values without changing anything.
-/

namespace MissionScript

/-- The parameter that limits the nominal passes. -/
def maximumIterations : Text := "MaximumIterations".toList

inductive ConstraintKind where
  | lessOrEqual
  | greaterOrEqual
  | equality
deriving DecidableEq, Repr

namespace ConstraintKind

def symbol : ConstraintKind → Text
  | lessOrEqual => ['<', '=']
  | greaterOrEqual => ['>', '=']
  | equality => ['=']

end ConstraintKind

/-- What a result is. -/
inductive ResultKind where
  | objective
  | constraint (kind : ConstraintKind)
deriving DecidableEq, Repr

namespace ResultKind

def name : ResultKind → Text
  | objective => "objective".toList
  | constraint kind => "constraint (".toList ++ kind.symbol ++ [')']

end ResultKind

structure SolverResult where
  kind : ResultKind
  name : Text
  /-- The last value reported. -/
  value : Option Float := none
  reports : Nat := 0

inductive SolverState where
  /-- The first pass, in which results are registered. -/
  | initializing
  | nominal
  | finished
deriving DecidableEq, Repr

/-- A solver that only records. -/
structure DryRun where
  name : Text
  /-- How many nominal passes it makes. -/
  limit : Nat := 1
  /-- The passes completed in this run. -/
  passes : Nat := 0
  state : SolverState := .initializing
  results : List SolverResult := []

/-- A number of passes as a whole number: fractions are dropped, and what is negative or no number
counts as zero. -/
def passLimit (value : Float) : Nat := if 0 < value then value.toUInt64.toNat else 0

namespace DryRun

/-- Begin a run with the limit that a solver object sets. -/
def start (s : DryRun) (limit : Option Float) : DryRun where
  name := s.name
  limit := limit.elim 1 passLimit

/-- Reserve a result and give its number. The same kind and name have one number. -/
def register (s : DryRun) (kind : ResultKind) (name : Text) : Nat × DryRun :=
  match s.results.findIdx? fun r => r.kind == kind && r.name == name with
  | some id => (id, s)
  | none => (s.results.length, { s with results := s.results ++ [{ kind, name }] })

/-- Record a value. Nothing if no result has this number. -/
def report? (s : DryRun) (id : Nat) (value : Float) : Option DryRun :=
  match s.results[id]? with
  | none => none
  | some r =>
    let r := { r with value := some value, reports := r.reports + 1 }
    some { s with results := s.results.set id r }

/-- Complete a pass. -/
def advance (s : DryRun) : DryRun :=
  let passes := s.passes + 1
  { s with passes, state := if s.limit < passes then .finished else .nominal }

end DryRun

end MissionScript
