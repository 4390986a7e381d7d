import MissionScript.Run.Plan
import MissionScript.Run.Session

/-!
# Runs

Running the plan of a mission: assignments change the objects, conditions choose branches, loops make
passes up to a limit, and inside a solver loop results are reported to its solver.
-/

namespace MissionScript

namespace Run

/-- Fail with an error in a command. -/
def fail (c : Command) (error : SequenceError) : Run α := do throw ((← get).diagnose c error)

/-- The result of a computation that a command asks for. -/
def require (c : Command) : Except ValueError α → Run α
  | .ok a => return a
  | .error cause => fail c (.execution c.subject (.value cause))

/-- Change the session after a step, also when the step fails. -/
def andThen (step : Run α) (after : Session → Session) : Run α := fun s =>
  let (result, s) := step s
  (result, after s)

/-- Count a command that is about to run. -/
def enter (h : Handle) : Run Command := do
  let s ← get
  match s.arena.command? h with
  | none => throw (.locate (.staleHandle h) none s.mission.source)
  | some c =>
    set { s with executed := s.executed + 1 }
    return c

def assign (c : Command) : Run Unit := do
  match c.body with
  | .assignment target expression =>
    let (_, objects) ← require c (expression.assignTo (← get).objects target)
    modify (·.withObjects objects)
  | _ => return

/-- Whether the condition of a command holds. A command without a condition has none that holds. -/
def test (c : Command) : Run Bool := do
  match c.body with
  | .condition condition => require c (condition.value (← get).objects)
  | _ => return false

/-- Functions are not run: a warning says so. -/
def skipCall (c : Command) : Run Unit := modify fun s =>
  let warning := { s.diagnose c (.execution c.subject .functionCall) with isWarning := true }
  { s with warnings := warning :: s.warnings }

/-- Report to the solver of the innermost loop. -/
def report (h : Handle) (c : Command) : Run Unit := do
  let s ← get
  match s.activeSolver? with
  | none => fail c (.execution c.subject .outsideSolverLoop)
  | some (name, solver) =>
    match c.report s.objects solver with
    | .error e => fail c e
    | .ok (c, solver) =>
      let arena := (s.arena.modify? h ({ · with command := c })).getD s.arena
      set { s.withArena arena with solvers := s.solvers.insert name solver }

/-- Make passes as long as `again` admits them. A pass gives the state for the next one, or none to
stop. The loop fails when it needs more than `remaining` passes. -/
def passes (c : Command) (again : σ → Run Bool) (pass : σ → Run (Option σ)) :
    (remaining : Nat) → σ → Run Unit
  | remaining, state => do
    if ← again state then
      match remaining with
      | 0 => fail c (.loopLimit c.typeName (← get).options.passLimit)
      | remaining + 1 =>
        match ← pass state with
        | none => return
        | some state => passes c again pass remaining state

/-- Make passes up to the limit of the session. -/
def loop (c : Command) (start : σ) (again : σ → Run Bool) (pass : σ → Run (Option σ)) :
    Run Unit := do
  passes c again pass (← get).options.passLimit start

def whileLoop (c : Command) (body : Run Unit) : Run Unit :=
  loop c () (fun _ => test c) fun _ => do
    body
    return some ()

/-- Run a body for every number of a range. The bounds are computed once. -/
def forLoop (c : Command) (body : Run Unit) : Run Unit := do
  match c.body with
  | .range range =>
    let bounds ← require c (range.bounds (← get).objects)
    loop c bounds.start (fun value => return bounds.admits value) fun value => do
      let objects ← require c (range.index.assign (← get).objects value)
      modify (·.withObjects objects)
      body
      return some (value + bounds.step)
  | _ => return

/-- Complete a pass of a solver loop, and tell whether another one follows. -/
def advance (solver : Text) : Run Bool := do
  let s ← get
  match s.solvers.get? solver with
  | none => return false
  | some held =>
    let held := held.advance
    set { s with solvers := s.solvers.insert solver held }
    return held.state != .finished

/-- Start the solver of a loop with the limit that its object sets. -/
def startSolver (c : Command) (solver : Text) : Run Unit := do
  let s ← get
  match s.objects.get? solver, s.solvers.get? solver with
  | some object, some held =>
    let held := held.start (object.parameter? maximumIterations)
    set { s with solvers := s.solvers.insert solver held, active := solver :: s.active }
  | _, _ => fail c (.unresolvedReference c.subject (.noSolver solver))

/-- Run a body as often as its solver asks for. Afterwards its results are forgotten. -/
def solverLoop (h : Handle) (c : Command) (body : Run Unit) : Run Unit := do
  match c.body with
  | .solverLoop l =>
    startSolver c l.solver
    let iterate := loop c () (fun _ => return true) fun _ => do
      body
      if l.mode = .runInitialGuess then return none
      return if ← advance l.solver then some () else none
    andThen iterate fun s =>
      { s.withArena (s.arena.forgetResults h) with active := s.active.tail }
  | _ => return

/-- Run a command whose first two branches run as given. -/
def command (h : Handle) (first second : Run Unit) : Run Unit := do
  let c ← enter h
  match c.kind with
  | .assignment => assign c
  | .callFunction => skipCall c
  | .ifThen => if ← test c then first else second
  | .whileLoop => whileLoop c first
  | .forLoop => forLoop c first
  | .optimize | .target => solverLoop h c first
  | .minimize | .nonlinearConstraint => report h c
  | _ => return

end Run

namespace Plan

def run : Plan → Run Unit
  | done => return
  | lost h => do
    let _ ← Run.enter h
  | step h first second next => do
    Run.command h first.run second.run
    next.run
  | script h body next => do
    let _ ← Run.enter h
    body.run
    next.run
  | openScript h body => do
    let c ← Run.enter h
    body.run
    Run.fail c (.unmatchedBlock c.subject)

end Plan

namespace Session

/-- Forget the numbers of all results. -/
def forgetResults (s : Session) : Session :=
  let commands := (s.arena.next? s.mission.head).elim [] s.arena.commandsFrom
  s.withArena (commands.foldl Arena.forgetResult s.arena)

/-- Run the mission once. -/
def execute : Run RunReport := do
  if !(← get).ready then prepare
  modify ({ · with executed := 0, warnings := [] })
  let s ← get
  Run.andThen (s.arena.plan s.mission.head).run forgetResults
  let s ← get
  return {
    executed := s.executed
    results := s.solvers.entries.map fun (name, solver) => (name, solver.results)
    warnings := s.warnings.reverse }

end Session

end MissionScript
