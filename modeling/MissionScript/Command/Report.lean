import MissionScript.Command.Basic

/-!
# Reports

What a result command does each time it runs: the first time it registers its result with the solver
of the loop around it, later it reports the value of the result.
-/

namespace MissionScript

namespace ResultState

/-- Register the result if it has no number, and report its value otherwise. `owner` is the solver
that the command names. -/
def report (state : ResultState) (owner : Text) (kind : ResultKind) (name : Text)
    (value : Except ValueError Float) (solver : DryRun) :
    Except RunError (ResultState × DryRun) :=
  if owner != solver.name then .error (.otherSolver owner solver.name)
  else match state.id? with
    | none =>
      let (id, solver) := solver.register kind name
      .ok (.registered id, solver)
    | some id =>
      match value with
      | .error cause => .error (.value cause)
      | .ok value =>
        match solver.report? id value with
        | none => .error (.noResult solver.name id)
        | some solver => .ok (.reporting id, solver)

end ResultState

namespace Objective

def report (o : Objective) (store : Store) (solver : DryRun) :
    Except RunError (Objective × DryRun) := do
  let (state, solver) ←
    o.state.report o.solver .objective o.name (o.operand.value store) solver
  return ({ o with state }, solver)

end Objective

namespace Constraint

def report (c : Constraint) (store : Store) (solver : DryRun) :
    Except RunError (Constraint × DryRun) := do
  let (state, solver) ←
    c.state.report c.solver (.constraint c.kind) c.name (c.value store) solver
  return ({ c with state }, solver)

end Constraint

namespace CommandBody

/-- Report to a solver. A body without a result has nothing to report. -/
def report (store : Store) (solver : DryRun) :
    CommandBody → Except RunError (CommandBody × DryRun)
  | objective o => (o.report store solver).map fun (o, solver) => (objective o, solver)
  | constraint c => (c.report store solver).map fun (c, solver) => (constraint c, solver)
  | body => .ok (body, solver)

end CommandBody

namespace Command

/-- Run a result command inside the loop of a solver. Nothing changes if it fails. -/
def report (c : Command) (store : Store) (solver : DryRun) :
    Except SequenceError (Command × DryRun) :=
  match c.body.report store solver with
  | .ok (body, solver) => .ok ({ c with body }, solver)
  | .error cause => .error (.execution c.subject cause)

end Command

end MissionScript
