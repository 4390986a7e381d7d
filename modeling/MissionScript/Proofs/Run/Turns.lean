import MissionScript.Proofs.Run.Moments

/-!
# Turns of a solver loop

A solver loop whose body does not start the solver again makes one turn more than the nominal passes that the solver
is started with, the first one to register results, unless the limit of passes cuts it short or its body fails. With
the initial guess it makes a single turn. The body may be any program: it keeps the limit and the passes of the solver.
-/

namespace MissionScript

open Step

/-- How many turns a loop is due to make if its solver makes so many nominal passes. -/
def SolverLoop.due (l : SolverLoop) (limit : Nat) : Nat :=
  match l.mode with
  | .solve => limit + 1
  | .runInitialGuess => 1

namespace Direct

/-- A turn runs the body and, if the solver iterates, completes a pass of the solver. -/
def turn (l : SolverLoop) (body : Direct Unit) : Direct Unit := do
  body
  match l.mode with
  | .solve =>
    let _ ← advance l.solver
    return
  | .runInitialGuess => return

/-- So many turns lead from one world to another. -/
inductive Turns (turn : Direct Unit) (first : World) : Nat → World → Prop where
  | none : Turns turn first 0 first
  | more {made : Nat} {w next : World} : Turns turn first made w → turn w = (.ok (), next) →
      Turns turn first (made + 1) next

/-- How a solver loop ends that is due to make so many turns. -/
inductive Ends (t : Terms) (c : Command) (l : SolverLoop) (body : Direct Unit) (first : World) (due : Nat) :
    Except Diagnostic Unit × World → Prop where
  | completed {last : World} (within : due ≤ t.passLimit) (made : Turns (turn l body) first due last) :
      Ends t c l body first due (.ok (), last)
  | cut {last : World} (beyond : t.passLimit < due) (made : Turns (turn l body) first t.passLimit last) :
      Ends t c l body first due (.error (.locate (.loopLimit c.typeName t.passLimit) c.span t.source), last)
  /-- The body fails in one of the turns. -/
  | failed {count : Nat} {before after : World} {e : Diagnostic} (early : count < due) (within : count < t.passLimit)
      (made : Turns (turn l body) first count before) (fails : body before = (.error e, after)) :
      Ends t c l body first due (.error e, after)

end Direct

/-! ## Counting passes -/

/-- The solver makes so many nominal passes and has completed so many passes. -/
def World.Counts (solver : Text) (limit passes : Nat) (w : World) : Prop :=
  ∃ held, w.solvers.get? solver = some held ∧ held.limit = limit ∧ held.passes = passes

/-- The world after a solver has been started for a loop. -/
def World.start (w : World) (name : Text) (solver : DryRun) (limit : Option Float) : World :=
  { w with
    solvers := w.solvers.insert name (solver.start limit)
    active := name :: w.active }

namespace World.Counts

variable {name other : Text} {limit passes : Nat} {w : World} {solver next : DryRun}

end World.Counts

namespace Direct

variable {t : Terms} {c : Command} {l : SolverLoop} {body : Direct Unit} {first w : World} {limit : Nat}

theorem startSolver_eq {name : Text} {object : Object} {solver : DryRun} (found : w.objects.get? name = some object)
    (held : w.solvers.get? name = some solver) :
    startSolver t c name w = (.ok (), w.start name solver (object.parameter? maximumIterations)) := by
  unfold startSolver
  rw [Step.get_bind, found, held]
  rfl

/-- What a solver loop does once it has been counted. -/
theorem block_eq {position size : Nat} (loops : c.kind = .optimize ∨ c.kind = .target) :
    block t position size c body w = solverLoop t position size c body (count w).2 := by
  have counts : count w = (.ok (), (count w).2) := rfl
  unfold block
  rw [Step.bind_ok counts]
  rcases loops with kind | kind
  · rw [kind]
  · rw [kind]

end Direct

end MissionScript
