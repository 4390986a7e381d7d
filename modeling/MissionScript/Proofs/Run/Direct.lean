import MissionScript.Proofs.Mission.Program
import MissionScript.Run.Session

/-!
# Reading programs directly

What a program does, read off its blocks. There is no arena here and nothing is linked: the bodies of
blocks are parts of the program, and the results that commands have registered with solvers are kept by
the positions of the commands.
-/

namespace MissionScript

/-- What a program works on. -/
structure World where
  objects : Store
  solvers : Table DryRun
  /-- The solvers of the loops that are running, innermost first. -/
  active : List Text := []
  /-- Where the result command at each position stands with its solver. -/
  results : Nat → ResultState := fun _ => .unregistered
  /-- How many commands have run. -/
  executed : Nat := 0
  /-- The warnings so far, last first. -/
  warnings : List Diagnostic := []

/-- What stays the same while a program is read. -/
structure Terms where
  /-- The number of the source file. -/
  source : Nat
  /-- How many passes a loop may make. -/
  passLimit : Nat

abbrev Direct := ExceptT Diagnostic (StateM World)

namespace CommandBody

/-- The arguments of a result command that stands so with its solver. -/
def withState (state : ResultState) : CommandBody → CommandBody
  | objective o => objective { o with state }
  | constraint c => constraint { c with state }
  | body => body

end CommandBody

/-- A result command that stands so with its solver. -/
def Command.withState (state : ResultState) (c : Command) : Command :=
  { c with body := c.body.withState state }

namespace Direct

variable (t : Terms)

def fail {α : Type} (c : Command) (error : SequenceError) : Direct α :=
  throw (.locate error c.span t.source)

def require {α : Type} (c : Command) : Except ValueError α → Direct α
  | .ok value => return value
  | .error cause => fail t c (.execution c.subject (.value cause))

def count : Direct Unit := modify fun w => { w with executed := w.executed + 1 }

def assign (c : Command) : Direct Unit := do
  match c.body with
  | .assignment target expression =>
    let (_, objects) ← require t c (expression.assignTo (← get).objects target)
    modify ({ · with objects })
  | _ => return

def test (c : Command) : Direct Bool := do
  match c.body with
  | .condition condition => require t c (condition.value (← get).objects)
  | _ => return false

/-- Functions are not run: a warning says so. -/
def skipCall (c : Command) : Direct Unit := modify fun w =>
  let warning :=
    { Diagnostic.locate (.execution c.subject .functionCall) c.span t.source with isWarning := true }
  { w with warnings := warning :: w.warnings }

/-- Report to the solver of the innermost loop. -/
def report (position : Nat) (c : Command) : Direct Unit := do
  let w ← get
  match w.active.head?.bind fun name => (w.solvers.get? name).map fun solver => (name, solver) with
  | none => fail t c (.execution c.subject .outsideSolverLoop)
  | some (name, solver) =>
    match (c.withState (w.results position)).report w.objects solver with
    | .error e => fail t c e
    | .ok (reported, solver) =>
      let state := reported.body.resultState?.getD .unregistered
      set { w with
        results := fun other => if other = position then state else w.results other
        solvers := w.solvers.insert name solver }

/-- A command that neither opens nor ends a block. -/
def plain (position : Nat) (c : Command) : Direct Unit := do
  count
  match c.kind with
  | .assignment => assign t c
  | .callFunction => skipCall t c
  | .minimize | .nonlinearConstraint => report t position c
  | _ => return

/-- Make passes as long as `again` admits them, at most `remaining`. A pass gives the state for the
next one, or none to stop. -/
def passes {σ : Type} (c : Command) (again : σ → Direct Bool) (pass : σ → Direct (Option σ)) :
    (remaining : Nat) → σ → Direct Unit
  | remaining, state => do
    if ← again state then
      match remaining with
      | 0 => fail t c (.loopLimit c.typeName t.passLimit)
      | remaining + 1 =>
        match ← pass state with
        | none => return
        | some state => passes c again pass remaining state

def whileLoop (c : Command) (body : Direct Unit) : Direct Unit :=
  passes t c (fun _ => test t c) (fun _ => do
    body
    return some ()) t.passLimit ()

/-- Run a body for every number of a range, which is computed once. -/
def forLoop (c : Command) (body : Direct Unit) : Direct Unit := do
  match c.body with
  | .range range =>
    let bounds ← require t c (range.bounds (← get).objects)
    passes t c (fun value => return bounds.admits value) (fun value => do
      let objects ← require t c (range.index.assign (← get).objects value)
      modify ({ · with objects })
      body
      return some (value + bounds.step)) t.passLimit bounds.start
  | _ => return

/-- Start a solver with the limit that its object sets. -/
def startSolver (c : Command) (solver : Text) : Direct Unit := do
  let w ← get
  match w.objects.get? solver, w.solvers.get? solver with
  | some object, some held =>
    let held := held.start (object.parameter? maximumIterations)
    set { w with solvers := w.solvers.insert solver held, active := solver :: w.active }
  | _, _ => fail t c (.unresolvedReference c.subject (.noSolver solver))

/-- Complete a pass of a solver, and tell whether another one follows. -/
def advance (solver : Text) : Direct Bool := do
  let w ← get
  match w.solvers.get? solver with
  | none => return false
  | some held =>
    set { w with solvers := w.solvers.insert solver held.advance }
    return held.advance.state != .finished

/-- Leave a solver loop: its results are forgotten. -/
def leave (position size : Nat) (w : World) : World :=
  { w with
    active := w.active.tail
    results := fun other =>
      if position ≤ other ∧ other < position + size then .unregistered else w.results other }

/-- Change the world after a step, also when the step fails. -/
def andThen {α : Type} (step : Direct α) (after : World → World) : Direct α := fun w =>
  let (outcome, w) := step w
  (outcome, after w)

/-- Run a body as often as its solver asks for. The loop takes up `size` positions. -/
def solverLoop (position size : Nat) (c : Command) (body : Direct Unit) : Direct Unit := do
  match c.body with
  | .solverLoop l =>
    startSolver t c l.solver
    let iterate := passes t c (fun _ => return true) (fun _ => do
      body
      if l.mode = .runInitialGuess then return none
      return if ← advance l.solver then some () else none) t.passLimit ()
    andThen iterate (leave position size)
  | _ => return

/-- A command with one branch, which takes up `size` positions. -/
def block (position size : Nat) (c : Command) (body : Direct Unit) : Direct Unit := do
  count
  match c.kind with
  | .ifThen => if ← test t c then body
  | .whileLoop => whileLoop t c body
  | .forLoop => forLoop t c body
  | .optimize | .target => solverLoop t position size c body
  | _ => return

/-- An `If` with two branches. -/
def choice (c : Command) (first second : Direct Unit) : Direct Unit := do
  count
  if ← test t c then first else second

end Direct

namespace Program

/-- How many commands there are. -/
def size (p : Program) : Nat := p.commands.length

/-- Run the commands of a program in order. `position` is that of the first one. -/
def run (t : Terms) : (position : Nat) → Program → Direct Unit
  | _, done => return
  | position, plain c _ next => do
    Direct.plain t position c
    next.run t (position + 1)
  | position, script _ _ body _ _ next => do
    Direct.count
    body.run t (position + 1)
    next.run t (position + 1 + (body.size + 1))
  | position, block opener body _ _ next => do
    Direct.block t position (1 + (body.size + 1)) opener do
      body.run t (position + 1)
      Direct.count
    next.run t (position + 1 + (body.size + 1))
  | position, choice opener _ first _ _ second _ _ next => do
    Direct.choice t opener
      (do
        first.run t (position + 1)
        Direct.count)
      (do
        second.run t (position + 1 + (first.size + 1))
        Direct.count)
    next.run t (position + 1 + (first.size + 1) + (second.size + 1))

/-- Run a whole program, with a report if it succeeds. -/
def perform (t : Terms) (p : Program) (w : World) : Except Diagnostic RunReport × World :=
  let (outcome, w) := p.run t 1 w
  (outcome.map fun _ => {
    executed := w.executed
    results := w.solvers.entries.map fun (name, solver) => (name, solver.results)
    warnings := w.warnings.reverse }, w)

end Program

end MissionScript
