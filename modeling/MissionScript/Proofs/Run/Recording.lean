import MissionScript.Proofs.Objects.Table
import MissionScript.Proofs.Run.Safety
import MissionScript.Proofs.Run.Simulation

/-!
# Where results are recorded

A result command keeps the number under which its solver records it. The solver forgets all numbers when
it is started, so a command that outlives the start of its solver keeps a number that may be given to
another one. As long as no solver is started inside its own loop this does not happen: a number stands
for the result of the command that keeps it, at every moment of a run.
-/

namespace MissionScript

/-! ## Numbers of a solver -/

namespace DryRun

variable {s next : DryRun} {id other : Nat} {kind kind' : ResultKind} {name name' : Text}

/-- The number stands for a result of this kind and name. -/
def holds (s : DryRun) (id : Nat) (kind : ResultKind) (name : Text) : Bool :=
  s.results[id]?.any fun r => r.kind == kind && r.name == name

theorem holds_iff : s.holds id kind name ↔
    ∃ r, s.results[id]? = some r ∧ r.kind = kind ∧ r.name = name := by
  simp [holds, Option.any_eq_true]

/-- A registered result has its number, and all others keep theirs. -/
theorem holds_register : (s.register kind name).2.holds (s.register kind name).1 kind name := by
  unfold register
  split
  · rename_i id found
    obtain ⟨inside, same, -⟩ := List.findIdx?_eq_some_iff_getElem.mp found
    refine holds_iff.mpr ⟨s.results[id], List.getElem?_eq_getElem inside, ?_⟩
    simpa using same
  · refine holds_iff.mpr ⟨{ kind, name }, ?_, rfl, rfl⟩
    exact List.getElem?_concat_length

theorem holds_register_of_holds (held : s.holds other kind' name') :
    (s.register kind name).2.holds other kind' name' := by
  unfold register
  split
  · exact held
  · obtain ⟨r, found, same⟩ := holds_iff.mp held
    refine holds_iff.mpr ⟨r, ?_, same⟩
    exact (List.getElem?_append_left (List.getElem?_eq_some_iff.mp found).1).trans found

/-- A solver that registers a result changes nothing but its results. -/
theorem register_snd : (s.register kind name).2 = { s with results := (s.register kind name).2.results } := by
  unfold register
  split
  · rfl
  · rfl

/-- What has a number can be reported. -/
theorem exists_report? (held : s.holds id kind name) (value : Float) :
    ∃ next, s.report? id value = some next := by
  obtain ⟨r, found, -⟩ := holds_iff.mp held
  exact ⟨_, by rw [report?, found]⟩

theorem eq_of_report? {value : Float} (reports : s.report? id value = some next) :
    next = { s with results := next.results } := by
  unfold report? at reports
  split at reports
  · cases reports
  · cases reports
    rfl

/-- A report changes the value of a result, and not what the result is. -/
theorem holds_of_report? {value : Float} (reports : s.report? id value = some next)
    (held : s.holds other kind name) : next.holds other kind name := by
  unfold report? at reports
  split at reports
  · cases reports
  · rename_i r found
    cases reports
    obtain ⟨r', found', same⟩ := holds_iff.mp held
    by_cases here : id = other
    · subst here
      rw [found] at found'
      cases found'
      exact holds_iff.mpr ⟨{ r with value := some value, reports := r.reports + 1 },
        List.getElem?_set_self (List.getElem?_eq_some_iff.mp found).1, same⟩
    · exact holds_iff.mpr ⟨r', (List.getElem?_set_ne here).trans found', same⟩

end DryRun

/-! ## Numbers of commands -/

/-- The solver that a result command names, and what its result is and is called. -/
def CommandBody.result? : CommandBody → Option (Text × ResultKind × Text)
  | objective o => some (o.solver, .objective, o.name)
  | constraint c => some (c.solver, .constraint c.kind, c.name)
  | _ => none

theorem CommandBody.resultState?_of_result? {body : CommandBody} (result : body.result? = none) :
    body.resultState? = none := by
  cases body with
  | objective o => cases result
  | constraint c => cases result
  | _ => rfl

theorem CommandBody.resultState?_withState {body : CommandBody} {state : ResultState}
    {own : Text × ResultKind × Text} (result : body.result? = some own) :
    (body.withState state).resultState? = some state := by
  cases body with
  | objective o => rfl
  | constraint c => rfl
  | _ => cases result

@[simp] theorem CommandBody.result?_withState {body : CommandBody} {state : ResultState} :
    (body.withState state).result? = body.result? := by
  cases body <;> rfl

/-- The value that a result command has in a store. -/
def CommandBody.reported? (store : Store) : CommandBody → Option (Except ValueError Float)
  | objective o => some (o.operand.value store)
  | constraint c => some (c.value store)
  | _ => none

/-- If the command has a number, it stands for the result of the command. -/
def Command.recorded (solvers : Table DryRun) (c : Command) : Bool :=
  match c.body.result?, c.body.resultState?.bind ResultState.id? with
  | some (owner, kind, name), some id => (solvers.get? owner).any (·.holds id kind name)
  | _, _ => true

/-- All numbers of these commands stand for the results of the commands. -/
def Session.recorded (handles : List Handle) (s : Session) : Bool :=
  handles.all fun h => (s.arena.command? h).all (·.recorded s.solvers)

/-- Stop with an alarm if the number of one of these commands stands for something else. -/
def Run.guard (handles : List Handle) (alarm : Diagnostic) : Run Unit := do
  if !(← get).recorded handles then throw alarm

namespace RunError

/-- A command reports under a number that its solver has not given. -/
def lacksResult : RunError → Bool
  | noResult .. => true
  | _ => false

end RunError

namespace SequenceError

def lacksResult : SequenceError → Bool
  | execution _ cause => cause.lacksResult
  | _ => false

end SequenceError

namespace ResultState

variable {state after : ResultState} {owner name : Text} {kind : ResultKind}
  {value : Except ValueError Float} {solver next : DryRun}

/-- A report goes to the solver that the command names. It gives a command without a number one, and a
command with a number reports a value. -/
theorem cases_of_report (reports : state.report owner kind name value solver = .ok (after, next)) :
    owner = solver.name ∧
      (state.id? = none ∧ after = .registered (solver.register kind name).1 ∧
          next = (solver.register kind name).2 ∨
        ∃ id number, state.id? = some id ∧ value = .ok number ∧ after = .reporting id ∧
          solver.report? id number = some next) := by
  unfold report at reports
  split at reports
  · cases reports
  rename_i same
  refine ⟨by simpa using same, ?_⟩
  cases number : state.id? with
  | none =>
      rw [number] at reports
      cases reports
      exact .inl ⟨rfl, rfl, rfl⟩
  | some id =>
      rw [number] at reports
      cases value with
      | error cause => cases reports
      | ok value =>
          dsimp only at reports
          split at reports
          · cases reports
          · rename_i reported
            cases reports
            exact .inr ⟨id, value, rfl, rfl, rfl, reported⟩

/-- A report changes nothing of a solver but its results. -/
theorem eq_of_report (reports : state.report owner kind name value solver = .ok (after, next)) :
    next = { solver with results := next.results } := by
  obtain ⟨-, ⟨-, -, rfl⟩ | ⟨_, _, -, -, -, reported⟩⟩ := cases_of_report reports
  · exact DryRun.register_snd
  · exact DryRun.eq_of_report? reported

theorem name_of_report (reports : state.report owner kind name value solver = .ok (after, next)) :
    next.name = solver.name := by
  rw [eq_of_report reports]

/-- The number of the command, if its solver is the one that it names, stands for its result. -/
theorem report_holds (own : owner = solver.name → ∀ id, state.id? = some id → solver.holds id kind name)
    (reports : state.report owner kind name value solver = .ok (after, next)) :
    owner = solver.name ∧ (∃ id, after.id? = some id ∧ next.holds id kind name) ∧
      ∀ id kind name, solver.holds id kind name → next.holds id kind name := by
  obtain ⟨same, ⟨-, rfl, rfl⟩ | ⟨id, _, number, -, rfl, reported⟩⟩ := cases_of_report reports
  · exact ⟨same, ⟨_, rfl, DryRun.holds_register⟩, fun _ _ _ held =>
      DryRun.holds_register_of_holds held⟩
  · exact ⟨same, ⟨id, rfl, DryRun.holds_of_report? reported (own same id number)⟩,
      fun _ _ _ held => DryRun.holds_of_report? reported held⟩

theorem report_finds (own : owner = solver.name → ∀ id, state.id? = some id → solver.holds id kind name) :
    Outcome.Only (fun e => e.lacksResult = false) (state.report owner kind name value solver) := by
  unfold report
  split
  · exact .error rfl
  rename_i same
  have same : owner = solver.name := by simpa using same
  split
  · exact .ok _
  · rename_i id numbered
    split
    · exact .error rfl
    · rename_i value
      obtain ⟨next, done⟩ := DryRun.exists_report? (own same id numbered) value
      rw [done]
      exact .ok _

end ResultState

namespace Command

variable {c : Command} {store : Store} {solver : DryRun} {owner name : Text} {kind : ResultKind}

theorem report_objective {o : Objective} (body : c.body = .objective o) (state : ResultState)
    (store : Store) (solver : DryRun) :
    (c.withState state).report store solver =
      match state.report o.solver .objective o.name (o.operand.value store) solver with
      | .ok (after, next) => .ok (c.withState after, next)
      | .error cause => .error (.execution c.subject cause) := by
  obtain ⟨k, typeName, label, generating, _, span⟩ := c
  cases body
  simp only [report, CommandBody.report, withState, CommandBody.withState, Objective.report]
  cases state.report o.solver .objective o.name (o.operand.value store) solver with
  | error cause => rfl
  | ok pair => rfl

theorem report_constraint {o : Constraint} (body : c.body = .constraint o) (state : ResultState)
    (store : Store) (solver : DryRun) :
    (c.withState state).report store solver =
      match state.report o.solver (.constraint o.kind) o.name (o.value store) solver with
      | .ok (after, next) => .ok (c.withState after, next)
      | .error cause => .error (.execution c.subject cause) := by
  obtain ⟨k, typeName, label, generating, _, span⟩ := c
  cases body
  have value : ({ o with state } : Constraint).value store = o.value store := rfl
  simp only [report, CommandBody.report, withState, CommandBody.withState, Constraint.report, value]
  cases state.report o.solver (.constraint o.kind) o.name (o.value store) solver with
  | error cause => rfl
  | ok pair => rfl

/-- A result command reports its own kind and name, and its value. -/
theorem exists_report_eq (result : c.body.result? = some (owner, kind, name))
    (state : ResultState) (store : Store) (solver : DryRun) :
    ∃ value, c.body.reported? store = some value ∧ (c.withState state).report store solver =
      match state.report owner kind name value solver with
      | .ok (after, next) => .ok (c.withState after, next)
      | .error cause => .error (.execution c.subject cause) := by
  cases body : c.body with
  | objective o =>
      rw [body] at result
      cases result
      exact ⟨_, rfl, report_objective body state store solver⟩
  | constraint o =>
      rw [body] at result
      cases result
      exact ⟨_, rfl, report_constraint body state store solver⟩
  | _ =>
      rw [body] at result
      cases result

/-- A report changes nothing of a solver but its results. -/
theorem eq_of_report {after : Command} {next : DryRun} (reports : c.report store solver = .ok (after, next)) :
    next = { solver with results := next.results } := by
  unfold report at reports
  split at reports
  · rename_i body solver' done
    cases reports
    cases own : c.body with
    | objective o =>
        rw [own] at done
        obtain ⟨_, made, same⟩ := Outcome.map_eq_ok_iff.mp done
        cases same
        obtain ⟨_, reported, same⟩ := Outcome.bind_eq_ok_iff.mp made
        cases same
        exact ResultState.eq_of_report reported
    | constraint o =>
        rw [own] at done
        obtain ⟨_, made, same⟩ := Outcome.map_eq_ok_iff.mp done
        cases same
        obtain ⟨_, reported, same⟩ := Outcome.bind_eq_ok_iff.mp made
        cases same
        exact ResultState.eq_of_report reported
    | _ =>
        rw [own] at done
        cases done
        rfl
  · cases reports

/-- A report leaves the solver under its name. -/
theorem name_of_report {after : Command} {next : DryRun}
    (reports : c.report store solver = .ok (after, next)) : next.name = solver.name := by
  rw [eq_of_report reports]

theorem report_of_no_result (result : c.body.result? = none) :
    c.report store solver = .ok (c, solver) := by
  obtain ⟨k, typeName, label, generating, body, span⟩ := c
  cases body with
  | objective o => cases result
  | constraint o => cases result
  | _ => rfl

end Command

end MissionScript
