import MissionScript.Proofs.Run.Between

/-!
# Independent runs

What a run does depends on the objects with which it starts and not on the runs before it. Only solvers
outlast a run: a loop that starts one clears it first, but the report of a run shows all solvers, those
that no loop of this run has started with the results of the last run that did.

A run of a session that has been executed before is compared with the run of a new session on the same
objects. At every point the two differ in no more than solvers that neither has started.
-/

namespace MissionScript

/-- The session with other solvers in the place of its own. -/
def Session.withSolvers (s : Session) (solvers : Table DryRun) : Session := { s with solvers }

/-- A run that started with the session `start` is at the session `s`. The run that started with the
solvers `fresh` instead is at the same point, with `solvers`. -/
structure Session.Matches (start : Session) (fresh : Table DryRun) (active : List Text) (s : Session)
    (solvers : Table DryRun) : Prop where
  running : s.active = active
  types : start.objects.SameTypes s.objects
  names : ∀ name, (s.solvers.get? name).map (·.name) = (start.solvers.get? name).map (·.name)
  freshNames : ∀ name, (solvers.get? name).map (·.name) = (start.solvers.get? name).map (·.name)
  /-- A solver is the same in both unless it has not been started in either. -/
  each : ∀ name, solvers.get? name = s.solvers.get? name ∨
    name ∉ active ∧ s.solvers.get? name = start.solvers.get? name ∧
      solvers.get? name = fresh.get? name

namespace Session.Matches

variable {start : Session} {fresh solvers : Table DryRun} {active : List Text} {s : Session}

/-- The solver of a loop that is running is the same in both. -/
theorem get?_of_mem (same : Matches start fresh active s solvers) {name : Text}
    (running : name ∈ active) : solvers.get? name = s.solvers.get? name :=
  (same.each name).resolve_right fun untouched => untouched.1 running

theorem innermost (same : Matches start fresh active s solvers) :
    (s.withSolvers solvers).activeSolver? = s.activeSolver? := by
  have running := same.running
  unfold activeSolver?
  change (s.active.head?.bind fun name => (solvers.get? name).map fun solver => (name, solver)) = _
  cases active with
  | nil => rw [running]; rfl
  | cons name rest =>
      rw [running, List.head?_cons, Option.bind_some, Option.bind_some,
        same.get?_of_mem List.mem_cons_self]

/-- Both runs may put the same in the place of a solver that has the same name in both. -/
theorem insert (same : Matches start fresh active s solvers) {name : Text} {held after : DryRun}
    (found : s.solvers.get? name = some held) (named : after.name = held.name) :
    Matches start fresh active { s with solvers := s.solvers.insert name after }
      (solvers.insert name after) := by
  have kept : (start.solvers.get? name).map (·.name) = some after.name := by
    rw [← same.names name, found, named]
    rfl
  refine ⟨same.running, same.types, fun other => ?_, fun other => ?_, fun other => ?_⟩
  · rw [Table.get?_insert]
    split
    · rename_i here
      rw [here, kept]
      rfl
    · exact same.names other
  · rw [Table.get?_insert]
    split
    · rename_i here
      rw [here, kept]
      rfl
    · exact same.freshNames other
  · rw [Table.get?_insert, Table.get?_insert]
    split
    · exact .inl rfl
    · exact same.each other

/-- While its loop runs, a solver that has been started is the same in both. -/
theorem push (same : Matches start fresh active s solvers) {name : Text}
    (found : solvers.get? name = s.solvers.get? name) :
    Matches start fresh (name :: active) { s with active := name :: s.active } solvers := by
  refine ⟨congrArg (name :: ·) same.running, same.types, same.names, same.freshNames, fun other => ?_⟩
  rcases same.each other with both | ⟨away, untouched⟩
  · exact .inl both
  · by_cases here : other = name
    · exact .inl (here ▸ found)
    · exact .inr ⟨by simp [here, away], untouched⟩

theorem pop {name : Text} (same : Matches start fresh (name :: active) s solvers) :
    Matches start fresh active { s with active := s.active.tail } solvers := by
  refine ⟨congrArg List.tail same.running, same.types, same.names, same.freshNames, fun other => ?_⟩
  exact (same.each other).imp_right fun ⟨away, untouched⟩ =>
    ⟨fun running => away (List.mem_cons_of_mem _ running), untouched⟩

end Session.Matches

namespace Run

open Session (Matches)

variable {start : Session} {fresh : Table DryRun} {active : List Text} {α β σ : Type} {c : Command}
  {h : Handle}

/-- The step does the same in both runs. -/
def Indifferent (start : Session) (fresh : Table DryRun) (active : List Text) (step : Run α) : Prop :=
  ∀ s solvers, Matches start fresh active s solvers →
    ∃ after, step (s.withSolvers solvers) = ((step s).1, (step s).2.withSolvers after) ∧
      Matches start fresh active (step s).2 after

theorem startSolver_eq (c : Command) (name : Text) (s : Session) :
    startSolver c name s =
      match s.objects.get? name, s.solvers.get? name with
      | some object, some held => (.ok (), { s with
          solvers := s.solvers.insert name (held.start (object.parameter? maximumIterations))
          active := name :: s.active })
      | _, _ => (fail c (.unresolvedReference c.subject (.noSolver name)) : Run Unit) s := by
  unfold startSolver
  rw [Step.get_bind]
  cases s.objects.get? name with
  | none => rfl
  | some object => cases s.solvers.get? name <;> rfl

namespace Indifferent

variable {step : Run α} {f : α → Run β}

theorem value (value : α) : Indifferent start fresh active (pure value) :=
  fun _ solvers same => ⟨solvers, rfl, same⟩

theorem bind (first : Indifferent start fresh active step)
    (rest : ∀ value, Indifferent start fresh active (f value)) :
    Indifferent start fresh active (step >>= f) := by
  intro s solvers same
  obtain ⟨after, both, still⟩ := first s solvers same
  cases ran : step s with
  | mk outcome next =>
      rw [ran] at both still
      cases outcome with
      | error e =>
          rw [Step.bind_error ran, Step.bind_error both]
          exact ⟨after, rfl, still⟩
      | ok value =>
          rw [Step.bind_ok ran, Step.bind_ok both]
          exact rest value next after still

/-- Both steps may look at the session. -/
theorem look {f : Session → Run β}
    (each : ∀ s solvers, Matches start fresh active s solvers →
      ∃ after, f (s.withSolvers solvers) (s.withSolvers solvers) =
          ((f s s).1, (f s s).2.withSolvers after) ∧
        Matches start fresh active (f s s).2 after) :
    Indifferent start fresh active (get >>= f) :=
  each

/-- A step may depend on anything but the solvers. -/
theorem read {f : Session → Run β} (unaffected : ∀ s solvers, f (s.withSolvers solvers) = f s)
    (each : ∀ s, Indifferent start fresh active (f s)) : Indifferent start fresh active (get >>= f) :=
  look fun s solvers same => (unaffected s solvers).symm ▸ each s s solvers same

theorem fail (error : SequenceError) : Indifferent start fresh active (Run.fail c error : Run α) :=
  fun _ solvers same => ⟨solvers, rfl, same⟩

theorem require (x : Except ValueError α) : Indifferent start fresh active (Run.require c x) := by
  cases x with
  | error cause => exact fail _
  | ok value => exact .value value

/-! ## Commands -/

theorem enter : Indifferent start fresh active (Run.enter h) := by
  refine look fun s solvers same => ?_
  rw [show (s.withSolvers solvers).arena = s.arena from rfl]
  cases s.arena.command? h with
  | none => exact ⟨solvers, rfl, same⟩
  | some c =>
      exact ⟨solvers, rfl, same.running, same.types, same.names, same.freshNames, same.each⟩

/-- Objects of the same types may take the place of the objects. -/
theorem withObjects {s : Session} {solvers : Table DryRun}
    (same : Matches start fresh active s solvers) {objects : Store}
    (types : s.objects.SameTypes objects) :
    Matches start fresh active (s.withObjects objects) solvers :=
  ⟨same.running, same.types.trans types, same.names, same.freshNames, same.each⟩

theorem assign : Indifferent start fresh active (Run.assign c) := by
  unfold Run.assign
  split
  · rename_i target expression _
    refine look fun s solvers same => ?_
    rw [show (s.withSolvers solvers).objects = s.objects from rfl]
    cases written : expression.assignTo s.objects target with
    | error cause => exact ⟨solvers, rfl, same⟩
    | ok result =>
        obtain ⟨new, objects⟩ := result
        exact ⟨solvers, rfl, withObjects same (Expression.sameTypes_assignTo written)⟩
  · exact value _

theorem test : Indifferent start fresh active (Run.test c) := by
  unfold Run.test
  split
  · exact read (fun _ _ => rfl) fun _ => require _
  · exact value _

theorem skipCall : Indifferent start fresh active (Run.skipCall c) :=
  fun _ solvers same =>
    ⟨solvers, rfl, same.running, same.types, same.names, same.freshNames, same.each⟩

theorem report : Indifferent start fresh active (Run.report h c) := by
  refine look fun s solvers same => ?_
  rw [same.innermost]
  cases innermost : s.activeSolver? with
  | none => exact fail _ s solvers same
  | some entry =>
      obtain ⟨name, solver⟩ := entry
      dsimp only
      rw [show (s.withSolvers solvers).objects = s.objects from rfl]
      cases reports : c.report s.objects solver with
      | error e => exact fail _ s solvers same
      | ok result =>
          obtain ⟨_, -, inner⟩ := Option.bind_eq_some_iff.mp innermost
          obtain ⟨_, held, named⟩ := Option.map_eq_some_iff.mp inner
          cases named
          have stored := same.insert held (Command.name_of_report reports)
          exact ⟨_, rfl, stored.running, stored.types, stored.names, stored.freshNames, stored.each⟩

/-! ## Loops -/

theorem passes {again : σ → Run Bool} {pass : σ → Run (Option σ)}
    (tests : ∀ state, Indifferent start fresh active (again state))
    (steps : ∀ state, Indifferent start fresh active (pass state)) (remaining : Nat) (first : σ) :
    Indifferent start fresh active (Run.passes c again pass remaining first) := by
  induction remaining generalizing first with
  | zero =>
      unfold Run.passes
      refine (tests first).bind fun goes => ?_
      cases goes with
      | false => exact value ()
      | true => exact read (fun _ _ => rfl) fun _ => fail _
  | succ remaining ih =>
      unfold Run.passes
      refine (tests first).bind fun goes => ?_
      cases goes with
      | false => exact value ()
      | true =>
          refine (steps first).bind fun next => ?_
          cases next with
          | none => exact value ()
          | some state => exact ih state

theorem loop {first : σ} {again : σ → Run Bool} {pass : σ → Run (Option σ)}
    (tests : ∀ state, Indifferent start fresh active (again state))
    (steps : ∀ state, Indifferent start fresh active (pass state)) :
    Indifferent start fresh active (Run.loop c first again pass) :=
  read (fun _ _ => rfl) fun s => passes tests steps s.options.passLimit first

variable {body first second : Run Unit}

theorem whileLoop (inside : Indifferent start fresh active body) :
    Indifferent start fresh active (Run.whileLoop c body) :=
  loop (fun _ => test) fun _ => inside.bind fun _ => value _

theorem forLoop (inside : Indifferent start fresh active body) :
    Indifferent start fresh active (Run.forLoop c body) := by
  unfold Run.forLoop
  split
  · rename_i range _
    refine read (fun _ _ => rfl) fun s => (require _).bind fun bounds => ?_
    refine loop (fun _ => value _) fun number => ?_
    refine look fun s solvers same => ?_
    rw [show (s.withSolvers solvers).objects = s.objects from rfl]
    cases written : range.index.assign s.objects number with
    | error cause => exact ⟨solvers, rfl, same⟩
    | ok objects =>
        have changed := withObjects same (Operand.sameTypes_assign written)
        exact inside.bind (fun _ => value _) _ solvers changed
  · exact value _

/-- The solver of a loop that is running goes on in the same way. -/
theorem advance {solver : Text} (running : solver ∈ active) :
    Indifferent start fresh active (Run.advance solver) := by
  refine look fun s solvers same => ?_
  rw [show (s.withSolvers solvers).solvers.get? solver = s.solvers.get? solver from
    same.get?_of_mem running]
  cases found : s.solvers.get? solver with
  | none => exact ⟨solvers, rfl, same⟩
  | some held => exact ⟨_, rfl, same.insert found rfl⟩

/-- Starting a solver fails in both runs, or starts it in both. What is started keeps nothing of a solver
but its name. -/
theorem startSolver {s : Session} {solvers : Table DryRun} (same : Matches start fresh active s solvers)
    (c : Command) (name : Text) :
    (∃ e, Run.startSolver c name s = (.error e, s) ∧
        Run.startSolver c name (s.withSolvers solvers) = (.error e, s.withSolvers solvers)) ∨
      ∃ next after, Run.startSolver c name s = (.ok (), next) ∧
        Run.startSolver c name (s.withSolvers solvers) = (.ok (), next.withSolvers after) ∧
        Matches start fresh (name :: active) next after := by
  rw [startSolver_eq, startSolver_eq, show (s.withSolvers solvers).objects = s.objects from rfl,
    show (s.withSolvers solvers).solvers = solvers from rfl]
  have names := (same.freshNames name).trans (same.names name).symm
  cases s.objects.get? name with
  | none => exact .inl ⟨_, rfl, rfl⟩
  | some object =>
      cases held : s.solvers.get? name with
      | none =>
          rw [held, Option.map_none, Option.map_eq_none_iff] at names
          rw [names]
          exact .inl ⟨_, rfl, rfl⟩
      | some later =>
          rw [held, Option.map_some, Option.map_eq_some_iff] at names
          obtain ⟨other, found, named⟩ := names
          have alike (limit : Option Float) : other.start limit = later.start limit := by
            unfold DryRun.start
            rw [named]
          rw [found]
          dsimp only
          rw [alike]
          generalize begun : later.start (object.parameter? maximumIterations) = solver
          have stored : Matches start fresh active { s with solvers := s.solvers.insert name solver }
              (solvers.insert name solver) := same.insert held (begun ▸ rfl)
          refine .inr ⟨_, _, rfl, rfl, stored.push ?_⟩
          rw [Table.get?_insert, Table.get?_insert, if_pos rfl, if_pos rfl]

theorem started {solver : Text} {inner : Run Unit}
    (inside : Indifferent start fresh (solver :: active) inner) :
    Indifferent start fresh active (Run.startSolver c solver >>= fun _ => Run.andThen inner fun s =>
      { s.withArena (s.arena.forgetResults h) with active := s.active.tail }) := by
  intro s solvers same
  rcases startSolver same c solver with ⟨e, failed, both⟩ | ⟨next, after, begun, both, running⟩
  · rw [Step.bind_error failed, Step.bind_error both]
    exact ⟨solvers, rfl, same⟩
  · rw [Step.bind_ok begun, Step.bind_ok both]
    obtain ⟨last, ran, still⟩ := inside next after running
    have left := still.pop
    refine ⟨last, ?_, left.running, left.types, left.names, left.freshNames, left.each⟩
    unfold Run.andThen
    rw [ran]
    rfl

theorem solverLoop (inside : ∀ active, Indifferent start fresh active body) :
    Indifferent start fresh active (Run.solverLoop h c body) := by
  unfold Run.solverLoop
  split
  · rename_i l _
    refine started (loop (fun _ => value _) fun _ => (inside _).bind fun _ => ?_)
    split
    · exact value _
    · exact (advance List.mem_cons_self).bind fun _ => value _
  · exact value _

theorem command (inFirst : ∀ active, Indifferent start fresh active first)
    (inSecond : ∀ active, Indifferent start fresh active second) :
    Indifferent start fresh active (Run.command h first second) := by
  refine enter.bind fun c => ?_
  split
  · exact assign
  · exact skipCall
  · refine test.bind fun holds => ?_
    split
    · exact inFirst active
    · exact inSecond active
  · exact whileLoop (inFirst active)
  · exact forLoop (inFirst active)
  · exact solverLoop inFirst
  · exact solverLoop inFirst
  · exact report
  · exact report
  · exact value _

/-- A plan does the same in both runs, whatever loops it is run in. -/
theorem plan (plan : Plan) (active : List Text) : Indifferent start fresh active plan.run := by
  induction plan generalizing active with
  | done => exact value ()
  | lost h => exact enter.bind fun _ => value _
  | step h first second next firstIH secondIH nextIH =>
      exact (command firstIH secondIH).bind fun _ => nextIH active
  | script h body next bodyIH nextIH =>
      exact enter.bind fun _ => (bodyIH active).bind fun _ => nextIH active
  | openScript h body ih =>
      exact enter.bind fun c => (ih active).bind fun _ => fail _

end Indifferent

end Run

namespace Session

/-- What a session looks at to resolve the references of its commands. -/
def resolution (s : Session) : Resolution := ⟨s.objects, s.options.solverTypes⟩

end Session

namespace Resolution

variable {store next : Store} {types : List Text}

theorem isSolver_congr (same : store.SameTypes next) (name : Text) :
    (⟨next, types⟩ : Resolution).isSolver name = (⟨store, types⟩ : Resolution).isSolver name := by
  have both := congrArg (Option.any types.contains) (same name)
  rw [Option.any_map, Option.any_map] at both
  exact both

/-- Whether references resolve depends on the types of the objects only. -/
theorem check_congr (same : store.SameTypes next) (body : CommandBody) :
    (⟨next, types⟩ : Resolution).check body = (⟨store, types⟩ : Resolution).check body := by
  have all (names : List Text) :
      (⟨next, types⟩ : Resolution).requireAll names = (⟨store, types⟩ : Resolution).requireAll names := by
    unfold requireAll
    simp only [same.contains_eq]
  have solver (name : Text) : (⟨next, types⟩ : Resolution).requireSolver name =
      (⟨store, types⟩ : Resolution).requireSolver name := by
    unfold requireSolver
    rw [isSolver_congr same]
    simp only [same.contains_eq]
  cases body <;> simp only [check, all, solver]

end Resolution

namespace Session

variable {s : Session}

/-! ## Sessions between their executions -/

/-- What all executions of a session keep: its solvers are those of solver objects, and once it is ready
none is missing and all references resolve. -/
structure Settled (s : Session) : Prop where
  named : ∀ name solver, s.solvers.get? name = some solver →
    s.resolution.isSolver name ∧ solver.name = name
  complete : s.ready = true → ∀ name, s.resolution.isSolver name → s.solvers.contains name
  resolved : s.ready = true → ∀ h ∈ s.commands, ∃ c, s.arena.command? h = some c ∧
    s.resolution.check c.body = .ok ()

namespace Settled

/-- A session without solvers that has not been made ready. -/
theorem new (mission : Mission) (options : RunOptions) : Settled { mission, options } := by
  refine ⟨fun name solver held => ?_, fun ready => ?_, fun ready => ?_⟩
  · cases held
  · cases ready
  · cases ready

/-- Adding the solvers of all solver objects. -/
theorem withAdded (settled : s.Settled) (ready : Bool)
    (resolved : ready = true → ∀ h ∈ s.commands, ∃ c, s.arena.command? h = some c ∧
      s.resolution.check c.body = .ok ()) :
    Settled { s with solvers := s.addSolvers.solvers, ready } := by
  refine ⟨fun name solver held => ?_, fun _ name isSolver => ?_, resolved⟩
  · rw [get?_addSolvers, Option.or_eq_some_iff] at held
    rcases held with before | ⟨-, added⟩
    · exact settled.named name solver before
    · obtain ⟨isSolver, same⟩ := Option.ite_none_right_eq_some.mp added
      exact ⟨isSolver, Option.some.inj same ▸ rfl⟩
  · obtain ⟨object, held, type⟩ := Resolution.isSolver_iff.mp isSolver
    exact contains_addSolvers held type

theorem prepare (settled : s.Settled) : (prepare s).2.Settled := by
  rcases prepare_cases s with ⟨e, -, failed⟩ | ⟨resolved, done⟩
  · rw [failed, addSolvers_eq]
    exact settled.withAdded s.ready settled.resolved
  · have resolves := unresolved?_eq_none_iff.mp resolved
    rw [done]
    rw [addSolvers_eq] at resolves ⊢
    exact settled.withAdded true fun _ => resolves

end Settled

/-- A session that is about to run. -/
def rewound (s : Session) : Session := { s with executed := 0, warnings := [] }

/-- A run that starts with other solvers of the same names matches the run from its beginning. -/
theorem matches_rewound {fresh : Table DryRun} (active : s.active = [])
    (names : ∀ name, (fresh.get? name).map (·.name) = (s.solvers.get? name).map (·.name)) :
    Matches s.rewound fresh [] s.rewound fresh where
  running := active
  types := .refl _
  names _ := rfl
  freshNames := names
  each _ := .inr ⟨List.not_mem_nil, rfl, rfl⟩

/-- A run keeps the types of the objects and the names of the solvers. -/
theorem execute_keeps (active : s.active = []) (ready : s.ready = true) :
    s.objects.SameTypes (execute s).2.objects ∧
      ∀ name, ((execute s).2.solvers.get? name).map (·.name) = (s.solvers.get? name).map (·.name) := by
  obtain ⟨_, -, still⟩ := Run.Indifferent.plan (s.arena.plan s.mission.head) [] s.rewound s.solvers
    (matches_rewound active fun _ => rfl)
  rw [execute_snd ready]
  exact ⟨still.types, still.names⟩

theorem Settled.execute_of_ready {program : Program} (settled : s.Settled) (quiet : s.Quiet program)
    (ready : s.ready = true) : (execute s).2.Settled := by
  have mission := (quiet.execute_of_ready ready).2
  have options : (execute s).2.options = s.options := by
    rw [execute_snd ready]
    exact ((s.arena.plan s.mission.head).stays_run s.rewound).options
  obtain ⟨types, names⟩ := execute_keeps quiet.active ready
  have isSolver (name : Text) :
      (execute s).2.resolution.isSolver name = s.resolution.isSolver name := by
    unfold resolution
    rw [options]
    exact Resolution.isSolver_congr types name
  refine ⟨fun name solver held => ?_, fun _ name wanted => ?_, fun _ => ?_⟩
  · have before := names name
    rw [held, Option.map_some, eq_comm, Option.map_eq_some_iff] at before
    obtain ⟨old, found, same⟩ := before
    rw [isSolver, ← same]
    exact settled.named name old found
  · rw [isSolver] at wanted
    have both := congrArg Option.isSome (names name)
    rw [Option.isSome_map, Option.isSome_map] at both
    exact both.trans (settled.complete ready name wanted)
  · have arena : (execute s).2.arena = s.arena := by rw [arena, mission, arena]
    have commands : (execute s).2.commands = s.commands := by
      unfold commands
      rw [arena, mission]
    rw [commands, arena]
    intro h member
    obtain ⟨c, held, checked⟩ := settled.resolved ready h member
    refine ⟨c, held, ?_⟩
    unfold resolution
    rw [options, Resolution.check_congr types]
    exact checked

theorem Settled.execute {program : Program} (settled : s.Settled) (quiet : s.Quiet program) :
    (execute s).2.Settled := by
  have prepared := settled.prepare
  have still := quiet.prepare
  rcases execute_cases s with ⟨e, -, -, failed⟩ | ⟨ready, isReady, runs, rfl | ⟨-, done⟩⟩
  · rw [failed]
    exact prepared
  · exact settled.execute_of_ready quiet isReady
  · rw [done] at prepared still
    rw [runs]
    exact prepared.execute_of_ready still isReady

/-! ## Repeated executions -/

/-- The results that the solver of a name holds. -/
def resultsOf (s : Session) (name : Text) : List SolverResult :=
  (s.solvers.get? name).elim [] (·.results)

/-- The outcome of an execution of a session against the outcome of the first execution of a new one.
They are the same, but a solver without results in the new session may still show the results that it
held in the other one before. -/
inductive Repeats (s : Session) : Except Diagnostic RunReport → Except Diagnostic RunReport → Prop
  | failed (error : Diagnostic) : Repeats s (.error error) (.error error)
  | reported {report fresh : RunReport} (executed : report.executed = fresh.executed)
      (warnings : report.warnings = fresh.warnings)
      (results : List.Forall₂ (fun shown new => shown.1 = new.1 ∧
          (shown.2 = new.2 ∨ new.2 = [] ∧ shown.2 = s.resultsOf shown.1))
        report.results fresh.results) :
      Repeats s (.ok report) (.ok fresh)

theorem Repeats.congr {t : Session} {x y : Except Diagnostic RunReport} (repeats : Repeats s x y)
    (same : ∀ name, s.resultsOf name = t.resultsOf name) : Repeats t x y := by
  cases repeats with
  | failed error => exact .failed error
  | reported executed warnings results =>
      refine .reported executed warnings (results.imp fun shown new => ?_)
      rw [same]
      exact id

/-- What a session reports after a run. -/
def shown (s : Session) : RunReport where
  executed := s.executed
  results := s.solvers.entries.map fun (name, solver) => (name, solver.results)
  warnings := s.warnings.reverse

theorem execute_of_ran (ready : s.ready = true) {outcome : Except Diagnostic Unit} {last : Session}
    (ran : (s.arena.plan s.mission.head).run s.rewound = (outcome, last)) :
    execute s = (outcome.map fun _ => last.forgetResults.shown, last.forgetResults) := by
  have begun : Run.andThen (s.arena.plan s.mission.head).run forgetResults
      { s with executed := 0, warnings := [] } = (outcome, last.forgetResults) := by
    unfold Run.andThen
    rw [show { s with executed := 0, warnings := [] } = s.rewound from rfl, ran]
  rw [execute_of_ready ready, begun]
  cases outcome <;> rfl

/-- An execution forgets what the last one has counted. -/
theorem execute_rewound (ready : s.ready = true) : execute s.rewound = execute s := by
  cases ran : (s.arena.plan s.mission.head).run s.rewound with
  | mk outcome last => rw [execute_of_ran ready ran, execute_of_ran (s := s.rewound) ready ran]

/-- The reports of two runs that match at their ends. -/
theorem shown_repeats {last : Session} {fresh after : Table DryRun}
    (same : Matches s.rewound fresh [] last after)
    (empty : ∀ name solver, fresh.get? name = some solver → solver.results = []) :
    Repeats s (.ok last.shown) (.ok (last.withSolvers after).shown) := by
  have each (name : Text) : Option.Rel (fun old new : DryRun => old.results = new.results ∨
      new.results = [] ∧ old.results = s.resultsOf name) (last.solvers.get? name) (after.get? name) := by
    have names := (same.freshNames name).trans (same.names name).symm
    cases held : last.solvers.get? name with
    | none =>
        rw [held, Option.map_none, Option.map_eq_none_iff] at names
        rw [names]
        exact .none
    | some old =>
        rw [held, Option.map_some, Option.map_eq_some_iff] at names
        obtain ⟨new, found, -⟩ := names
        rw [found]
        refine .some ?_
        rcases same.each name with both | ⟨-, untouched, begun⟩
        · rw [found, held] at both
          exact .inl (Option.some.inj both ▸ rfl)
        · have before : s.solvers.get? name = some old := untouched.symm.trans held
          refine .inr ⟨empty name new (begun.symm.trans found), ?_⟩
          rw [resultsOf, before]
          rfl
  refine .reported rfl rfl ?_
  unfold shown
  rw [List.forall₂_map_left_iff, List.forall₂_map_right_iff]
  exact Table.forall₂_entries each

/-- An execution of a session that is ready against one with solvers of the same names that hold no
results. -/
theorem repeats_withSolvers {fresh : Table DryRun} (active : s.active = []) (ready : s.ready = true)
    (names : ∀ name, (fresh.get? name).map (·.name) = (s.solvers.get? name).map (·.name))
    (empty : ∀ name solver, fresh.get? name = some solver → solver.results = []) :
    Repeats s (execute s).1 (execute (s.withSolvers fresh)).1 ∧
      (execute s).2.objects = (execute (s.withSolvers fresh)).2.objects := by
  obtain ⟨after, both, still⟩ := Run.Indifferent.plan (s.arena.plan s.mission.head) [] s.rewound fresh
    (matches_rewound active names)
  cases ran : (s.arena.plan s.mission.head).run s.rewound with
  | mk outcome last =>
      rw [ran] at both still
      rw [execute_of_ran ready ran, execute_of_ran (s := s.withSolvers fresh) ready both]
      refine ⟨?_, rfl⟩
      cases outcome with
      | error e => exact .failed e
      | ok =>
          have shown : Repeats s (.ok last.shown) (.ok (last.withSolvers after).shown) :=
            shown_repeats still empty
          exact shown

/-- A new session on the mission and the objects of another one. -/
def renewed (s : Session) : Session := { mission := s.mission, options := s.options }

theorem get?_addSolvers_renewed (s : Session) (name : Text) :
    s.renewed.addSolvers.solvers.get? name =
      if s.resolution.isSolver name then some { name } else none :=
  get?_addSolvers s.renewed name

/-- Once a session is ready, it has solvers of the same names as a new one. -/
theorem Settled.names_renewed (settled : s.Settled) (ready : s.ready = true) (name : Text) :
    (s.renewed.addSolvers.solvers.get? name).map (·.name) = (s.solvers.get? name).map (·.name) := by
  rw [get?_addSolvers_renewed]
  cases held : s.solvers.get? name with
  | none =>
      have other : ¬s.resolution.isSolver name := by
        intro isSolver
        have there := settled.complete ready name isSolver
        rw [Table.contains, held] at there
        cases there
      rw [if_neg other, Option.map_none]
  | some solver =>
      obtain ⟨isSolver, named⟩ := settled.named name solver held
      rw [if_pos isSolver, Option.map_some, Option.map_some, named]

/-- Once a session is ready, a new one can be made ready: then it is the session with new solvers. -/
theorem Settled.execute_renewed (settled : s.Settled) (active : s.active = []) (ready : s.ready = true) :
    Session.execute s.renewed = Session.execute (s.withSolvers s.renewed.addSolvers.solvers) := by
  have resolved : s.renewed.addSolvers.unresolved?
      ⟨s.renewed.objects, s.renewed.options.solverTypes⟩ s.renewed.commands = none := by
    rw [unresolved?_eq_none_iff, addSolvers_eq]
    exact settled.resolved ready
  have isReady : (s.withSolvers s.renewed.addSolvers.solvers).ready = true := ready
  have begins : { s.renewed.addSolvers with ready := true } =
      (s.withSolvers s.renewed.addSolvers.solvers).rewound := by
    rw [addSolvers_eq]
    unfold rewound withSolvers
    rw [active, ready]
    rfl
  rcases prepare_cases s.renewed with ⟨e, failed, -⟩ | ⟨-, done⟩
  · rw [resolved] at failed
    cases failed
  · rw [execute_of_unready rfl, Step.bind_ok done, begins, execute_rewound isReady]

/-- An execution of a session that is ready, and the first execution of a new one. -/
theorem Settled.repeats_of_ready (settled : s.Settled) (active : s.active = [])
    (ready : s.ready = true) :
    Repeats s (Session.execute s).1 (Session.execute s.renewed).1 ∧
      (Session.execute s).2.objects = (Session.execute s.renewed).2.objects := by
  rw [settled.execute_renewed active ready]
  refine repeats_withSolvers active ready (settled.names_renewed ready) fun name solver held => ?_
  rw [get?_addSolvers_renewed] at held
  obtain ⟨-, same⟩ := Option.ite_none_right_eq_some.mp held
  exact Option.some.inj same ▸ rfl

theorem unresolved?_congr {t : Session} (mission : t.mission = s.mission) (r : Resolution)
    (handles : List Handle) : t.unresolved? r handles = s.unresolved? r handles := by
  induction handles with
  | nil => rfl
  | cons h rest ih =>
      unfold unresolved? diagnose arena
      rw [mission, ih]

theorem prepare_fst (s : Session) : (prepare s).1 =
    (s.addSolvers.unresolved? s.resolution s.commands).elim (.ok ()) .error := by
  unfold resolution
  rcases prepare_cases s with ⟨e, found, failed⟩ | ⟨resolved, done⟩
  · rw [failed, found]
    rfl
  · rw [done, resolved]
    rfl

/-- Whether a session can be made ready depends on its mission and its options only. -/
theorem prepare_renewed (s : Session) : (prepare s.renewed).1 = (prepare s).1 := by
  have mission : s.renewed.addSolvers.mission = s.addSolvers.mission := by
    rw [addSolvers_eq, addSolvers_eq (s := s)]
    rfl
  rw [prepare_fst, prepare_fst, unresolved?_congr mission]
  rfl

theorem resultsOf_addSolvers (s : Session) (name : Text) :
    s.addSolvers.resultsOf name = s.resultsOf name := by
  unfold resultsOf
  rw [get?_addSolvers]
  cases s.solvers.get? name with
  | some solver => rfl
  | none => split <;> rfl

/-- An execution of a session against the first execution of a new one, whether or not the session is
ready. -/
theorem Settled.repeats (settled : s.Settled) (active : s.active = []) :
    Repeats s (Session.execute s).1 (Session.execute s.renewed).1 ∧
      (Session.execute s).2.objects = (Session.execute s.renewed).2.objects := by
  rcases execute_cases s with ⟨e, -, failed, ran⟩ | ⟨ready, isReady, ran, rfl | ⟨-, done⟩⟩
  · have failedToo : Session.prepare s.renewed = (.error e, (Session.prepare s.renewed).2) := by
      have outcome := s.prepare_renewed
      rw [failed] at outcome
      exact Prod.ext outcome rfl
    rw [ran, execute_of_unready rfl, Step.bind_error failedToo]
    refine ⟨.failed e, ?_⟩
    rw [prepare_snd, prepare_snd s.renewed]
    rfl
  · exact settled.repeats_of_ready active isReady
  · have prepared := settled.prepare
    have added : ready = { s with solvers := s.addSolvers.solvers, ready := ready.ready } := by
      have left := prepare_snd s
      rw [done] at left
      exact left
    rw [done] at prepared
    have stays : ready.active = [] ∧ ready.renewed = s.renewed := by
      rw [added]
      exact ⟨active, rfl⟩
    obtain ⟨outcome, objects⟩ := prepared.repeats_of_ready stays.1 isReady
    rw [stays.2] at outcome objects
    rw [ran]
    refine ⟨outcome.congr fun name => ?_, objects⟩
    rw [added]
    exact s.resultsOf_addSolvers name

theorem options_execute (s : Session) : (execute s).2.options = s.options := by
  have prepared : (prepare s).2.options = s.options := by rw [prepare_snd]
  have ran {s : Session} (ready : s.ready = true) : (execute s).2.options = s.options := by
    rw [execute_snd ready]
    exact ((s.arena.plan s.mission.head).stays_run s.rewound).options
  rcases execute_cases s with ⟨e, -, -, failed⟩ | ⟨ready, isReady, runs, rfl | ⟨-, done⟩⟩
  · rw [failed]
    exact prepared
  · exact ran isReady
  · rw [done] at prepared
    rw [runs, ran isReady]
    exact prepared

/-- However often a session has been executed, it keeps its sequence and its options. -/
theorem Executed.settled {m : Mission} {options : RunOptions} {objects : Store}
    (executed : Executed { mission := { m with objects }, options } s)
    (quiet : ∃ program, Quiet program { mission := { m with objects }, options }) :
    s.Settled ∧ s.active = [] ∧
      s.renewed = { mission := { m with objects := s.objects }, options } := by
  suffices (∃ program, s.Quiet program) ∧ s.Settled ∧
      s.renewed = { mission := { m with objects := s.objects }, options } by
    obtain ⟨⟨program, quiet⟩, settled, same⟩ := this
    exact ⟨settled, quiet.active, same⟩
  induction executed with
  | none => exact ⟨quiet, .new _ options, rfl⟩
  | @again s _ ih =>
      obtain ⟨⟨program, quiet⟩, settled, same⟩ := ih
      obtain ⟨still, mission⟩ := quiet.execute
      have before : s.mission = { m with objects := s.objects } := congrArg Session.mission same
      have chosen : s.options = options := congrArg Session.options same
      refine ⟨⟨program, still⟩, settled.execute quiet, ?_⟩
      rw [renewed, options_execute, mission, before, chosen]

/-- Runs do not leak into each other, whether they have failed or not. An execution of a session that
has been executed any number of times ends as the first execution of a new session over the same
sequence and the objects that are there does: with the same error, or with the same count, the same
warnings and the results of the same solvers, and it leaves the same objects. The one thing that shows of
earlier runs are results of solvers that the new session has no results of: they may be those that the
solver held before. -/
theorem execute_independent {keywords : Keywords} {source : Nat} {text : Text} {m : Mission}
    (accepted : Mission.ofSource keywords source text = .ok m) {options : RunOptions}
    {objects : Store} (executed : Executed { mission := { m with objects }, options } s) :
    Repeats s (execute s).1 (execute { mission := { m with objects := s.objects }, options }).1 ∧
      (execute s).2.objects =
        (execute { mission := { m with objects := s.objects }, options }).2.objects := by
  obtain ⟨settled, active, same⟩ := executed.settled (exists_quiet accepted objects options .empty)
  rw [← same]
  exact settled.repeats active

/-- The third execution of a loop in which a result is recorded. -/
theorem execute_independent_third :
    ∃ m s,
      Mission.ofSource .builtin 0
        "Create SQP A;\nCreate Variable x;\nOptimize A\nMinimize A(x)\nEndOptimize".toList = .ok m ∧
      s = (execute (execute { mission := { m with objects := m.objects } }).2).2 ∧
      (execute s).1.isOk = true ∧
      Repeats s (execute s).1 (execute { mission := { m with objects := s.objects } }).1 ∧
      (execute s).2.objects = (execute { mission := { m with objects := s.objects } }).2.objects := by
  have succeeds : ((Mission.ofSource .builtin 0
      "Create SQP A;\nCreate Variable x;\nOptimize A\nMinimize A(x)\nEndOptimize".toList).map fun m =>
        (execute (execute (execute { mission := { m with objects := m.objects } }).2).2).1.isOk).toOption =
      some true := by
    decide +kernel
  cases accepted : Mission.ofSource .builtin 0
      "Create SQP A;\nCreate Variable x;\nOptimize A\nMinimize A(x)\nEndOptimize".toList with
  | error errors =>
      rw [accepted] at succeeds
      cases succeeds
  | ok m =>
      rw [accepted] at succeeds
      exact ⟨m, _, rfl, rfl, Option.some.inj succeeds,
        execute_independent accepted (.again (.again .none))⟩

end Session

end MissionScript
