import MissionScript.Proofs.Run.Confinement
import MissionScript.Proofs.Run.Preparation

/-!
# Results of executions

Throughout every execution of a script in which no solver is started inside its own loop, the number of
a result command stands for the result of the command. Where a solver is started inside its own loop,
it need not.
-/

namespace MissionScript

/-- All numbers of these commands stand for the results of the commands. -/
def World.recorded (a : Arena) (handles : List Handle) (w : World) : Bool :=
  handles.all fun h => (a.command? h).all fun c =>
    (c.withState (w.results h.index)).recorded w.solvers

/-- Stop with an alarm if the number of one of these commands stands for something else. -/
def Direct.guard (a : Arena) (handles : List Handle) (alarm : Diagnostic) : Direct Unit := do
  if !(← get).recorded a handles then throw alarm

section

variable {a : Arena} {t : Terms} {s : Session} {w : World} {handles : List Handle}
  {alarm : Diagnostic}

theorem Shows.recorded_eq (shows : Shows a t s w) : s.recorded handles = w.recorded a handles := by
  unfold Session.recorded World.recorded
  refine congrArg (handles.all ·) (funext fun h => ?_)
  rw [Arena.command?, Arena.command?, shows.node, shows.solvers]
  cases a.node? h with
  | none => rfl
  | some node => rfl

theorem Simulates.guard :
    Simulates a t (Run.guard handles alarm) (Direct.guard a handles alarm) := by
  refine .look fun s w shows => ?_
  rw [shows.recorded_eq]
  cases w.recorded a handles with
  | false => exact ⟨rfl, shows⟩
  | true => exact ⟨rfl, shows⟩

/-- In an orderly world all numbers stand for the results of their commands. -/
theorem World.Orderly.recorded_eq (orderly : w.Orderly a) (fresh : a.Fresh) :
    w.recorded a handles = true := by
  refine List.all_eq_true.mpr fun h _ => ?_
  cases found : a.command? h with
  | none => rfl
  | some c =>
      have live : a.contains h := by
        obtain ⟨node, held, -⟩ := Option.map_eq_some_iff.mp found
        rw [Arena.contains, held]
        rfl
      obtain ⟨index, -, rfl⟩ := fresh.contains_iff.mp live
      rw [Option.all_some, Command.recorded]
      split
      · rename_i owner kind name id result number
        have own : c.body.result? = some (owner, kind, name) := by
          rw [← result]
          exact CommandBody.result?_withState.symm
        have state : (c.withState (w.results index)).body.resultState? = some (w.results index) :=
          CommandBody.resultState?_withState own
        rw [Handle.index_ofIndex, state] at number
        obtain ⟨solver, held, holds⟩ := orderly.recorded ⟨⟨c, found, own⟩, number⟩
        rw [held]
        exact holds
      · rfl

theorem Direct.guard_quiet (fresh : a.Fresh) (orderly : w.Orderly a) :
    Direct.guard a handles alarm w = (.ok (), w) := by
  unfold Direct.guard
  rw [Step.get_bind, orderly.recorded_eq fresh]
  rfl

end

/-- A world in which no command has a number, as before the first run and between two runs. -/
theorem World.orderly_of_unregistered {a : Arena} {w : World}
    (named : ∀ name solver, w.solvers.get? name = some solver → solver.name = name)
    (bare : ∀ position, w.results position = .unregistered) : w.Orderly a := by
  have none {position owner kind name id} (numbers : w.Numbers a position owner kind name id) :
      False := by
    have number := numbers.number
    rw [bare] at number
    cases number
  exact ⟨named, fun numbers => (none numbers).elim, fun numbers => (none numbers).elim⟩

namespace Mission.Draws

variable {m : Mission} {program : Program} {t : Terms} {w : World}

theorem places (draws : m.Draws program) : m.arena.Places 1 program.commands := by
  rw [← Program.commands_layout]
  exact draws.drawn.after.places

/-- A run on an orderly world leaves one behind. -/
theorem tame (draws : m.Draws program) (apart : program.LoopsApart []) (orderly : w.Orderly m.arena)
    (idle : w.active = []) : Direct.Tame m.arena 1 (1 + program.size) w (program.run t 1 w) := by
  have quiet (w : World) (_ : w.Orderly m.arena) : (pure () : Direct Unit) w = (.ok (), w) := rfl
  exact (program.confined quiet draws.places apart w orderly idle).2

end Mission.Draws

namespace Session

/-! ## Watched executions -/

section

variable {m : Mission} {program : Program} {t : Terms} {s : Session} {w : World}

/-- An execution on an orderly world that is watched ends as it does without the watch. -/
theorem observe_eq_execute (draws : m.Draws program) (ready : s.ready = true)
    (head : s.mission.head = m.head)
    (shows : Shows m.arena t { s with executed := 0, warnings := [] } w)
    (orderly : w.Orderly m.arena) (idle : w.active = []) (apart : program.LoopsApart [])
    (handles : List Handle) (alarm : Diagnostic) :
    (observe (Run.guard handles alarm) s).1 = (execute s).1 := by
  have quiet (w : World) (orderly : w.Orderly m.arena) :
      Direct.guard m.arena handles alarm w = (.ok (), w) :=
    Direct.guard_quiet draws.fresh orderly
  obtain ⟨same, tame⟩ := program.confined (t := t) quiet draws.places apart w orderly idle
  have watched : (program.observed t (Direct.guard m.arena handles alarm) 1 >>= fun _ =>
      Direct.guard m.arena handles alarm) w = program.run t 1 w := by
    cases ran : program.run t 1 w with
    | mk outcome after =>
        rw [ran] at same tame
        cases outcome with
        | error e => exact Step.bind_error same
        | ok value => exact (Step.bind_ok same).trans (quiet after tame.within.orderly)
  have looks : Simulates m.arena t (Run.guard handles alarm) (Direct.guard m.arena handles alarm) :=
    .guard
  have looked := ((draws.simulates_observed looks).bind fun _ => looks) _ w shows
  have plain := draws.simulates t _ w shows
  rw [watched] at looked
  rw [observe_of_ready ready, execute_of_ready ready, plan_of_shows shows head, Run.andThen,
    Run.andThen]
  revert looked plain
  generalize ((m.arena.plan m.head).observed (Run.guard handles alarm) >>= fun _ =>
    Run.guard handles alarm) { s with executed := 0, warnings := [] } = ended
  generalize (m.arena.plan m.head).run { s with executed := 0, warnings := [] } = ended'
  obtain ⟨outcome, after⟩ := ended
  obtain ⟨outcome', after'⟩ := ended'
  rintro ⟨left, shown⟩ ⟨right, shown'⟩
  obtain rfl : outcome = outcome' := left.trans right.symm
  cases outcome with
  | error e => rfl
  | ok value =>
      change Except.ok (RunReport.mk after.executed
        (after.solvers.entries.map fun entry => (entry.1, entry.2.results))
        after.warnings.reverse) = Except.ok (RunReport.mk after'.executed
          (after'.solvers.entries.map fun entry => (entry.1, entry.2.results))
          after'.warnings.reverse)
      rw [shown.executed, shown.solvers, shown.warnings, shown'.executed, shown'.solvers,
        shown'.warnings]

end

/-! ## Solvers under their names -/

/-- A session that has been made ready for the first time holds its solvers under their names. -/
theorem named_of_prepare {s ready : Session} (prepared : prepare s = (.ok (), ready))
    (none : s.solvers = .empty) : ready.Named := by
  have named : s.Named := by
    intro name solver held
    rw [none] at held
    cases held
  rcases prepare_cases s with ⟨e, -, failed⟩ | ⟨-, done⟩
  · rw [failed] at prepared
    cases prepared
  · rw [done] at prepared
    cases prepared
    exact forall_addSolvers (fun _ => rfl) named

/-- However often a script has been executed, if none of its loops starts a solver inside the solver's
own loop, then an execution that is watched ends as it does without the watch: in front of every
command, and at the end, the number of each result command stands for a result of the command's kind
and name in the solver that the command names. So no solver ever lacks a result that is reported. -/
theorem observe_guard {keywords : Keywords} {source : Nat} {text : Text} {m : Mission}
    (accepted : Mission.ofSource keywords source text = .ok m) {options : RunOptions}
    {objects : Store} {ready s : Session}
    (prepared : prepare { mission := { m with objects }, options } = (.ok (), ready))
    (executed : Executed ready s) {statements : List Statement}
    (parsed : parseScript keywords text = .ok statements)
    (apart : loopsApart [] (missionCommands statements)) :
    (∀ alarm, (observe (Run.guard s.commands alarm) s).1 = (execute s).1) ∧
      Outcome.Only (·.error.lacksResult = false) (execute s).1 := by
  rw [Mission.ofSource, parsed] at accepted
  obtain ⟨_, _, ⟨program, commands⟩, each⟩ := Mission.draws_of_accepted accepted
  have draws := each program commands
  rw [← commands, ← List.append_nil program.commands] at apart
  have apart : program.LoopsApart [] := (Program.LoopsApart.of_commands apart).1
  have named := named_of_prepare prepared rfl
  obtain ⟨held, rfl⟩ : ∃ held, ready =
      { mission := { m with objects }, options, solvers := held, ready := true } :=
    ⟨_, ready_of_prepare prepared⟩
  let t : Terms := ⟨m.source, options.passLimit⟩
  let begun : Session :=
    { mission := { m with objects }, options, solvers := held, ready := true }
  have shows := draws.shows (s := begun) commands rfl rfl rfl rfl
  have first : World.Orderly m.arena { objects, solvers := held } :=
    World.orderly_of_unregistered named fun _ => rfl
  have kept (w : World) (before : w.Orderly m.arena ∧ w.active = []) :
      (program.run t 1 w).2.reset.Orderly m.arena ∧ (program.run t 1 w).2.reset.active = [] :=
    have within := (draws.tame (t := t) apart before.1 before.2).within
    ⟨World.orderly_of_unregistered within.orderly.named fun _ => rfl, within.active.trans before.2⟩
  obtain ⟨isReady, head, w, ⟨orderly, idle⟩, shown⟩ :=
    executed.exists_shown draws rfl rfl shows ⟨first, rfl⟩ kept
  refine ⟨observe_eq_execute draws isReady head shown orderly idle apart s.commands, ?_⟩
  rw [(draws.performs isReady (plan_of_shows shown head) shown).outcome, Program.perform]
  exact .map (draws.tame apart orderly idle).finds

/-- The second execution of a loop inside the loop of another solver. -/
theorem observe_guard_twice :
    ∃ m ready statements,
      Mission.ofSource .builtin 0 ("Create Yukon A;\nCreate SQP B;\nCreate Variable x y;\n" ++
        "Optimize A\nMinimize A(x)\nTarget B\nMinimize B(y)\nEndTarget\nEndOptimize").toList =
          .ok m ∧
      prepare { mission := { m with objects := m.objects } } = (.ok (), ready) ∧
      parseScript .builtin ("Create Yukon A;\nCreate SQP B;\nCreate Variable x y;\n" ++
        "Optimize A\nMinimize A(x)\nTarget B\nMinimize B(y)\nEndTarget\nEndOptimize").toList =
          .ok statements ∧
      loopsApart [] (missionCommands statements) ∧
      (∀ alarm, (observe (Run.guard (execute ready).2.commands alarm) (execute ready).2).1 =
        (execute (execute ready).2).1) ∧
      Outcome.Only (·.error.lacksResult = false) (execute (execute ready).2).1 := by
  obtain ⟨m, ready, accepted, prepared⟩ := exists_ready (by
    decide +kernel : ((Mission.ofSource .builtin 0
      ("Create Yukon A;\nCreate SQP B;\nCreate Variable x y;\n" ++
        "Optimize A\nMinimize A(x)\nTarget B\nMinimize B(y)\nEndTarget\nEndOptimize").toList).map
        fun m => (prepare { mission := { m with objects := m.objects } }).1.isOk).toOption = some true)
  have readable : ((parseScript .builtin ("Create Yukon A;\nCreate SQP B;\nCreate Variable x y;\n" ++
      "Optimize A\nMinimize A(x)\nTarget B\nMinimize B(y)\nEndTarget\nEndOptimize").toList).map
        fun statements => loopsApart [] (missionCommands statements)).toOption = some true := by
    decide +kernel
  cases parsed : parseScript .builtin ("Create Yukon A;\nCreate SQP B;\nCreate Variable x y;\n" ++
      "Optimize A\nMinimize A(x)\nTarget B\nMinimize B(y)\nEndTarget\nEndOptimize").toList with
  | error errors =>
      rw [parsed] at readable
      cases readable
  | ok statements =>
      rw [parsed] at readable
      have apart : loopsApart [] (missionCommands statements) := Option.some.inj readable
      exact ⟨m, ready, statements, accepted, prepared, rfl, apart,
        observe_guard accepted prepared (.again .none) parsed apart⟩

/-- The inner loop starts the solver of the outer one again, which gives the number of `x` to `y`. -/
theorem observe_guard_reused :
    ((Mission.ofSource .builtin 0 ("Create SQP O;\nCreate Variable x y;\nOptimize O\n" ++
      "Minimize O(x)\nOptimize O\nMinimize O(y)\nEndOptimize\nEndOptimize").toList).map fun m =>
        let ready := (prepare { mission := m }).2
        let alarm : Diagnostic := { error := .cannotRemoveHead }
        ((observe (Run.guard ready.commands alarm) ready).1.isOk, (execute ready).1.isOk)).toOption =
      some (false, true) := by
  decide +kernel

end Session

end MissionScript
