import MissionScript.Proofs.Mission.Fidelity
import MissionScript.Proofs.Run.Observed
import MissionScript.Proofs.Run.Plan
import MissionScript.Proofs.Run.Simulation

/-!
# Runs of accepted scripts

Running the sequence of an accepted script, along the links of its arena, does what a direct reading of
its program does: the same changes of the objects and the solvers, the same warnings, and the same
outcome.
-/

namespace MissionScript

variable {a : Arena} {t : Terms} {look : Run Unit} {directLook : Direct Unit}

/-- A program does along its plan what it does when it is read directly, wherever it is drawn. Both
are looked at in front of every command. -/
def Performed (a : Arena) (t : Terms) (look : Run Unit) (directLook : Direct Unit)
    (program : Program) : Prop :=
  ∀ {more : Layout} {base : Nat} {previous : Option Handle} {rest : Plan} {behind : Direct Unit},
    a.Drawn none base previous (program.layout ++ more) →
    base + (program.layout ++ more).size ≤ a.slots.size →
    Simulates a t (rest.observed look) behind →
    Simulates a t ((program.planAt rest base).observed look)
      (program.observed t directLook base >>= fun _ => behind)

namespace Performed

variable {c opener closer : Command} {body next : Program}

theorem plain (looks : Simulates a t look directLook) (isPlain : c.kind.isPlain)
    (performed : Performed a t look directLook next) :
    Performed a t look directLook (.plain c isPlain next) := by
  intro more base previous rest behind drawn inside onward
  rw [Layout.size_append, Program.size_layout_plain] at inside
  simp only [Program.observed, bind_assoc]
  refine looks.bind fun _ => .bind (.plain (Arena.command?_of_drawn drawn) isPlain _ _) fun _ => ?_
  exact performed drawn.after (by rw [Layout.size_append]; omega) onward

/-- Entering a command counts it. -/
theorem entering {position : Nat} (found : a.command? (.ofIndex position) = some c)
    {r : Run Unit} {d : Direct Unit} (behind : Simulates a t r d) :
    Simulates a t (Run.enter (.ofIndex position) >>= fun _ => r) (Direct.count >>= fun _ => d) := by
  intro s w shows
  obtain ⟨entered, showsNow⟩ := shows.enter found
  unfold Direct.count
  rw [Step.bind_ok entered, Step.modify_bind]
  exact behind _ _ showsNow

theorem script (looks : Simulates a t look directLook) (opens : opener.kind = .beginScript)
    (closes : closer.kind = .endScript) (performedBody : Performed a t look directLook body)
    (performedNext : Performed a t look directLook next) :
    Performed a t look directLook (.script opener opens body closer closes next) := by
  intro more base previous rest behind drawn inside onward
  rw [Layout.size_append, Program.size_layout_script] at inside
  rw [Program.layout_script_append] at drawn
  obtain ⟨_, ending⟩ := drawn.after.exists_of_append
  have inBody : Simulates a t ((body.planAt .done (base + 1)).observed look)
      (body.observed t directLook (base + 1) >>= fun _ => pure ()) :=
    performedBody drawn.after
      (by simp only [Layout.size_append, Layout.size_step, Layout.size_done]; omega) (.value ())
  have after := performedNext ending.after (by rw [Layout.size_append]; omega) onward
  have both := entering (Arena.command?_of_drawn drawn) (.bind inBody fun _ => after)
  simp only [bind_assoc, pure_bind] at both
  simp only [Program.observed, bind_assoc, ← Program.size_layout]
  exact looks.bind fun _ => both

/-- A branch with the command that ends it. -/
theorem ended {base : Nat} {previous : Option Handle} (looks : Simulates a t look directLook)
    (performed : Performed a t look directLook body)
    (drawn : a.Drawn none base previous (body.layout ++ .step closer .done .done .done))
    (inside : base + (body.layout.size + 1) ≤ a.slots.size) (ends : closer.kind.endsBranch) :
    Simulates a t
      ((body.planAt (.step (.ofIndex (base + body.layout.size)) .done .done .done) base).observed
        look) (do
        body.observed t directLook base
        directLook
        Direct.count) := by
  obtain ⟨_, ending⟩ := drawn.exists_of_append
  refine performed drawn (by rw [Layout.size_append]; exact inside) ?_
  simp only [Plan.observed, bind_pure_unit]
  exact looks.bind fun _ => .ending (Arena.command?_of_drawn ending) ends _ _

theorem block (fresh : a.Fresh) (looks : Simulates a t look directLook)
    (ends : (opener.kind, closer.kind) ∈ CommandKind.branchEnds)
    (performedBody : Performed a t look directLook body)
    (performedNext : Performed a t look directLook next) :
    Performed a t look directLook (.block opener body closer ends next) := by
  intro more base previous rest behind drawn inside onward
  rw [Layout.size_append, Program.size_layout_block] at inside
  have drawnBehind := drawn.behind
  rw [Layout.size_ended] at drawnBehind
  have inBody := performedBody.ended looks drawn.2.2.1 (by omega)
    (CommandKind.endsBranch_of_branchEnds ends)
  have after := performedNext drawnBehind
    (by rw [Layout.size_append, Layout.size_done]; omega) onward
  have opened := Simulates.block fresh drawn (by rw [Layout.size_ended]; omega)
    (CommandKind.ownsBranches_of_branchEnds ends) inBody
  rw [Layout.size_ended] at opened
  have both := opened.bind fun _ => after
  simp only [Program.observed, bind_assoc, ← Program.size_layout]
  exact looks.bind fun _ => both

theorem choice {first second : Program} {alternative : Command}
    (looks : Simulates a t look directLook) (opens : opener.kind = .ifThen)
    (turns : alternative.kind = .otherwise) (closes : closer.kind = .endIf)
    (performedFirst : Performed a t look directLook first)
    (performedSecond : Performed a t look directLook second)
    (performedNext : Performed a t look directLook next) :
    Performed a t look directLook (.choice opener opens first alternative turns second closer closes next) := by
  intro more base previous rest behind drawn inside onward
  rw [Layout.size_append, Program.size_layout_choice] at inside
  have drawnSecond := drawn.2.2.2.1
  have drawnBehind := drawn.behind
  rw [Layout.size_ended] at drawnSecond
  rw [Layout.size_ended, Layout.size_ended] at drawnBehind
  have inFirst := performedFirst.ended looks drawn.2.2.1 (by omega) (by rw [turns]; rfl)
  have inSecond := performedSecond.ended looks drawnSecond (by omega) (by rw [closes]; rfl)
  have after := performedNext drawnBehind (by rw [Layout.size_append]; omega) onward
  have both := (Simulates.choice (Arena.command?_of_drawn drawn) opens inFirst inSecond).bind
    fun _ => after
  simp only [Program.observed, bind_assoc, ← Program.size_layout]
  exact looks.bind fun _ => both

end Performed

/-- Every program does along its plan what it does when it is read directly. -/
theorem performed (fresh : a.Fresh) (looks : Simulates a t look directLook) (program : Program) :
    Performed a t look directLook program := by
  induction program with
  | done => exact fun _ _ onward => onward
  | plain c isPlain next ih => exact Performed.plain looks isPlain ih
  | script opener opens body closer closes next bodyIH nextIH =>
      exact Performed.script looks opens closes bodyIH nextIH
  | block opener body closer ends next bodyIH nextIH =>
      exact Performed.block fresh looks ends bodyIH nextIH
  | choice opener opens first alternative turns second closer closes next firstIH secondIH nextIH =>
      exact Performed.choice looks opens turns closes firstIH secondIH nextIH

/-! ## Commands as they are read -/

theorem Objective.unregistered_of_parse {arguments : Text} {o : Objective}
    (parsed : Objective.parse arguments = .ok o) : o.state = .unregistered := by
  obtain ⟨⟨solver, name⟩, -, rest⟩ := Outcome.bind_eq_ok_iff.mp parsed
  obtain ⟨operand, -, rest⟩ := Outcome.bind_eq_ok_iff.mp rest
  dsimp only at rest
  split at rest
  · cases rest
  · cases rest
    rfl

theorem Constraint.unregistered_of_parse {arguments : Text} {o : Constraint}
    (parsed : Constraint.parse arguments = .ok o) : o.state = .unregistered := by
  obtain ⟨⟨solver, text⟩, -, rest⟩ := Outcome.bind_eq_ok_iff.mp parsed
  obtain ⟨⟨left, kind, right⟩, -, rest⟩ := Outcome.bind_eq_ok_iff.mp rest
  dsimp only at rest
  split at rest
  · cases rest
  · obtain ⟨operand, -, rest⟩ := Outcome.bind_eq_ok_iff.mp rest
    split at rest
    · cases rest
    · obtain ⟨bound, -, rest⟩ := Outcome.bind_eq_ok_iff.mp rest
      cases rest
      rfl

namespace CommandBody

theorem withState_of_parse {kind : CommandKind} {arguments : Text} {body : CommandBody}
    (parsed : CommandBody.parse kind arguments = .ok body) :
    body.withState .unregistered = body := by
  unfold CommandBody.parse at parsed
  split at parsed
  · obtain ⟨_, _, rfl⟩ := Outcome.map_eq_ok_iff.mp parsed
    rfl
  · obtain ⟨_, _, rfl⟩ := Outcome.map_eq_ok_iff.mp parsed
    rfl
  · obtain ⟨_, _, rfl⟩ := Outcome.map_eq_ok_iff.mp parsed
    rfl
  · obtain ⟨_, _, rfl⟩ := Outcome.map_eq_ok_iff.mp parsed
    rfl
  · obtain ⟨_, _, rfl⟩ := Outcome.map_eq_ok_iff.mp parsed
    rfl
  · obtain ⟨o, read, rfl⟩ := Outcome.map_eq_ok_iff.mp parsed
    rw [withState, ← Objective.unregistered_of_parse read]
  · obtain ⟨c, read, rfl⟩ := Outcome.map_eq_ok_iff.mp parsed
    rw [withState, ← Constraint.unregistered_of_parse read]
  · cases parsed
    rfl
  · split at parsed
    · cases parsed
      rfl
    · cases parsed

end CommandBody

/-- A command that has just been read has no result. -/
theorem Command.withState_of_ofStatement {s : Statement} {c : Command}
    (built : Command.ofStatement s = .ok c) : c.withState .unregistered = c := by
  unfold ofStatement at built
  dsimp only at built
  split at built
  · split at built
    · rename_i body read
      cases built
      obtain ⟨target, _, rest⟩ := Outcome.bind_eq_ok_iff.mp read
      split at rest
      · cases rest
      · obtain ⟨expression, _, rest⟩ := Outcome.bind_eq_ok_iff.mp rest
        cases rest
        rfl
    · cases built
  · split at built
    · rename_i body read
      cases built
      obtain ⟨call, _, rfl⟩ := Outcome.map_eq_ok_iff.mp read
      rfl
    · cases built
  · obtain ⟨body, read, rest⟩ := Outcome.bind_eq_ok_iff.mp built
    cases rest
    rw [withState, CommandBody.withState_of_parse (Outcome.mapError_eq_ok_iff.mp read)]
  · cases built

theorem Command.withState_of_missionCommands {statements : List Statement} {c : Command}
    (member : c ∈ missionCommands statements) : c.withState .unregistered = c := by
  obtain ⟨s, _, described⟩ := List.mem_filterMap.mp member
  have renders := Command.renders_of_command? described
  have same := congrArg Command.body (Command.withState_of_ofStatement renders.built)
  exact congrArg (fun body => { c with body }) same

/-! ## Whole runs -/

namespace Session

/-- Adding solvers changes nothing else. -/
theorem addSolvers_eq (s : Session) : s.addSolvers = { s with solvers := s.addSolvers.solvers } := by
  unfold addSolvers
  generalize s.objects.entries = entries
  induction entries generalizing s with
  | nil => rfl
  | cons entry rest ih =>
      obtain ⟨name, object⟩ := entry
      rw [List.foldl_cons]
      dsimp only
      split
      · exact ih (s.addSolver name)
      · exact ih s

/-- A preparation adds solvers, and succeeds if no command has an unresolved reference. -/
theorem prepare_cases (s : Session) :
    (∃ e, s.addSolvers.unresolved? ⟨s.objects, s.options.solverTypes⟩ s.commands = some e ∧
        prepare s = (.error e, s.addSolvers)) ∨
      s.addSolvers.unresolved? ⟨s.objects, s.options.solverTypes⟩ s.commands = none ∧
        prepare s = (.ok (), { s.addSolvers with ready := true }) := by
  have same : s.addSolvers.unresolved? ⟨s.addSolvers.objects, s.addSolvers.options.solverTypes⟩
      s.addSolvers.commands =
        s.addSolvers.unresolved? ⟨s.objects, s.options.solverTypes⟩ s.commands := by
    rw [addSolvers_eq]
    rfl
  unfold prepare
  rw [Step.modify_bind, Step.get_bind, same]
  cases s.addSolvers.unresolved? ⟨s.objects, s.options.solverTypes⟩ s.commands with
  | some e => exact .inl ⟨e, rfl, rfl⟩
  | none => exact .inr ⟨rfl, rfl⟩

/-- What a preparation that succeeds leaves behind. -/
theorem ready_of_prepare {s ready : Session} (prepared : prepare s = (.ok (), ready)) :
    ready = { s with solvers := ready.solvers, ready := true } := by
  rcases prepare_cases s with ⟨e, -, failed⟩ | ⟨-, done⟩
  · rw [failed] at prepared
    cases prepared
  · rw [done] at prepared
    cases prepared
    rw [addSolvers_eq]

end Session

namespace Mission.Draws

variable {m : Mission} {program : Program}

/-- The commands of a mission without results have none. -/
theorem bare_of_node? (draws : m.Draws program)
    (bare : ∀ c ∈ program.commands, c.withState .unregistered = c) {h : Handle} {node : Node}
    (found : m.arena.node? h = some node) : node.command.withState .unregistered = node.command := by
  rcases draws.command_of_node? found with head | listed
  · rw [head]
    rfl
  · exact bare _ listed

/-- A mission without results shows its program with none. -/
theorem shows_of_bare (draws : m.Draws program)
    (bare : ∀ c ∈ program.commands, c.withState .unregistered = c) {s : Session}
    (mission : s.mission = { m with objects := s.objects }) (active : s.active = [])
    (executed : s.executed = 0) (warnings : s.warnings = []) :
    Shows m.arena ⟨m.source, s.options.passLimit⟩ s { objects := s.objects, solvers := s.solvers } where
  objects := rfl
  solvers := rfl
  active := active
  executed := executed
  warnings := warnings
  source := by rw [mission]
  passLimit := rfl
  size := by rw [Session.arena, mission]
  node h := by
    rw [Session.arena, mission]
    cases found : m.arena.node? h with
    | none => rfl
    | some node => rw [Option.map_some, draws.bare_of_node? bare found]

/-- Before a run no command has a result. -/
theorem shows {statements : List Statement} (draws : m.Draws program)
    (commands : program.commands = missionCommands statements) {s : Session}
    (mission : s.mission = { m with objects := s.objects }) (active : s.active = [])
    (executed : s.executed = 0) (warnings : s.warnings = []) :
    Shows m.arena ⟨m.source, s.options.passLimit⟩ s { objects := s.objects, solvers := s.solvers } :=
  draws.shows_of_bare (commands ▸ fun _ => Command.withState_of_missionCommands) mission active
    executed warnings

/-- Following the links from the head performs the program, also when both are looked at. -/
theorem simulates_observed (draws : m.Draws program) (looks : Simulates m.arena t look directLook) :
    Simulates m.arena t ((m.arena.plan m.head).observed look) (program.observed t directLook 1) := by
  have full := draws.full
  rw [Layout.size_step, Layout.size_done] at full
  have behind : m.arena.Drawn none 1 (some (.ofIndex 0)) (program.layout ++ .done) := by
    rw [Layout.append_done]
    exact draws.drawn.after
  have whole : Simulates m.arena t ((program.planAt .done 1).observed look)
      (program.observed t directLook 1 >>= fun _ => pure ()) :=
    performed draws.fresh looks program behind (by rw [Layout.append_done]; omega) (.value ())
  rw [bind_pure_unit] at whole
  rw [draws.head, Arena.plan_eq program draws.drawn (by omega)]
  exact whole

theorem simulates (draws : m.Draws program) (t : Terms) :
    Simulates m.arena t (m.arena.plan m.head).run (program.run t 1) := by
  have whole := draws.simulates_observed (t := t) (.value ())
  rwa [Plan.observed_pure, Program.observed_pure] at whole

end Mission.Draws

namespace Session

variable {s : Session}

/-- What a session that is ready does when it is looked at. -/
theorem observe_of_ready (ready : s.ready = true) (look : Run Unit) :
    observe look s =
      match Run.andThen ((s.arena.plan s.mission.head).observed look >>= fun _ => look) forgetResults
        { s with executed := 0, warnings := [] } with
      | (.ok _, s) => (.ok {
          executed := s.executed
          results := s.solvers.entries.map fun (name, solver) => (name, solver.results)
          warnings := s.warnings.reverse }, s)
      | (.error e, s) => (.error e, s) := by
  have skips : (!s.ready) = false := by rw [ready]; rfl
  unfold observe
  rw [Step.get_bind]
  simp only [skips, Bool.false_eq_true, if_false]
  rw [Step.modify_bind, Step.get_bind]
  dsimp only [Session.arena]
  cases ran : Run.andThen ((s.mission.arena.plan s.mission.head).observed look >>= fun _ => look)
      forgetResults { s with executed := 0, warnings := [] } with
  | mk outcome after =>
      cases outcome with
      | error error => rw [Step.bind_error ran]
      | ok => rw [Step.bind_ok ran, Step.get_bind, Step.pure_apply]

theorem execute_of_ready (ready : s.ready = true) :
    execute s =
      match Run.andThen (s.arena.plan s.mission.head).run forgetResults
        { s with executed := 0, warnings := [] } with
      | (.ok _, s) => (.ok {
          executed := s.executed
          results := s.solvers.entries.map fun (name, solver) => (name, solver.results)
          warnings := s.warnings.reverse }, s)
      | (.error e, s) => (.error e, s) := by
  rw [← observe_pure, observe_of_ready ready, Plan.observed_pure, bind_pure_unit]

end Session

/-- Running the session once does what reading the program from a world on does: it ends in the same
way, with the same report or the same error, and leaves the same objects and solvers. -/
structure Session.Performs (s : Session) (t : Terms) (program : Program) (w : World) : Prop where
  outcome : (execute s).1 = (program.perform t w).1
  objects : (execute s).2.objects = (program.perform t w).2.objects
  solvers : (execute s).2.solvers = (program.perform t w).2.solvers

theorem Mission.Draws.performs {m : Mission} {program : Program} (draws : m.Draws program)
    {s : Session} {w : World} (ready : s.ready = true)
    (plan : s.arena.plan s.mission.head = m.arena.plan m.head)
    (shows : Shows m.arena t { s with executed := 0, warnings := [] } w) :
    s.Performs t program w := by
  have executed := Session.execute_of_ready ready
  obtain ⟨same, showsNow⟩ := draws.simulates t _ w shows
  rw [plan, Run.andThen] at executed
  cases ran : (m.arena.plan m.head).run { s with executed := 0, warnings := [] } with
  | mk outcome after =>
      cases read : program.run t 1 w with
      | mk result left =>
          rw [ran, read] at same showsNow
          rw [ran] at executed
          cases same
          cases outcome with
          | error e =>
              constructor <;> rw [executed, Program.perform, read]
              · rfl
              · exact showsNow.objects
              · exact showsNow.solvers
          | ok value =>
              constructor <;> rw [executed, Program.perform, read]
              · change Except.ok (RunReport.mk after.executed
                  (after.solvers.entries.map fun (name, solver) => (name, solver.results))
                  after.warnings.reverse) = _
                rw [showsNow.executed, showsNow.solvers, showsNow.warnings]
                rfl
              · exact showsNow.objects
              · exact showsNow.solvers

/-- The commands of an accepted source make up a program, and running its sequence does what reading
this program does, for any options and any objects with which the session can be made ready. -/
theorem Session.execute_performs {keywords : Keywords} {source : Nat} {text : Text} {m : Mission}
    (accepted : Mission.ofSource keywords source text = .ok m) {options : RunOptions}
    {objects : Store} {solvers : Table DryRun} {ready : Session}
    (prepared : Session.prepare { mission := { m with objects }, options, solvers } =
      (.ok (), ready)) :
    ∃ statements, parseScript keywords text = .ok statements ∧
      (∃ program : Program, program.commands = missionCommands statements) ∧
      ∀ program : Program, program.commands = missionCommands statements →
        ready.Performs ⟨source, options.passLimit⟩ program
          { objects, solvers := ready.solvers } := by
  unfold Mission.ofSource at accepted
  cases parsed : parseScript keywords text with
  | error errors =>
      rw [parsed] at accepted
      cases accepted
  | ok statements =>
      rw [parsed] at accepted
      obtain ⟨_, rfl, exists', each⟩ := Mission.draws_of_accepted accepted
      refine ⟨statements, rfl, exists', fun program commands => ?_⟩
      have draws := each program commands
      obtain ⟨held, rfl⟩ : ∃ held, ready =
          { mission := { m with objects }, options, solvers := held, ready := true } :=
        ⟨_, ready_of_prepare prepared⟩
      let begun : Session :=
        { mission := { m with objects }, options, solvers := held, ready := true }
      exact draws.performs rfl rfl (draws.shows (s := begun) commands rfl rfl rfl rfl)

/-- A script block inside a solver loop. -/
theorem Session.execute_performs_target :
    ∃ m ready,
      Mission.ofSource .builtin 0 ("Create DifferentialCorrector DC1;\nTarget DC1\nBeginScript\n" ++
        "Report x;\nEndScript;\nEndTarget;").toList = .ok m ∧
      Session.prepare { mission := { m with objects := m.objects } } = (.ok (), ready) ∧
      ∃ statements,
        parseScript .builtin ("Create DifferentialCorrector DC1;\nTarget DC1\nBeginScript\n" ++
          "Report x;\nEndScript;\nEndTarget;").toList = .ok statements ∧
        (∃ program : Program, program.commands = missionCommands statements) ∧
        ∀ program : Program, program.commands = missionCommands statements →
          ready.Performs ⟨0, 100000⟩ program { objects := m.objects, solvers := ready.solvers } := by
  have succeeds : ((Mission.ofSource .builtin 0
      ("Create DifferentialCorrector DC1;\nTarget DC1\nBeginScript\n" ++
        "Report x;\nEndScript;\nEndTarget;").toList).map fun m =>
      (Session.prepare { mission := { m with objects := m.objects } }).1.isOk).toOption =
        some true := by
    decide +kernel
  cases accepted : Mission.ofSource .builtin 0
      ("Create DifferentialCorrector DC1;\nTarget DC1\nBeginScript\n" ++
        "Report x;\nEndScript;\nEndTarget;").toList with
  | error errors =>
      rw [accepted] at succeeds
      cases succeeds
  | ok m =>
      rw [accepted] at succeeds
      cases prepared : Session.prepare { mission := { m with objects := m.objects } } with
      | mk outcome ready =>
          cases outcome with
          | error e =>
              simp [Except.map, prepared] at succeeds
              cases succeeds
          | ok =>
              exact ⟨m, ready, rfl, prepared, Session.execute_performs accepted prepared⟩

end MissionScript
