import MissionScript.Proofs.Renaming.Mission
import MissionScript.Proofs.Run.Preparation

/-!
# Between runs

A session can be made ready, executed and have its objects renamed, in any order and any number of
times. In between, its mission draws a program without results, no solver is running, and solvers are
held under their names. An execution leaves the sequence as it found it.
-/

namespace MissionScript

/-! ## Renamed commands -/

namespace CommandBody

variable {objectType : ObjectType} {old new : Text}

/-- Renaming does not change where a result stands with its solver. -/
theorem resultState?_of_rename? {body after : CommandBody}
    (renamed : body.rename? objectType old new = some after) :
    after.resultState? = body.resultState? := by
  cases body with
  | objective o =>
      obtain ⟨o', made, rfl⟩ := Option.map_eq_some_iff.mp renamed
      unfold Objective.rename? at made
      obtain ⟨-, same⟩ := Option.ite_none_right_eq_some.mp made
      cases same
      rfl
  | constraint c =>
      obtain ⟨c', made, rfl⟩ := Option.map_eq_some_iff.mp renamed
      unfold Constraint.rename? at made
      obtain ⟨-, same⟩ := Option.ite_none_right_eq_some.mp made
      cases same
      rfl
  | call c =>
      obtain ⟨c', -, rfl⟩ := Option.map_eq_some_iff.mp renamed
      rfl
  | generic arguments =>
      dsimp only [rename?] at renamed
      split at renamed
      · cases renamed
      · cases renamed
        rfl
  | structural => cases renamed
  | _ =>
      obtain ⟨-, same⟩ := Option.ite_none_right_eq_some.mp renamed
      cases same
      rfl

end CommandBody

namespace Command

variable {c : Command} {objectType : ObjectType} {old new : Text}

/-- A command has no number if its result, if it has one, is unregistered. -/
theorem withState_eq_self_iff :
    c.withState .unregistered = c ↔ ∀ state ∈ c.body.resultState?, state = .unregistered := by
  obtain ⟨kind, typeName, label, generating, body, span⟩ := c
  cases body with
  | objective o =>
      obtain ⟨solver, name, operand, state⟩ := o
      simp [withState, CommandBody.withState, CommandBody.resultState?, eq_comm]
  | constraint o =>
      obtain ⟨solver, name, operand, relation, boundName, bound, state⟩ := o
      simp [withState, CommandBody.withState, CommandBody.resultState?, eq_comm]
  | _ => simp [withState, CommandBody.withState, CommandBody.resultState?]

theorem withState_afterRename (bare : c.withState .unregistered = c) :
    (c.afterRename objectType old new).withState .unregistered = c.afterRename objectType old new := by
  rw [withState_eq_self_iff] at bare ⊢
  rw [afterRename_eq]
  split
  · exact bare
  · rename_i after renamed
    rw [CommandBody.resultState?_of_rename? renamed]
    exact bare

end Command

/-- Two missions with the same sequence differ in their objects only. -/
theorem Mission.eq_withObjects {m n : Mission} (arena : n.arena = m.arena) (head : n.head = m.head)
    (source : n.source = m.source) : n = { m with objects := n.objects } := by
  cases n
  cases arena
  cases head
  cases source
  rfl

namespace Session

/-- The commands of a session in their order. -/
def script (s : Session) : List Command := s.commands.filterMap s.arena.command?

/-! ## Sessions at rest -/

/-- What holds of the sequence between two runs: it draws a program without results, and no solver is
running. -/
structure Quiet (program : Program) (s : Session) : Prop where
  draws : s.mission.Draws program
  bare : ∀ c ∈ program.commands, c.withState .unregistered = c
  active : s.active = []

/-- What holds of a session between two runs. -/
structure AtRest (program : Program) (s : Session) : Prop where
  draws : s.mission.Draws program
  bare : ∀ c ∈ program.commands, c.withState .unregistered = c
  active : s.active = []
  named : s.Named
  /-- No solver has been started before the session is ready. -/
  unstarted : s.ready = false →
    ∀ name solver, s.solvers.get? name = some solver → solver = { name }

namespace Quiet

variable {program : Program} {s : Session}

theorem shows (quiet : s.Quiet program) :
    Shows s.mission.arena ⟨s.mission.source, s.options.passLimit⟩
      { s with executed := 0, warnings := [] } { objects := s.objects, solvers := s.solvers } :=
  quiet.draws.shows_of_bare (s := { s with executed := 0, warnings := [] }) quiet.bare rfl
    quiet.active rfl rfl

theorem addSolvers (quiet : s.Quiet program) : s.addSolvers.Quiet program := by
  rw [addSolvers_eq]
  exact ⟨quiet.draws, quiet.bare, quiet.active⟩

theorem prepare (quiet : s.Quiet program) : (prepare s).2.Quiet program := by
  have added := quiet.addSolvers
  rcases prepare_cases s with ⟨e, -, failed⟩ | ⟨-, done⟩
  · rw [failed]
    exact added
  · rw [done]
    exact ⟨added.draws, added.bare, added.active⟩

/-- An execution changes nothing of the mission but its objects: every command stays as it was, with
its links. -/
theorem execute_of_ready (quiet : s.Quiet program) (ready : s.ready = true) :
    (execute s).2.Quiet program ∧
      (execute s).2.mission = { s.mission with objects := (execute s).2.objects } := by
  have stays := (s.arena.plan s.mission.head).stays_run { s with executed := 0, warnings := [] }
  have shown := (quiet.draws.simulates ⟨s.mission.source, s.options.passLimit⟩ _ _ quiet.shows).2
  have forgotten := shows_forgetResults quiet.draws shown stays.head
  rw [execute_snd ready]
  have nodes (h : Handle) :
      (forgetResults ((s.arena.plan s.mission.head).run
        { s with executed := 0, warnings := [] }).2).arena.node? h = s.mission.arena.node? h := by
    refine (forgotten.node h).trans ?_
    cases found : s.mission.arena.node? h with
    | none => rfl
    | some node => rw [Option.map_some, quiet.draws.bare_of_node? quiet.bare found]
  have draws : (forgetResults ((s.arena.plan s.mission.head).run
      { s with executed := 0, warnings := [] }).2).mission.Draws program :=
    quiet.draws.congr stays.head forgotten.size nodes
  have arena := draws.fresh.ext quiet.draws.fresh forgotten.size nodes
  exact ⟨⟨draws, quiet.bare, stays.active.trans quiet.active⟩,
    Mission.eq_withObjects arena stays.head shown.source⟩

/-- What is left of a session when an object has been renamed. -/
theorem renamed (quiet : s.Quiet program) {objectType : ObjectType} {old new : Text}
    {objects : Store} {arena : Arena} (size : arena.slots.size = s.arena.slots.size)
    (nodes : ∀ h, arena.node? h = (s.arena.node? h).map fun node =>
      { node with command := node.command.afterRename objectType old new }) :
    ((s.withObjects objects).withArena arena).Quiet
      (program.map (·.afterRename objectType old new) fun c => c.kind_afterRename) := by
  refine ⟨draws_rename quiet.draws size nodes, ?_, quiet.active⟩
  rw [Program.commands_map]
  intro c member
  obtain ⟨before, listed, rfl⟩ := List.mem_map.mp member
  exact Command.withState_afterRename (quiet.bare before listed)

theorem exists_rename (quiet : s.Quiet program) (objectType : ObjectType) (old new : Text) :
    ∃ program, (rename s objectType old new).2.Quiet program := by
  rcases rename_cases quiet.draws with
    ⟨refused, -⟩ | ⟨count, objects, found, arena, done, -, size, nodes⟩
  · rw [refused]
    exact ⟨program, quiet⟩
  · rw [done]
    exact ⟨_, quiet.renamed size nodes⟩

end Quiet

namespace AtRest

variable {program : Program} {s : Session}

theorem quiet (rest : s.AtRest program) : s.Quiet program := ⟨rest.draws, rest.bare, rest.active⟩

theorem shows (rest : s.AtRest program) :
    Shows s.mission.arena ⟨s.mission.source, s.options.passLimit⟩
      { s with executed := 0, warnings := [] } { objects := s.objects, solvers := s.solvers } :=
  rest.quiet.shows

/-- An execution performs the program. -/
theorem performs (rest : s.AtRest program) (ready : s.ready = true) :
    s.Performs ⟨s.mission.source, s.options.passLimit⟩ program
      { objects := s.objects, solvers := s.solvers } :=
  rest.draws.performs ready rfl rest.shows

theorem addSolvers (rest : s.AtRest program) : s.addSolvers.AtRest program := by
  have named : s.addSolvers.Named := forall_addSolvers (fun _ => rfl) rest.named
  have unstarted : s.ready = false →
      ∀ name solver, s.addSolvers.solvers.get? name = some solver → solver = { name } :=
    fun unready => forall_addSolvers (fun _ => rfl) (rest.unstarted unready)
  rw [addSolvers_eq] at named unstarted ⊢
  exact ⟨rest.draws, rest.bare, rest.active, named, unstarted⟩

/-- A session at rest stays so when it is made ready. -/
theorem started (rest : s.AtRest program) :
    AtRest program { s.addSolvers with ready := true } :=
  have added := rest.addSolvers
  ⟨added.draws, added.bare, added.active, added.named, fun unready => nomatch unready⟩

theorem prepare (rest : s.AtRest program) : (prepare s).2.AtRest program := by
  rcases prepare_cases s with ⟨e, -, failed⟩ | ⟨-, done⟩
  · rw [failed]
    exact rest.addSolvers
  · rw [done]
    exact rest.started

theorem front (rest : s.AtRest program) :
    s.mission.arena.command? s.mission.head = some (.ofKind .noOp) := by
  rw [rest.draws.head]
  exact Arena.command?_of_drawn rest.draws.drawn

/-- The references of a session at rest are resolved if those of its program are. -/
theorem resolved_iff (rest : s.AtRest program) :
    s.addSolvers.unresolved? ⟨s.objects, s.options.solverTypes⟩ s.commands = none ↔
      ∀ c ∈ program.commands, Resolution.check ⟨s.objects, s.options.solverTypes⟩ c.body = .ok () := by
  obtain ⟨handles, listed, each⟩ := rest.draws.commands
  have arena : s.addSolvers.arena = s.mission.arena := by
    rw [addSolvers_eq]
    rfl
  rw [unresolved?_eq_none_iff, arena, commands, Session.arena, listed, List.forall_mem_cons]
  constructor
  · rintro ⟨-, behind⟩ c member
    obtain ⟨h, inside, held⟩ := List.mem_map.mp (each ▸ List.mem_map_of_mem member)
    obtain ⟨c', held', checked⟩ := behind h inside
    obtain rfl : c' = c := Option.some.inj (held'.symm.trans held)
    exact checked
  · intro checked
    refine ⟨⟨_, rest.front, rfl⟩, fun h inside => ?_⟩
    obtain ⟨c, member, held⟩ := List.mem_map.mp (each.symm ▸ List.mem_map_of_mem inside)
    exact ⟨c, held.symm, checked c member⟩

theorem execute_of_ready (rest : s.AtRest program) (ready : s.ready = true) :
    (execute s).2.AtRest program := by
  have quiet := (rest.quiet.execute_of_ready ready).1
  have stays := (s.arena.plan s.mission.head).stays_run { s with executed := 0, warnings := [] }
  rw [execute_snd ready] at quiet ⊢
  refine ⟨quiet.draws, quiet.bare, quiet.active, stays.named rest.named, fun unready => ?_⟩
  have still : s.ready = false := stays.ready.symm.trans unready
  rw [ready] at still
  cases still

end AtRest

/-- A session that is not ready is made ready first. -/
theorem execute_of_unready {s : Session} (unready : s.ready = false) :
    execute s = (Session.prepare >>= fun _ => execute) s := by
  have goes : (!s.ready) = true := by rw [unready]; rfl
  rcases prepare_cases s with ⟨e, -, failed⟩ | ⟨-, done⟩
  · rw [Step.bind_error failed]
    unfold execute
    rw [Step.get_bind]
    simp only [goes, if_true]
    rw [Step.bind_error failed]
  · rw [Step.bind_ok done]
    unfold execute
    rw [Step.get_bind, Step.get_bind]
    simp only [goes, if_true]
    rw [Step.bind_ok done]
    rfl

/-- A preparation adds solvers and may make the session ready. -/
theorem prepare_snd (s : Session) :
    (prepare s).2 = { s with solvers := s.addSolvers.solvers, ready := (prepare s).2.ready } := by
  rcases prepare_cases s with ⟨e, -, failed⟩ | ⟨-, done⟩
  · rw [failed, addSolvers_eq]
  · rw [done, addSolvers_eq]

/-- An execution first makes the session ready if it is not. Either this fails, or a session that is
ready is executed. -/
theorem execute_cases (s : Session) :
    (∃ e, s.ready = false ∧ prepare s = (.error e, (prepare s).2) ∧
        execute s = (.error e, (prepare s).2)) ∨
      ∃ ready : Session, ready.ready = true ∧ execute s = execute ready ∧
        (ready = s ∨ s.ready = false ∧ prepare s = (.ok (), ready)) := by
  cases ready : s.ready with
  | true => exact .inr ⟨s, ready, rfl, .inl rfl⟩
  | false =>
      rw [execute_of_unready ready]
      rcases prepare_cases s with ⟨e, -, failed⟩ | ⟨-, done⟩
      · refine .inl ⟨e, rfl, ?_, ?_⟩
        · rw [failed]
        · rw [Step.bind_error failed, failed]
      · exact .inr ⟨_, rfl, Step.bind_ok done, .inr ⟨rfl, done⟩⟩

/-- An execution changes nothing of the mission but its objects, however it ends. -/
theorem Quiet.execute {program : Program} {s : Session} (quiet : s.Quiet program) :
    (execute s).2.Quiet program ∧
      (execute s).2.mission = { s.mission with objects := (execute s).2.objects } := by
  have prepared := quiet.prepare
  have same : (Session.prepare s).2.mission = s.mission := by rw [prepare_snd]
  rcases execute_cases s with ⟨e, -, -, failed⟩ | ⟨ready, isReady, runs, rfl | ⟨-, done⟩⟩
  · rw [failed]
    refine ⟨prepared, ?_⟩
    rw [objects, same]
  · exact quiet.execute_of_ready isReady
  · rw [done] at prepared same
    obtain ⟨still, kept⟩ := prepared.execute_of_ready isReady
    rw [runs]
    exact ⟨still, same ▸ kept⟩

namespace AtRest

variable {program : Program} {s : Session}

theorem execute (rest : s.AtRest program) : (execute s).2.AtRest program := by
  have prepared := rest.prepare
  rcases execute_cases s with ⟨e, -, -, failed⟩ | ⟨ready, isReady, runs, rfl | ⟨-, done⟩⟩
  · rw [failed]
    exact prepared
  · exact rest.execute_of_ready isReady
  · rw [done] at prepared
    rw [runs]
    exact prepared.execute_of_ready isReady

/-- What is left of a session when an object has been renamed. -/
theorem renamed (rest : s.AtRest program) {objectType : ObjectType} {old new : Text} {objects : Store}
    {arena : Arena} (size : arena.slots.size = s.arena.slots.size)
    (nodes : ∀ h, arena.node? h = (s.arena.node? h).map fun node =>
      { node with command := node.command.afterRename objectType old new }) :
    ((s.withObjects objects).withArena arena).AtRest
      (program.map (·.afterRename objectType old new) fun c => c.kind_afterRename) := by
  have quiet : ((s.withObjects objects).withArena arena).Quiet _ := rest.quiet.renamed size nodes
  exact ⟨quiet.draws, quiet.bare, quiet.active, rest.named, rest.unstarted⟩

theorem exists_rename (rest : s.AtRest program) (objectType : ObjectType) (old new : Text) :
    ∃ program, (rename s objectType old new).2.AtRest program := by
  rcases rename_cases rest.draws with ⟨refused, -⟩ | ⟨count, objects, found, arena, done, -, size, nodes⟩
  · rw [refused]
    exact ⟨program, rest⟩
  · rw [done]
    exact ⟨_, rest.renamed size nodes⟩

/-- The commands of a session at rest are its head and those of its program. -/
theorem script_eq (rest : s.AtRest program) : s.script = .ofKind .noOp :: program.commands := by
  obtain ⟨handles, listed, each⟩ := rest.draws.commands
  have behind : handles.filterMap s.mission.arena.command? = program.commands := by
    have found := congrArg (List.filterMap id) each
    rw [List.filterMap_map, List.filterMap_map] at found
    exact found.trans List.filterMap_some
  rw [script, commands, arena, listed, List.filterMap_cons, rest.front, behind]

end AtRest

/-! ## Reaching a session -/

/-- The sessions that making ready, executing and renaming lead to, whether or not they succeed. -/
inductive Reached (start : Session) : Session → Prop
  | start : Reached start start
  | prepare {s : Session} : Reached start s → Reached start (Session.prepare s).2
  | execute {s : Session} : Reached start s → Reached start (Session.execute s).2
  | rename {s : Session} (objectType : ObjectType) (old new : Text) :
      Reached start s → Reached start (Session.rename s objectType old new).2

/-- An accepted mission is quiet before it runs, with any objects and solvers. -/
theorem exists_quiet {keywords : Keywords} {source : Nat} {text : Text} {m : Mission}
    (accepted : Mission.ofSource keywords source text = .ok m) (objects : Store)
    (options : RunOptions) (solvers : Table DryRun) :
    ∃ program, Quiet program { mission := { m with objects }, options, solvers } := by
  unfold Mission.ofSource at accepted
  cases parsed : parseScript keywords text with
  | error errors =>
      rw [parsed] at accepted
      cases accepted
  | ok statements =>
      rw [parsed] at accepted
      obtain ⟨-, -, ⟨program, commands⟩, each⟩ := Mission.draws_of_accepted accepted
      have draws := each program commands
      refine ⟨program, ⟨draws.head, draws.fresh, draws.grown⟩, ?_, rfl⟩
      rw [commands]
      exact fun c member => Command.withState_of_missionCommands member

/-- An accepted mission is at rest before it runs, with any objects. -/
theorem exists_atRest {keywords : Keywords} {source : Nat} {text : Text} {m : Mission}
    (accepted : Mission.ofSource keywords source text = .ok m) (objects : Store)
    (options : RunOptions) :
    ∃ program, AtRest program { mission := { m with objects }, options } := by
  obtain ⟨program, quiet⟩ := exists_quiet accepted objects options .empty
  have none (name : Text) (solver : DryRun)
      (held : (Table.empty : Table DryRun).get? name = some solver) : False := by
    cases held
  exact ⟨program, quiet.draws, quiet.bare, quiet.active,
    fun name solver held => (none name solver held).elim,
    fun _ name solver held => (none name solver held).elim⟩

/-- A session that starts quiet is quiet whenever nothing runs. -/
theorem Reached.quiet {start s : Session} (reached : Reached start s)
    (quiet : ∃ program, start.Quiet program) : ∃ program, s.Quiet program := by
  induction reached with
  | start => exact quiet
  | prepare _ ih =>
      obtain ⟨program, quiet⟩ := ih
      exact ⟨program, quiet.prepare⟩
  | execute _ ih =>
      obtain ⟨program, quiet⟩ := ih
      exact ⟨program, quiet.execute.1⟩
  | rename objectType old new _ ih =>
      obtain ⟨program, quiet⟩ := ih
      exact quiet.exists_rename objectType old new

/-- A session that starts at rest is at rest whenever nothing runs. -/
theorem Reached.atRest {start s : Session} (reached : Reached start s)
    (rest : ∃ program, start.AtRest program) : ∃ program, s.AtRest program := by
  induction reached with
  | start => exact rest
  | prepare _ ih =>
      obtain ⟨program, rest⟩ := ih
      exact ⟨program, rest.prepare⟩
  | execute _ ih =>
      obtain ⟨program, rest⟩ := ih
      exact ⟨program, rest.execute⟩
  | rename objectType old new _ ih =>
      obtain ⟨program, rest⟩ := ih
      exact rest.exists_rename objectType old new

/-- A session that starts with an accepted mission is at rest whenever nothing runs. -/
theorem Reached.exists_atRest {keywords : Keywords} {source : Nat} {text : Text} {m : Mission}
    {options : RunOptions} {s : Session} (reached : Reached { mission := m, options } s)
    (accepted : Mission.ofSource keywords source text = .ok m) : ∃ program, s.AtRest program :=
  reached.atRest (Session.exists_atRest accepted m.objects options)

/-! ## What a run leaves -/

/-- No command of a quiet session has a number from a solver. -/
theorem Quiet.unregistered {program : Program} {s : Session} (quiet : s.Quiet program) {h : Handle}
    {c : Command} (held : s.arena.command? h = some c) :
    ∀ state ∈ c.body.resultState?, state = .unregistered := by
  obtain ⟨node, found, rfl⟩ := Option.map_eq_some_iff.mp held
  exact Command.withState_eq_self_iff.mp (quiet.draws.bare_of_node? quiet.bare found)

/-- A run leaves no trace in the sequence. Wherever it ends, be it with an error in the body of a loop
in the body of another, no solver is still running, every command is what it was and linked as it
was, and no result still has a number from its solver. -/
theorem execute_restores {keywords : Keywords} {source : Nat} {text : Text} {m : Mission}
    (accepted : Mission.ofSource keywords source text = .ok m) {options : RunOptions}
    {objects : Store} {solvers : Table DryRun} {s : Session}
    (reached : Reached { mission := { m with objects }, options, solvers } s) :
    (execute s).2.active = [] ∧ (execute s).2.arena = s.arena ∧
      ∀ h c, (execute s).2.arena.command? h = some c →
        ∀ state ∈ c.body.resultState?, state = .unregistered := by
  obtain ⟨program, quiet⟩ := reached.quiet (exists_quiet accepted objects options solvers)
  obtain ⟨still, same⟩ := quiet.execute
  have arena : (execute s).2.arena = s.arena := by rw [arena, same, arena]
  exact ⟨still.active, arena, fun _ _ held => still.unregistered held⟩

/-- The body of a loop in a loop that fails again, after the objective of the outer loop has got its
number. -/
theorem execute_restores_nested :
    ∃ m s,
      Mission.ofSource .builtin 0
        "Create SQP A;\nCreate Yukon B;\nCreate Variable x;\nOptimize A\nMinimize A(x)\nOptimize B\nMinimize A(x)\nEndOptimize\nEndOptimize".toList =
          .ok m ∧
      s = (execute { mission := { m with objects := m.objects } }).2 ∧
      (execute s).1.isOk = false ∧
      (execute s).2.active = [] ∧ (execute s).2.arena = s.arena ∧
      ∀ h c, (execute s).2.arena.command? h = some c →
        ∀ state ∈ c.body.resultState?, state = .unregistered := by
  have fails : ((Mission.ofSource .builtin 0
      "Create SQP A;\nCreate Yukon B;\nCreate Variable x;\nOptimize A\nMinimize A(x)\nOptimize B\nMinimize A(x)\nEndOptimize\nEndOptimize".toList).map
        fun m => (execute (execute { mission := { m with objects := m.objects } }).2).1.isOk).toOption =
      some false := by
    decide +kernel
  cases accepted : Mission.ofSource .builtin 0
      "Create SQP A;\nCreate Yukon B;\nCreate Variable x;\nOptimize A\nMinimize A(x)\nOptimize B\nMinimize A(x)\nEndOptimize\nEndOptimize".toList with
  | error errors =>
      rw [accepted] at fails
      cases fails
  | ok m =>
      rw [accepted] at fails
      exact ⟨m, _, rfl, rfl, Option.some.inj fails, execute_restores accepted (.execute .start)⟩

end Session

end MissionScript
