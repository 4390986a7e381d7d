import MissionScript.Proofs.Run.Repeat
import MissionScript.Proofs.Run.Safety

/-!
# What a preparation ensures

When a session has been made ready, all references of its commands have been resolved and every solver
object has its solver. No execution loses any of them, and so no execution fails for want of one.
-/

namespace MissionScript

/-! ## Commands as they are read -/

/-- The operand that a command writes to. -/
def CommandBody.written? : CommandBody → Option Operand
  | assignment target _ => some target
  | range r => some r.index
  | _ => none

theorem CommandBody.writes_iff {body : CommandBody} :
    body.Writes ↔ ∀ o ∈ body.written?, o.isNumber = false := by
  cases body <;> simp [Writes, written?]

theorem LoopRange.index_of_parse {text : Text} {r : LoopRange} (parsed : LoopRange.parse text = .ok r) :
    (∃ index, Operand.parse index = .ok r.index) ∧ r.index.isNumber = false := by
  unfold LoopRange.parse at parsed
  dsimp only at parsed
  split at parsed
  · cases parsed
  · obtain ⟨index, read, rest⟩ := Outcome.bind_eq_ok_iff.mp parsed
    split at rest
    · cases rest
    rename_i noNumber
    have inner : (∃ text, Operand.parse text = .ok index) ∧ index.isNumber = false :=
      ⟨⟨_, Outcome.mapError_eq_ok_iff.mp read⟩, by simpa using noNumber⟩
    split at rest
    · obtain ⟨start, _, rest⟩ := Outcome.bind_eq_ok_iff.mp rest
      obtain ⟨stop, _, rest⟩ := Outcome.bind_eq_ok_iff.mp rest
      cases rest
      exact inner
    · obtain ⟨start, _, rest⟩ := Outcome.bind_eq_ok_iff.mp rest
      obtain ⟨step, _, rest⟩ := Outcome.bind_eq_ok_iff.mp rest
      obtain ⟨stop, _, rest⟩ := Outcome.bind_eq_ok_iff.mp rest
      cases rest
      exact inner
    · cases rest

theorem CommandBody.written?_of_parse {kind : CommandKind} {arguments : Text} {body : CommandBody}
    (parsed : CommandBody.parse kind arguments = .ok body) :
    ∀ o ∈ body.written?, (∃ text, Operand.parse text = .ok o) ∧ o.isNumber = false := by
  unfold CommandBody.parse at parsed
  split at parsed
  · obtain ⟨_, _, rfl⟩ := Outcome.map_eq_ok_iff.mp parsed
    exact nofun
  · obtain ⟨_, _, rfl⟩ := Outcome.map_eq_ok_iff.mp parsed
    exact nofun
  · obtain ⟨r, read, rfl⟩ := Outcome.map_eq_ok_iff.mp parsed
    rintro _ ⟨⟩
    exact LoopRange.index_of_parse read
  · obtain ⟨_, _, rfl⟩ := Outcome.map_eq_ok_iff.mp parsed
    exact nofun
  · obtain ⟨_, _, rfl⟩ := Outcome.map_eq_ok_iff.mp parsed
    exact nofun
  · obtain ⟨_, _, rfl⟩ := Outcome.map_eq_ok_iff.mp parsed
    exact nofun
  · obtain ⟨_, _, rfl⟩ := Outcome.map_eq_ok_iff.mp parsed
    exact nofun
  · cases parsed
    exact nofun
  · split at parsed
    · cases parsed
      exact nofun
    · cases parsed

/-- What a command that has been read writes to has been read too, and is no number. -/
theorem Command.written?_of_ofStatement {s : Statement} {c : Command}
    (built : Command.ofStatement s = .ok c) :
    ∀ o ∈ c.body.written?, (∃ text, Operand.parse text = .ok o) ∧ o.isNumber = false := by
  unfold ofStatement at built
  dsimp only at built
  split at built
  · split at built
    · rename_i body read
      cases built
      obtain ⟨target, readTarget, rest⟩ := Outcome.bind_eq_ok_iff.mp read
      split at rest
      · cases rest
      · rename_i noNumber
        obtain ⟨expression, _, rest⟩ := Outcome.bind_eq_ok_iff.mp rest
        cases rest
        rintro _ ⟨⟩
        exact ⟨⟨_, Outcome.mapError_eq_ok_iff.mp readTarget⟩, Bool.eq_false_iff.mpr noNumber⟩
    · cases built
  · split at built
    · rename_i body read
      cases built
      obtain ⟨call, _, rfl⟩ := Outcome.map_eq_ok_iff.mp read
      exact nofun
    · cases built
  · obtain ⟨body, read, rest⟩ := Outcome.bind_eq_ok_iff.mp built
    cases rest
    exact CommandBody.written?_of_parse (Outcome.mapError_eq_ok_iff.mp read)
  · cases built

/-- A command that has been read does not write to a number. -/
theorem Command.writes_of_ofStatement {s : Statement} {c : Command}
    (built : Command.ofStatement s = .ok c) : c.body.Writes :=
  CommandBody.writes_iff.mpr fun o written => (written?_of_ofStatement built o written).2

/-! ## References -/

namespace Resolution

variable {r : Resolution}

theorem knows_of_requireAll {names : List Text} (required : r.requireAll names = .ok ()) :
    r.objects.Knows names := by
  unfold requireAll at required
  split at required
  · cases required
  · rename_i none
    intro name member
    simpa using List.find?_eq_none.mp none name member

theorem isSolver_of_requireSolver {name : Text} (required : r.requireSolver name = .ok ()) :
    r.isSolver name := by
  unfold requireSolver at required
  split at required
  · cases required
  · split at required
    · cases required
    · rename_i solver
      simpa using solver

theorem isSolver_iff {name : Text} : r.isSolver name ↔
    ∃ object, r.objects.get? name = some object ∧ r.solverTypes.contains object.typeName := by
  unfold isSolver
  cases r.objects.get? name with
  | none => simp
  | some object => simp

/-- Where all references resolve and every solver object has a solver, a command finds what it needs. -/
theorem offers_of_check {w : World} {body : CommandBody} (checked : r.check body = .ok ())
    (objects : w.objects = r.objects)
    (solvers : ∀ name, r.isSolver name → w.solvers.contains name) : w.Offers body := by
  cases body with
  | assignment target expression =>
      obtain ⟨⟨⟩, ofTarget, ofExpression⟩ := Outcome.bind_eq_ok_iff.mp checked
      rw [World.Offers, objects]
      exact ⟨knows_of_requireAll ofTarget, knows_of_requireAll ofExpression⟩
  | condition c =>
      rw [World.Offers, objects]
      exact knows_of_requireAll checked
  | range range =>
      rw [World.Offers, objects]
      exact knows_of_requireAll checked
  | solverLoop l =>
      have solver := isSolver_of_requireSolver checked
      obtain ⟨object, held, _⟩ := isSolver_iff.mp solver
      refine ⟨?_, solvers _ solver⟩
      rw [objects]
      exact Table.contains_iff.mpr ⟨object, held⟩
  | objective o =>
      obtain ⟨⟨⟩, _, operand⟩ := Outcome.bind_eq_ok_iff.mp checked
      rw [World.Offers, objects]
      exact knows_of_requireAll operand
  | constraint c =>
      obtain ⟨⟨⟩, _, names⟩ := Outcome.bind_eq_ok_iff.mp checked
      rw [World.Offers, objects]
      exact knows_of_requireAll names
  | structural => trivial
  | call c => trivial
  | generic arguments => trivial

end Resolution

namespace Session

variable {s ready : Session}

/-- A session that is given its solvers has those it had, and a new one for every other solver object. -/
theorem get?_addSolvers (s : Session) (name : Text) :
    s.addSolvers.solvers.get? name = (s.solvers.get? name).or
      (if (⟨s.objects, s.options.solverTypes⟩ : Resolution).isSolver name then some { name }
        else none) := by
  have stored : (⟨s.objects, s.options.solverTypes⟩ : Resolution).isSolver name =
      s.objects.entries.any fun entry =>
        name == entry.1 && s.options.solverTypes.contains entry.2.typeName := by
    rw [Bool.eq_iff_iff, Resolution.isSolver_iff, List.any_eq_true]
    constructor
    · rintro ⟨object, held, type⟩
      exact ⟨_, Table.mem_entries_of_get? held, by simpa using type⟩
    · rintro ⟨⟨other, object⟩, member, suits⟩
      obtain ⟨here, type⟩ := Bool.and_eq_true_iff.mp suits
      obtain rfl := eq_of_beq here
      exact ⟨object, Table.get?_of_mem_entries member, type⟩
  rw [stored]
  clear stored
  unfold addSolvers
  generalize s.objects.entries = entries
  induction entries generalizing s with
  | nil => simp
  | cons entry rest ih =>
      obtain ⟨other, object⟩ := entry
      rw [List.foldl_cons, List.any_cons]
      dsimp only
      by_cases here : name = other
      · subst here
        cases held : s.solvers.get? name with
        | some solver =>
            have kept : (s.options.solverTypes.contains object.typeName &&
                !s.solvers.contains name) = false := by simp [Table.contains, held]
            rw [kept, if_neg Bool.false_ne_true, ih, held]
            rfl
        | none =>
            have missing : s.solvers.contains name = false := by simp [Table.contains, held]
            rw [missing, beq_self_eq_true, Bool.true_and, Bool.not_false, Bool.and_true]
            cases type : s.options.solverTypes.contains object.typeName with
            | true =>
                rw [if_pos rfl, ih, addSolver, Table.get?_insert, if_pos rfl]
                rfl
            | false => rw [if_neg Bool.false_ne_true, ih, held, Bool.false_or]
      · rw [beq_eq_false_iff_ne.mpr here, Bool.false_and, Bool.false_or]
        split
        · rw [ih, addSolver, Table.get?_insert, if_neg here]
        · exact ih s

/-- Every object of a solver type has a solver. -/
theorem contains_addSolvers {name : Text} {object : Object} (held : s.objects.get? name = some object)
    (solver : s.options.solverTypes.contains object.typeName) :
    s.addSolvers.solvers.contains name := by
  have isSolver : (⟨s.objects, s.options.solverTypes⟩ : Resolution).isSolver name :=
    Resolution.isSolver_iff.mpr ⟨object, held, solver⟩
  rw [Table.contains, get?_addSolvers, if_pos isSolver, Option.isSome_or, Option.isSome_some,
    Bool.or_true]

/-- What holds of new solvers and of those that are there holds of all solvers. -/
theorem forall_addSolvers {holds : Text → DryRun → Prop} (fresh : ∀ name, holds name { name })
    (before : ∀ name solver, s.solvers.get? name = some solver → holds name solver) :
    ∀ name solver, s.addSolvers.solvers.get? name = some solver → holds name solver := by
  intro name solver held
  rw [get?_addSolvers, Option.or_eq_some_iff] at held
  rcases held with old | ⟨-, added⟩
  · exact before name solver old
  · obtain ⟨-, same⟩ := Option.ite_none_right_eq_some.mp added
    exact Option.some.inj same ▸ fresh name

/-- All references are resolved if every handle leads to a command whose references are. -/
theorem unresolved?_eq_none_iff {r : Resolution} {handles : List Handle} :
    s.unresolved? r handles = none ↔
      ∀ h ∈ handles, ∃ c, s.arena.command? h = some c ∧ r.check c.body = .ok () := by
  induction handles with
  | nil => exact iff_of_true rfl (List.forall_mem_nil _)
  | cons h rest ih =>
      rw [List.forall_mem_cons, ← ih, unresolved?]
      cases found : s.arena.command? h with
      | none => simp
      | some c =>
          unfold Command.resolve
          cases checked : r.check c.body with
          | error cause => simp [Except.mapError, checked]
          | ok => simp [Except.mapError, checked]

/-- A session that has been made ready offers its commands what they need. -/
theorem serves_of_prepare (prepared : prepare s = (.ok (), ready)) {program : Program}
    {m : Mission} (draws : m.Draws program) (mission : s.mission = { m with objects := s.objects }) :
    World.Serves program.commands { objects := s.objects, solvers := ready.solvers } := by
  rcases prepare_cases s with ⟨e, -, failed⟩ | ⟨resolved, done⟩
  · rw [failed] at prepared
    cases prepared
  rw [done] at prepared
  cases prepared
  have arena : s.addSolvers.arena = m.arena := by rw [addSolvers_eq, arena, mission]
  have commands : s.commands = m.arena.commandsFrom m.head := by
    rw [commands, Session.arena, mission]
  intro c member
  obtain ⟨handles, listed, each⟩ := draws.commands
  obtain ⟨h, inside, held⟩ := List.mem_map.mp (each ▸ List.mem_map_of_mem member)
  obtain ⟨c', held', checked⟩ := unresolved?_eq_none_iff.mp resolved h
    (by rw [commands, listed]; exact List.mem_cons_of_mem _ inside)
  obtain rfl : c' = c := Option.some.inj (held'.symm.trans (by rw [arena, held]))
  refine Resolution.offers_of_check checked rfl fun name solver => ?_
  obtain ⟨object, held, type⟩ := Resolution.isSolver_iff.mp solver
  exact contains_addSolvers held type

/-- Once a session has been made ready, no execution of it, however often it has been executed, finds a
reference that does not resolve, a block without an end or a handle to nothing. What can go wrong are
objects of the wrong types, missing parameters, bad indices, divisions by zero, steps of zero, reports
in the wrong places and loops without an end. -/
theorem execute_dynamic {keywords : Keywords} {source : Nat} {text : Text} {m : Mission}
    (accepted : Mission.ofSource keywords source text = .ok m) {options : RunOptions}
    {objects : Store} {solvers : Table DryRun}
    (prepared : prepare { mission := { m with objects }, options, solvers } = (.ok (), ready))
    (executed : Executed ready s) : Outcome.Only (·.error.isDynamic) (execute s).1 := by
  unfold Mission.ofSource at accepted
  cases parsed : parseScript keywords text with
  | error errors =>
      rw [parsed] at accepted
      cases accepted
  | ok statements =>
      rw [parsed] at accepted
      obtain ⟨_, rfl, ⟨program, commands⟩, each⟩ := Mission.draws_of_accepted accepted
      have draws := each program commands
      have serves := serves_of_prepare prepared draws rfl
      obtain ⟨held, rfl⟩ : ∃ held, ready =
          { mission := { m with objects }, options, solvers := held, ready := true } :=
        ⟨_, ready_of_prepare prepared⟩
      have writes : ∀ c ∈ program.commands, c.body.Writes := by
        intro c member
        rw [commands] at member
        obtain ⟨s, _, described⟩ := List.mem_filterMap.mp member
        have built := (Command.renders_of_command? described).built
        exact Command.writes_of_ofStatement (c := { c with span := none }) built
      let t : Terms := ⟨m.source, options.passLimit⟩
      have safe : Direct.Safe program.commands (program.run t 1) :=
        program.safe writes 1 (List.Subset.refl _)
      let begun : Session :=
        { mission := { m with objects }, options, solvers := held, ready := true }
      have shows := draws.shows (s := begun) commands rfl rfl rfl rfl
      obtain ⟨w, now, performs⟩ := executed.exists_world draws rfl rfl shows serves
        fun w now => (safe w now).1
      rw [performs.outcome, Program.perform]
      exact .map (safe w now).2

/-- A source that is accepted and whose session can be made ready. -/
theorem exists_ready {keywords : Keywords} {source : Nat} {text : Text} {options : RunOptions}
    (succeeds : ((Mission.ofSource keywords source text).map fun m =>
      (prepare { mission := { m with objects := m.objects }, options }).1.isOk).toOption =
        some true) :
    ∃ m ready, Mission.ofSource keywords source text = .ok m ∧
      prepare { mission := { m with objects := m.objects }, options } = (.ok (), ready) := by
  cases accepted : Mission.ofSource keywords source text with
  | error errors =>
      rw [accepted] at succeeds
      cases succeeds
  | ok m =>
      rw [accepted] at succeeds
      cases prepared : prepare { mission := { m with objects := m.objects }, options } with
      | mk outcome ready =>
          cases outcome with
          | error e =>
              simp only [Except.map, prepared] at succeeds
              cases succeeds
          | ok => exact ⟨m, ready, rfl, prepared⟩

/-- The second execution of a loop in a loop. -/
theorem execute_dynamic_twice :
    ∃ m ready,
      Mission.ofSource .builtin 0
        "Create Yukon A;\nCreate SQP B;\nOptimize A\nTarget B\nStop;\nEndTarget;\nEndOptimize;".toList =
          .ok m ∧
      prepare { mission := { m with objects := m.objects } } = (.ok (), ready) ∧
      Outcome.Only (·.error.isDynamic) (execute (execute ready).2).1 := by
  obtain ⟨m, ready, accepted, prepared⟩ := exists_ready (by
    decide +kernel : ((Mission.ofSource .builtin 0
      "Create Yukon A;\nCreate SQP B;\nOptimize A\nTarget B\nStop;\nEndTarget;\nEndOptimize;".toList).map
        fun m => (prepare { mission := { m with objects := m.objects } }).1.isOk).toOption = some true)
  exact ⟨m, ready, accepted, prepared, execute_dynamic accepted prepared (.again .none)⟩

end Session

end MissionScript
