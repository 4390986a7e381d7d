import MissionScript.Proofs.Renaming.Program
import MissionScript.Proofs.Run.Between
import MissionScript.Proofs.Run.Results

/-!
# Renaming between runs

An object can be renamed between two runs, and the next run does what it would have done: it succeeds
if it would have, and leaves the same objects, the renamed one under its new name. The exception are
solvers of sessions that are ready, which are looked up under the names that they had when the session
was made ready.
-/

namespace MissionScript

variable {old new : Text}

/-! ## References -/

/-- Two checks end alike if they succeed together. -/
theorem Outcome.alike_unit_iff {ε ε' : Type} {x : Except ε Unit} {y : Except ε' Unit} :
    Outcome.Alike Eq x y ↔ (y = .ok () ↔ x = .ok ()) := by
  constructor
  · rintro (⟨⟨⟩⟩ | ⟨e, e'⟩)
    · exact iff_of_true rfl rfl
    · exact iff_of_false nofun nofun
  · intro both
    cases x with
    | error e =>
        cases y with
        | error e' => exact .error e e'
        | ok => cases both.mp rfl
    | ok =>
        rw [both.mpr rfl]
        exact .ok rfl

theorem Outcome.isOk_map {ε α β : Type} {f : α → β} {x : Except ε α} : (x.map f).isOk = x.isOk := by
  cases x <;> rfl

namespace Resolution

variable {r : Resolution} {t : Store}

theorem requireAll_eq_ok_iff {names : List Text} :
    r.requireAll names = .ok () ↔ r.objects.Knows names := by
  refine ⟨knows_of_requireAll, fun knows => ?_⟩
  have none : (names.find? fun name => !r.objects.contains name) = none :=
    List.find?_eq_none.mpr fun name member => by simp [knows name member]
  rw [requireAll, none]

variable (renames : Store.Renames old new r.objects t)

include renames

/-- The same names are known after the renaming. -/
theorem requireAll_renamed {names names' : List Text} (fresh : new ∉ names)
    (same : ∀ name, name ∈ names' ↔ name ∈ names.map (Text.renamed old new)) :
    Outcome.Alike Eq (r.requireAll names) ({ r with objects := t }.requireAll names') := by
  refine Outcome.alike_unit_iff.mpr ?_
  rw [requireAll_eq_ok_iff, requireAll_eq_ok_iff]
  have away {name : Text} (member : name ∈ names) : name ≠ new := fun isNew => fresh (isNew ▸ member)
  constructor
  · intro knows name member
    have known := knows _ ((same _).mpr (List.mem_map_of_mem member))
    exact (renames.contains_eq (away member)).symm.trans known
  · intro knows name member
    obtain ⟨own, named, rfl⟩ := List.mem_map.mp ((same name).mp member)
    exact (renames.contains_eq (away named)).trans (knows own named)

theorem requireSolver_renamed {name : Text} (other : name ≠ new) :
    Outcome.Alike Eq (r.requireSolver name)
      ({ r with objects := t }.requireSolver (Text.renamed old new name)) := by
  unfold requireSolver isSolver
  dsimp only
  rw [renames.contains_eq other, renames.held name other]
  split
  · exact .error _ _
  · split
    · exact .error _ _
    · exact .ok rfl

/-- The references of a command resolve if those of the renamed one do. -/
theorem check_renamed {body after : CommandBody} (bodies : body.Renames old new after)
    (avoids : body.Avoids new) :
    Outcome.Alike Eq (r.check body) ({ r with objects := t }.check after) := by
  cases bodies with
  | structural => exact .ok rfl
  | assignment target expression =>
      refine (requireAll_renamed renames avoids.1 fun name => ?_).same fun _ =>
        requireAll_renamed renames avoids.2 fun name => Expression.mem_names_rename
      rw [Operand.names_rename]
  | call c c' => exact .ok rfl
  | condition c => exact requireAll_renamed renames avoids fun name => Condition.mem_names_rename
  | range range => exact requireAll_renamed renames avoids fun name => LoopRange.mem_names_rename
  | solverLoop l => exact requireSolver_renamed renames avoids
  | objective o name =>
      refine (requireSolver_renamed renames avoids.1).same fun _ =>
        requireAll_renamed renames avoids.2 fun name => ?_
      rw [Operand.names_rename]
  | constraint c name boundName =>
      refine (requireSolver_renamed renames avoids.1).same fun _ =>
        requireAll_renamed renames avoids.2 fun name => ?_
      simp only [Constraint.mem_names, Operand.names_rename, Expression.mem_names_rename, List.mem_map,
        or_and_right, exists_or]
  | generic arguments arguments' => exact .ok rfl

end Resolution

namespace Session

variable {program : Program} {s r : Session}

/-! ## Sessions side by side -/

/-- An execution whose loops are apart misses no result. -/
theorem AtRest.finds (rest : s.AtRest program) (apart : program.LoopsApart []) (t : Terms) :
    Outcome.Only (·.error.lacksResult = false)
      (program.run t 1 { objects := s.objects, solvers := s.solvers }).1 := by
  have orderly : World.Orderly s.mission.arena { objects := s.objects, solvers := s.solvers } :=
    World.orderly_of_unregistered rest.named fun _ => rfl
  exact (rest.draws.tame apart orderly rfl).finds

/-- The solver of a loop is new when a session is made ready. -/
theorem AtRest.solver_of_starts (rest : s.AtRest program) (unready : s.ready = false) {c : Command}
    {name : Text} (checked : Resolution.check ⟨s.objects, s.options.solverTypes⟩ c.body = .ok ())
    (starts : name ∈ c.starts?) : s.addSolvers.solvers.get? name = some { name } := by
  have solver : Resolution.isSolver ⟨s.objects, s.options.solverTypes⟩ name := by
    unfold Command.starts? at starts
    split at starts
    · rename_i l body
      cases starts
      rw [body] at checked
      exact Resolution.isSolver_of_requireSolver checked
    · cases starts
  obtain ⟨object, held, type⟩ := Resolution.isSolver_iff.mp solver
  obtain ⟨d, found⟩ := Table.contains_iff.mp (contains_addSolvers held type)
  have still : s.addSolvers.ready = false := by
    rw [addSolvers_eq]
    exact unready
  rw [found, rest.addSolvers.unstarted still name d found]

/-- Two sessions at rest, the second one with an object renamed. Nothing is said of their solvers. -/
structure Renames (old new : Text) (program : Program) (s r : Session) : Prop where
  rest : s.AtRest program
  rest' : r.AtRest (program.renamed old new)
  ready : r.ready = s.ready
  source : r.mission.source = s.mission.source
  options : r.options = s.options
  objects : Store.Renames old new s.objects r.objects

/-- What a renaming of an object leaves behind, beside what was there. -/
theorem renames_of_rename {count : Nat} (rest : s.AtRest program) (differ : old ≠ new)
    (there : s.objects.contains old) (done : s.rename .any old new = (.ok count, r)) :
    Renames old new program s r ∧ r.solvers = s.solvers := by
  rcases rename_cases rest.draws with ⟨refused, -⟩ | ⟨_, objects, found, arena, made, stored, size, nodes⟩
  · rw [refused] at done
    cases done
  · rw [made] at done
    cases done
    exact ⟨⟨rest, rest.renamed size nodes, rfl, rfl, rfl,
      Store.renames_of_rename? differ there stored⟩, rfl⟩

namespace Renames

/-- Two sessions that are ready, with the same solvers for the loops of the program, execute alike. -/
theorem execute_of_ready (related : Renames old new program s r) (ready : s.ready = true)
    (differ : old ≠ new) (avoids : ∀ c ∈ program.commands, c.body.Avoids new)
    (apart : program.LoopsApart [])
    (solvers : ∀ c ∈ program.commands, ∀ name ∈ c.starts?,
      Option.Rel (DryRun.Follows name (Text.renamed old new name)) (s.solvers.get? name)
        (r.solvers.get? (Text.renamed old new name))) :
    (execute r).1.isOk = (execute s).1.isOk ∧
      Store.Renames old new (execute s).2.objects (execute r).2.objects := by
  let used := program.commands.filterMap Command.starts?
  let t : Terms := ⟨s.mission.source, s.options.passLimit⟩
  let w : World := { objects := s.objects, solvers := s.solvers }
  let v : World := { objects := r.objects, solvers := r.solvers }
  have fresh : new ∉ used := by
    intro member
    obtain ⟨c, listed, starts⟩ := List.mem_filterMap.mp member
    exact Command.ne_of_starts (avoids c listed) starts rfl
  have worlds : World.Renames old new used w v := by
    refine ⟨related.objects, fun name member => ?_, rfl, List.nil_subset _, fun _ => rfl⟩
    obtain ⟨c, listed, starts⟩ := List.mem_filterMap.mp member
    exact solvers c listed name starts
  have performs : s.Performs t program w := related.rest.performs ready
  have performs' : r.Performs t (program.renamed old new) v := by
    have runs := related.rest'.performs (related.ready.trans ready)
    rwa [related.source, related.options] at runs
  have apart' : (program.renamed old new).LoopsApart [] :=
    apart.renamed (fun c member _ => Command.ne_of_starts (avoids c member)) (List.not_mem_nil)
  have suits (c : Command) (member : c ∈ program.commands) :
      c.body.Avoids new ∧ ∀ solver ∈ c.starts?, solver ∈ used :=
    ⟨avoids c member, fun solver starts => List.mem_filterMap.mpr ⟨c, member, starts⟩⟩
  obtain ⟨alike, after⟩ := program.mirrored differ fresh suits 1 w v worlds
    (related.rest.finds apart t) (related.rest'.finds apart' t)
  rw [performs.outcome, performs'.outcome, performs.objects, performs'.objects]
  refine ⟨?_, after.objects⟩
  exact Outcome.isOk_map.trans (alike.isOk_eq.trans Outcome.isOk_map.symm)

/-- Two sessions that are made ready. -/
theorem started (related : Renames old new program s r) :
    Renames old new program { s.addSolvers with ready := true }
      { r.addSolvers with ready := true } := by
  have left := related.rest.started
  have right := related.rest'.started
  rw [s.addSolvers_eq] at left ⊢
  rw [r.addSolvers_eq] at right ⊢
  exact ⟨left, right, rfl, related.source, related.options, related.objects⟩

/-- Both sessions can be made ready, or none can. -/
theorem resolved_iff (related : Renames old new program s r)
    (avoids : ∀ c ∈ program.commands, c.body.Avoids new) :
    (∀ c ∈ (program.renamed old new).commands,
        Resolution.check ⟨r.objects, r.options.solverTypes⟩ c.body = .ok ()) ↔
      ∀ c ∈ program.commands, Resolution.check ⟨s.objects, s.options.solverTypes⟩ c.body = .ok () := by
  have each (c : Command) (member : c ∈ program.commands) :
      Resolution.check ⟨r.objects, r.options.solverTypes⟩ (c.afterRename .any old new).body = .ok () ↔
        Resolution.check ⟨s.objects, s.options.solverTypes⟩ c.body = .ok () := by
    rw [related.options]
    exact Outcome.alike_unit_iff.mp (Resolution.check_renamed related.objects c.renames_afterRename
      (avoids c member))
  rw [Program.renamed, Program.commands_map, List.forall_mem_map]
  exact forall₂_congr each

/-- Two sessions that are not ready are made ready and execute alike. -/
theorem execute_of_unready (related : Renames old new program s r) (unready : s.ready = false)
    (differ : old ≠ new) (avoids : ∀ c ∈ program.commands, c.body.Avoids new)
    (apart : program.LoopsApart []) :
    (execute r).1.isOk = (execute s).1.isOk ∧
      Store.Renames old new (execute s).2.objects (execute r).2.objects := by
  have unready' : r.ready = false := related.ready.trans unready
  rw [Session.execute_of_unready unready, Session.execute_of_unready unready']
  have resolved := related.resolved_iff avoids
  rw [← related.rest.resolved_iff, ← related.rest'.resolved_iff] at resolved
  rcases prepare_cases s with ⟨e, failing, failed⟩ | ⟨made, done⟩
  · rcases prepare_cases r with ⟨e', -, failed'⟩ | ⟨made', -⟩
    · rw [Step.bind_error failed, Step.bind_error failed']
      exact ⟨rfl, related.started.objects⟩
    · rw [resolved.mp made'] at failing
      cases failing
  · rcases prepare_cases r with ⟨e', failing', -⟩ | ⟨-, done'⟩
    · rw [resolved.mpr made] at failing'
      cases failing'
    · rw [Step.bind_ok done, Step.bind_ok done']
      refine related.started.execute_of_ready rfl differ avoids apart fun c member name starts => ?_
      have held : s.addSolvers.solvers.get? name = some { name } :=
        related.rest.solver_of_starts unready (related.rest.resolved_iff.mp made c member) starts
      have listed : c.afterRename .any old new ∈ (program.renamed old new).commands := by
        rw [Program.renamed, Program.commands_map]
        exact List.mem_map_of_mem member
      have held' : r.addSolvers.solvers.get? (Text.renamed old new name) =
          some { name := Text.renamed old new name } := by
        refine related.rest'.solver_of_starts unready'
          (related.rest'.resolved_iff.mp (resolved.mpr made) _ listed) ?_
        rw [Command.starts?_afterRename]
        exact Option.mem_map_of_mem _ starts
      change Option.Rel _ (s.addSolvers.solvers.get? name) (r.addSolvers.solvers.get? _)
      rw [held, held']
      exact .some ⟨rfl, rfl, rfl, rfl, rfl⟩

end Renames

/-- Renaming an object to a name that occurs nowhere does not change what a script does, at whatever
point between two runs: the next execution succeeds if it would have succeeded without the renaming, and
leaves the same objects, the renamed one under its new name. No loop may start a solver inside the
solver's own loop, and once the session is ready, the object must not be the solver of a loop: its
solver keeps the old name. -/
theorem execute_renamed {keywords : Keywords} {source : Nat} {text : Text} {m : Mission}
    (accepted : Mission.ofSource keywords source text = .ok m) {options : RunOptions} {s : Session}
    (reached : Reached { mission := m, options } s) (there : s.objects.contains old)
    (differ : old ≠ new) (absent : ∀ c ∈ s.script, ∀ names, c.names .any = .ok names → new ∉ names)
    {count : Nat} {renamed : Session} (done : s.rename .any old new = (.ok count, renamed))
    (apart : loopsApart [] s.script) (free : s.ready = true → ∀ c ∈ s.script, c.starts? ≠ some old) :
    (execute renamed).1.isOk = (execute s).1.isOk ∧
      Store.rename? (execute s).2.objects old new = some ((execute renamed).2.objects, true) := by
  obtain ⟨program, rest⟩ := reached.exists_atRest accepted
  rw [rest.script_eq] at absent apart free
  have avoids (c : Command) (member : c ∈ program.commands) : c.body.Avoids new := by
    refine CommandBody.avoids_of_names? fun names named => ?_
    refine absent c (List.mem_cons_of_mem _ member) names ?_
    rw [Command.names, named]
  have apart : program.LoopsApart [] := by
    have listed := Program.loopsApart_of_plain apart rfl rfl
    rw [← List.append_nil program.commands] at listed
    exact (Program.LoopsApart.of_commands listed).1
  obtain ⟨related, solvers⟩ := renames_of_rename rest differ there done
  have both : (execute renamed).1.isOk = (execute s).1.isOk ∧
      Store.Renames old new (execute s).2.objects (execute renamed).2.objects := by
    cases ready : s.ready with
    | false => exact related.execute_of_unready ready differ avoids apart
    | true =>
        refine related.execute_of_ready ready differ avoids apart fun c member name starts => ?_
        have other : name ≠ old := fun same =>
          free ready c (List.mem_cons_of_mem _ member) (same ▸ starts)
        rw [solvers, Text.renamed_of_ne other]
        cases held : s.solvers.get? name with
        | none => exact .none
        | some d => exact .some (.refl (rest.named name d held))
  exact ⟨both.1, Store.rename?_of_renames differ both.2⟩

/-- A variable in a session that has been executed. -/
theorem execute_renamed_variable :
    ∃ m s count renamed,
      Mission.ofSource .builtin 0
        "Create SQP O;\nCreate Variable x;\nOptimize O\nMinimize O(x)\nEndOptimize".toList = .ok m ∧
      s = (execute (prepare { mission := m }).2).2 ∧
      s.rename .any "x".toList "y".toList = (.ok count, renamed) ∧
      (execute s).1.isOk = true ∧
      (execute renamed).1.isOk = (execute s).1.isOk ∧
      Store.rename? (execute s).2.objects "x".toList "y".toList =
        some ((execute renamed).2.objects, true) := by
  have suits : ((Mission.ofSource .builtin 0
      "Create SQP O;\nCreate Variable x;\nOptimize O\nMinimize O(x)\nEndOptimize".toList).map fun m =>
        let s := (execute (prepare { mission := m }).2).2
        decide (s.objects.contains "x".toList ∧ (s.rename .any "x".toList "y".toList).1.isOk ∧
          (∀ c ∈ s.script, ∀ names ∈ (c.names .any).toOption, "y".toList ∉ names) ∧
          loopsApart [] s.script ∧ (∀ c ∈ s.script, c.starts? ≠ some "x".toList) ∧
          (execute s).1.isOk)).toOption = some true := by
    decide +kernel
  cases accepted : Mission.ofSource .builtin 0
      "Create SQP O;\nCreate Variable x;\nOptimize O\nMinimize O(x)\nEndOptimize".toList with
  | error errors =>
      rw [accepted] at suits
      cases suits
  | ok m =>
      rw [accepted] at suits
      obtain ⟨there, renames, absent, apart, free, succeeds⟩ := of_decide_eq_true (Option.some.inj suits)
      obtain ⟨count, counted⟩ := Outcome.exists_of_isOk renames
      refine ⟨m, _, count, _, rfl, rfl, Prod.ext counted rfl, succeeds, ?_⟩
      refine execute_renamed accepted (.execute (.prepare .start)) there (by decide)
        (fun c member names named => ?_) (Prod.ext counted rfl) apart fun _ => free
      exact absent c member names (by rw [named]; rfl)

/-- The solver of a loop in a session that is ready. -/
theorem execute_renamed_solver :
    ((Mission.ofSource .builtin 0
      "Create DifferentialCorrector DC1;\nTarget DC1\nStop;\nEndTarget;".toList).map fun m =>
        let ready := (prepare { mission := m }).2
        let (outcome, renamed) := ready.rename .any "DC1".toList "DC2".toList
        ((execute ready).1.isOk, outcome.isOk, (execute renamed).1.isOk)).toOption =
      some (true, true, false) := by
  decide +kernel

end Session

end MissionScript
