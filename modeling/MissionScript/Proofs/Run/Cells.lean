import MissionScript.Proofs.Mission.Recovery
import MissionScript.Proofs.Objects.Cells
import MissionScript.Proofs.Renaming.Operand
import MissionScript.Proofs.Run.Between

/-!
# Array elements while a script is read and run

Every store that a script leads to, while its statements are drafted and while any part of its mission runs, has all
cells of its arrays. There are two sources of changes: a definition adds an object that has its cells, and all other
changes are writes to an operand that has been read, which cannot name a cell as a parameter.
-/

namespace MissionScript

/-! ## What commands write to -/

/-- The field of a parameter that has been read is a name with dots. -/
theorem Operand.sparesCells_of_parse {text : Text} {o : Operand} (read : parse text = .ok o) : o.SparesCells := by
  cases reads_of_parse read with
  | number first digit read => trivial
  | element first letter last found ends array single read => trivial
  | cell first letter last found ends array cut readRow readColumn => trivial
  | name first letter last read =>
      unfold ofName at read
      split at read
      · rename_i owner field cut
        split at read
        · rename_i names
          cases read
          rw [Bool.and_eq_true] at names
          intro member
          exact absurd (Text.dotted_of_isDottedName names.2 '(' member) (by decide)
        · cases read
      · split at read
        · cases read
          trivial
        · cases read

namespace CommandBody

/-- A command with this body names no cell as a parameter when it writes. -/
def SparesCells (body : CommandBody) : Prop := ∀ o ∈ body.written?, o.SparesCells

@[simp] theorem written?_forgetResult (body : CommandBody) : body.forgetResult.written? = body.written? := by
  cases body <;> rfl

/-- A result command writes to nothing, before a report as after it. -/
theorem written?_of_report {body after : CommandBody} {store : Store} {solver next : DryRun}
    (reports : body.report store solver = .ok (after, next)) : after.written? = body.written? := by
  cases body with
  | objective o =>
      obtain ⟨_, -, same⟩ := Outcome.map_eq_ok_iff.mp reports
      cases same
      rfl
  | constraint c =>
      obtain ⟨_, -, same⟩ := Outcome.map_eq_ok_iff.mp reports
      cases same
      rfl
  | _ =>
      cases reports
      rfl

end CommandBody

theorem Command.written?_of_report {c after : Command} {store : Store} {solver next : DryRun}
    (reports : c.report store solver = .ok (after, next)) : after.body.written? = c.body.written? := by
  unfold report at reports
  split at reports
  · rename_i body _ reported
    cases reports
    exact CommandBody.written?_of_report reported
  · cases reports

theorem Command.sparesCells_of_ofStatement {s : Statement} {c : Command} (built : ofStatement s = .ok c) :
    c.body.SparesCells := fun o written =>
  have ⟨_, read⟩ := (written?_of_ofStatement built o written).1
  Operand.sparesCells_of_parse read

/-! ## Definitions and writes -/

/-- The store has all cells of its arrays, and the objects of another one with their types and sizes. -/
structure Store.Retains (first store : Store) : Prop where
  cellular : store.Cellular
  shapes : first.KeepsShapes store

namespace Store.Retains

variable {first store next : Store}

theorem assign (retains : first.Retains store) {o : Operand} {new : Float} (spares : o.SparesCells)
    (written : o.assign store new = .ok next) : first.Retains next := by
  obtain ⟨cellular, shapes⟩ := Operand.cellular_of_assign retains.cellular spares written
  exact ⟨cellular, retains.shapes.trans shapes⟩

theorem assignTo (retains : first.Retains store) {target : Operand} {e : Expression} {new : Float}
    (spares : target.SparesCells) (written : e.assignTo store target = .ok (new, next)) :
    first.Retains next := by
  obtain ⟨value, _, rest⟩ := Outcome.bind_eq_ok_iff.mp written
  obtain ⟨store', assigned, same⟩ := Outcome.bind_eq_ok_iff.mp rest
  cases same
  exact retains.assign spares assigned

/-- A new object has its cells if it is an array. -/
theorem cellular_of_parseDefinition {objectType token name : Text} {object : Object}
    (read : parseDefinition objectType token = .ok (name, object)) : object.Cellular := by
  unfold parseDefinition at read
  split at read
  · unfold parseArray at read
    split at read
    · cases read
    · split at read
      · cases read
      · split at read
        · cases read
        · split at read
          · obtain ⟨columns, _, same⟩ := Outcome.bind_eq_ok_iff.mp read
            cases same
            exact .array 1 columns
          · obtain ⟨rows, _, rest⟩ := Outcome.bind_eq_ok_iff.mp read
            obtain ⟨columns, _, same⟩ := Outcome.bind_eq_ok_iff.mp rest
            cases same
            exact .array rows columns
          · cases read
  · rename_i other
    split at read
    · cases read
      exact .ofType other
    · cases read

theorem define (retains : first.Retains store) {instruction objectType token : Text}
    (made : store.define instruction objectType token = .ok next) : first.Retains next := by
  unfold Store.define at made
  split at made
  · cases made
  · rename_i name object read
    split at made
    · cases made
    · rename_i added
      cases made
      obtain ⟨free, same⟩ := Option.ite_none_left_eq_some.mp added
      cases same
      refine ⟨retains.cellular.insert (cellular_of_parseDefinition read), fun other old held => ?_⟩
      obtain ⟨later, there, same⟩ := retains.shapes other old held
      refine ⟨later, ?_, same⟩
      rw [Table.get?_insert, if_neg, there]
      rintro rfl
      exact free (Table.contains_iff.mpr ⟨later, there⟩)

theorem configure (retains : first.Retains store) {target written : Text}
    (configured : store.configure target written = .ok next) : first.Retains next := by
  obtain ⟨o, read, rest⟩ := Outcome.bind_eq_ok_iff.mp configured
  have spares := Operand.sparesCells_of_parse (Outcome.mapError_eq_ok_iff.mp read)
  dsimp only at rest
  split at rest
  · cases rest
  · split at rest
    · exact retains.assign spares (Outcome.mapError_eq_ok_iff.mp rest)
    · rename_i owner field _ _
      cases rest
      cases held : store.get? owner with
      | none =>
          rw [modify?, held]
          exact retains
      | some object =>
          rw [modify?, held]
          exact ⟨retains.cellular.insert ((retains.cellular owner object held).setSetting _ _),
            retains.shapes.trans (keepsShapes_insert held rfl rfl)⟩
    · cases rest

end Store.Retains

/-! ## Drafting -/

namespace Draft

open Step

variable {first : Store}

/-- Drafting does not lose the cells of an array. -/
abbrev KeepsCells (first : Store) {α : Type} (step : Drafting α) : Prop :=
  Keeps (fun d => first.Retains d.objects) step

theorem keepsCells_edit {α : Type} (e : Edit α) : KeepsCells first (edit e) := fun _ now => now

theorem keepsCells_defineTokens (instruction objectType : Text) (tokens : List Text) :
    KeepsCells first (defineTokens instruction objectType tokens) := by
  induction tokens with
  | nil => exact keeps_pure _
  | cons token rest ih =>
      refine Keeps.bind (.look fun d now => ?_) fun _ => ih
      cases made : d.objects.define instruction objectType token with
      | error e => exact now
      | ok objects => exact Store.Retains.define now made

theorem keepsCells_define (instruction objectType names : Text) :
    KeepsCells first (define instruction objectType names) := by
  unfold define
  cases decompose .square true false names with
  | error e => exact keeps_throw _
  | ok tokens => exact keepsCells_defineTokens instruction objectType tokens

theorem keepsCells_configure (instruction target written : Text) :
    KeepsCells first (configure instruction target written) := by
  refine .look fun d now => ?_
  cases configured : d.objects.configure target written with
  | error e => exact now
  | ok objects => exact Store.Retains.configure now configured

theorem keepsCells_begin (c : Command) : KeepsCells first (begin c) := by
  unfold begin
  have started : KeepsCells first (modify fun d => { d with inMission := true }) := .change fun _ now => now
  split
  · refine .look fun d now => ?_
    split
    · exact now
    · exact now
  · exact started

theorem keepsCells_checkEnd (c : Command) : KeepsCells first (checkEnd c) := by
  unfold checkEnd
  split
  · refine .look fun d now => ?_
    cases !d.frames.head?.any (·.admits c.kind) with
    | true => exact now
    | false => exact now
  · exact keeps_pure _

theorem keepsCells_link (c : Command) : KeepsCells first (link c) := by
  refine Keeps.bind (keepsCells_edit _) fun h => .look fun d now => ?_
  cases d.frames.findSome? Frame.place? with
  | some place => exact Keeps.bind (keepsCells_edit _) (fun _ => keeps_pure _) d now
  | none => exact Keeps.look (fun d => Keeps.bind (keepsCells_edit _) (fun _ => keeps_pure _) d) d now

theorem keepsCells_addCommand (s : Statement) : KeepsCells first (addCommand s) := by
  unfold addCommand
  split
  · exact Keeps.bind (.change fun _ now => now) fun _ => keeps_throw _
  · refine Keeps.bind (keepsCells_begin _) fun _ => Keeps.bind (keepsCells_checkEnd _) fun _ => ?_
    exact Keeps.bind (keepsCells_link _) fun h => .change fun _ now => now

theorem keepsCells_add (s : Statement) : KeepsCells first (add s) := by
  unfold add
  split
  · exact keeps_pure _
  · exact keepsCells_define _ _ _
  · exact keeps_throw _
  · refine .look fun d now => ?_
    split
    · exact keepsCells_addCommand s d now
    · exact keepsCells_configure _ _ _ d now
  · exact keepsCells_addCommand s
  · exact keepsCells_addCommand s

theorem retains_addAll {d : Draft} (source : Nat) (statements : List Statement)
    (now : first.Retains d.objects) : first.Retains (addAll source statements d).2.objects := by
  induction statements generalizing d with
  | nil => exact now
  | cons s rest ih =>
      rw [addAll_cons]
      exact ih (keepsCells_add s d now)

end Draft

/-! ## Running -/

/-- The session has all cells of its arrays, the objects of a store with their types and sizes, and only commands that
keep it so. -/
structure Session.Celled (first : Store) (s : Session) : Prop where
  retains : first.Retains s.objects
  spares : ∀ h c, s.arena.command? h = some c → c.body.SparesCells

namespace Session.Celled

variable {first : Store} {s next : Session}

theorem congr (now : s.Celled first) (same : next.mission = s.mission) : next.Celled first := by
  constructor
  · rw [objects, same]
    exact now.retains
  · rw [arena, same]
    exact now.spares

theorem withObjects (now : s.Celled first) {objects : Store} (retains : first.Retains objects) :
    (s.withObjects objects).Celled first := ⟨retains, now.spares⟩

/-- Commands may change that write to the same operand as before. -/
theorem withArena (now : s.Celled first) {arena : Arena}
    (same : ∀ h node, arena.node? h = some node → ∃ old, s.arena.node? h = some old ∧
      node.command.body.written? = old.command.body.written?) : (s.withArena arena).Celled first := by
  refine ⟨now.retains, fun h c held => ?_⟩
  obtain ⟨node, found, rfl⟩ := Option.map_eq_some_iff.mp held
  obtain ⟨old, before, written⟩ := same h node found
  intro o here
  exact now.spares h old.command (congrArg (Option.map Node.command) before) o (written ▸ here)

theorem forgetting (now : s.Celled first) (handles : List Handle) :
    (s.withArena (handles.foldl Arena.forgetResult s.arena)).Celled first := by
  refine now.withArena fun h node found => ?_
  rw [Arena.node?_forgetting] at found
  split at found
  · obtain ⟨old, before, rfl⟩ := Option.map_eq_some_iff.mp found
    exact ⟨old, before, CommandBody.written?_forgetResult _⟩
  · exact ⟨node, found, rfl⟩

end Session.Celled

namespace Run

open Step

variable {first : Store} {α β : Type} {r : Run α} {c : Command} {h : Handle}

/-- A part of a run does not lose the cells of an array. -/
abbrev KeepsCells (first : Store) {α : Type} (r : Run α) : Prop := Keeps (Session.Celled first) r

theorem keepsCells_of_mission (same : ∀ s, (r s).2.mission = s.mission) : KeepsCells first r :=
  fun s now => now.congr (same s)

/-- A command that runs is one of the session. -/
theorem keepsCells_enter {f : Command → Run β}
    (each : ∀ c s, s.Celled first → s.arena.command? h = some c → (f c s).2.Celled first) :
    KeepsCells first (enter h >>= f) := by
  intro s now
  cases found : s.arena.command? h with
  | none =>
      have ran : enter h s = (.error (.locate (.staleHandle h) none s.mission.source), s) := by
        unfold enter
        rw [Step.get_bind, found]
        rfl
      rw [Step.bind_error ran]
      exact now
  | some c =>
      have ran : enter h s = (.ok c, { s with executed := s.executed + 1 }) := by
        unfold enter
        rw [Step.get_bind, found]
        rfl
      rw [Step.bind_ok ran]
      exact each c _ (now.congr rfl) found

theorem keepsCells_assign (spares : c.body.SparesCells) : KeepsCells first (assign c) := by
  unfold assign
  split
  · rename_i target expression body
    refine .look fun s now => ?_
    cases written : expression.assignTo s.objects target with
    | error cause => exact now
    | ok _ =>
        rw [body] at spares
        exact now.withObjects (now.retains.assignTo (spares target rfl) written)
  · exact keeps_pure _

/-- What is reported does not change what a command writes to. -/
theorem celled_report {s : Session} (now : s.Celled first) (found : s.arena.command? h = some c) :
    (report h c s).2.Celled first := by
  unfold report
  rw [Step.get_bind]
  cases s.activeSolver? with
  | none => exact now
  | some entry =>
      dsimp only
      cases reports : c.report s.objects entry.2 with
      | error e => exact now
      | ok result =>
          let after := (s.arena.modify? h ({ · with command := result.1 })).getD s.arena
          have kept : (s.withArena after).Celled first := by
            refine now.withArena fun other node held => ?_
            cases changed : s.arena.modify? h ({ · with command := result.1 }) with
            | none =>
                simp only [after, changed, Option.getD_none] at held
                exact ⟨node, held, rfl⟩
            | some b =>
                simp only [after, changed, Option.getD_some, Arena.node?_of_modify? changed] at held
                split at held
                · rename_i here
                  obtain ⟨old, before, rfl⟩ := Option.map_eq_some_iff.mp held
                  have same : old.command = c := Option.some.inj
                    ((congrArg (Option.map Node.command) before).symm.trans found)
                  exact ⟨old, here ▸ before, same ▸ Command.written?_of_report reports⟩
                · exact ⟨node, held, rfl⟩
          exact kept.congr rfl

theorem keepsCells_startSolver (solver : Text) : KeepsCells first (startSolver c solver) := by
  refine keepsCells_of_mission fun s => ?_
  rcases startSolver_cases c solver s with failed | ⟨held, limit, -, started⟩
  · rw [failed]
    rfl
  · rw [started]

theorem keepsCells_advance (solver : Text) : KeepsCells first (advance solver) := by
  refine keepsCells_of_mission fun s => ?_
  unfold advance
  rw [Step.get_bind]
  cases s.solvers.get? solver with
  | none => rfl
  | some held => rfl

section

variable {body one other : Run Unit}

theorem keepsCells_forLoop (spares : c.body.SparesCells) (inside : KeepsCells first body) :
    KeepsCells first (forLoop c body) :=
  keeps_forLoop inside fun range _ _ _ own now written => by
    rw [own] at spares
    exact now.withObjects (now.retains.assign (spares range.index rfl) written)

theorem keepsCells_solverLoop (inside : KeepsCells first body) : KeepsCells first (solverLoop h c body) :=
  keeps_solverLoop inside keepsCells_startSolver keepsCells_advance fun s now =>
    (now.forgetting (s.arena.subtree h)).congr rfl

theorem keepsCells_command (inOne : KeepsCells first one) (inOther : KeepsCells first other) :
    KeepsCells first (command h one other) := by
  refine keepsCells_enter fun c s now found => ?_
  have spares := now.spares h c found
  cases c.kind with
  | assignment => exact keepsCells_assign spares s now
  | callFunction => exact now.congr rfl
  | ifThen =>
      refine Keeps.bind (keeps_test c) (fun holds => ?_) s now
      cases holds with
      | true => exact inOne
      | false => exact inOther
  | whileLoop => exact keeps_whileLoop inOne s now
  | forLoop => exact keepsCells_forLoop spares inOne s now
  | optimize => exact keepsCells_solverLoop inOne s now
  | target => exact keepsCells_solverLoop inOne s now
  | minimize => exact celled_report now found
  | nonlinearConstraint => exact celled_report now found
  | _ => exact now

end

/-- A look that leaves the mission alone does not lose a cell, and neither does any plan with such a look. -/
theorem keepsCells_observed {look : Run Unit} (quiet : ∀ s, (look s).2.mission = s.mission) (plan : Plan) :
    KeepsCells first (plan.observed look) := by
  have looks : KeepsCells first look := keepsCells_of_mission quiet
  induction plan with
  | done => exact keeps_pure _
  | lost h => exact looks.bind fun _ => keepsCells_enter fun _ _ now _ => now
  | step h one other next oneIH otherIH nextIH =>
      exact looks.bind fun _ => (keepsCells_command oneIH otherIH).bind fun _ => nextIH
  | script h body next bodyIH nextIH =>
      exact looks.bind fun _ => keepsCells_enter fun _ s now _ => (bodyIH.bind fun _ => nextIH) s now
  | openScript h body ih =>
      exact looks.bind fun _ => keepsCells_enter fun c s now _ =>
        (ih.bind fun _ => keeps_fail c _) s now

end Run

/-- An execution does not lose a cell, wherever it stops. -/
theorem Session.keepsCells_observe {first : Store} {look : Run Unit}
    (quiet : ∀ s, (look s).2.mission = s.mission) : Run.KeepsCells first (observe look) := by
  have prepares : Run.KeepsCells first Session.prepare :=
    Run.keepsCells_of_mission fun s => by rw [prepare_snd]
  have runs : Run.KeepsCells first (do
      modify ({ · with executed := 0, warnings := [] })
      let s ← get
      let watched := do
        (s.arena.plan s.mission.head).observed look
        look
      Run.andThen watched forgetResults
      let s ← get
      return {
        executed := s.executed
        results := s.solvers.entries.map fun entry => (entry.1, entry.2.results)
        warnings := s.warnings.reverse : RunReport }) := by
    refine Step.Keeps.bind (.change fun s now => now.congr rfl) fun _ => .look fun s => ?_
    refine Step.Keeps.bind (Run.keeps_andThen ?_ fun s now => now.forgetting _) (fun _ => .look fun s now => now) s
    exact (Run.keepsCells_observed quiet _).bind fun _ => Run.keepsCells_of_mission quiet
  unfold observe
  refine .look fun s => ?_
  split
  · exact Step.Keeps.bind prepares (fun _ => runs) s
  · exact runs s

/-! ## Reading and running a script -/

/-- The sessions that a session becomes while any part of it runs: an execution, or a plan of its own, both with a
look in front of every command that leaves the mission alone and may stop the run. -/
inductive Session.Becomes (start : Session) : Session → Prop
  | start : Becomes start start
  | part {s : Session} (plan : Plan) (look : Run Unit) (quiet : ∀ s, (look s).2.mission = s.mission) :
      Becomes start s → Becomes start (plan.observed look s).2
  | execute {s : Session} (look : Run Unit) (quiet : ∀ s, (look s).2.mission = s.mission) :
      Becomes start s → Becomes start (observe look s).2

theorem Session.Becomes.celled {first : Store} {start s : Session} (becomes : start.Becomes s)
    (now : start.Celled first) : s.Celled first := by
  induction becomes with
  | start => exact now
  | part plan look quiet _ ih => exact Run.keepsCells_observed quiet plan _ ih
  | execute look quiet _ ih => exact keepsCells_observe quiet _ ih

/-- The objects when some statements have been added. -/
def Draft.objectsAfter (source : Nat) (statements : List Statement) : Store :=
  (addAll source statements (.start .empty)).2.objects

/-- The first store is there no later than the second one while a script is read and any part of its mission is
run. -/
inductive Store.Leads (keywords : Keywords) (source : Nat) (text : Text) : Store → Store → Prop
  | reading {before between after : List Statement}
      (read : parseScript keywords text = .ok (before ++ between ++ after)) :
      Leads keywords source text (Draft.objectsAfter source before) (Draft.objectsAfter source (before ++ between))
  | across {before after : List Statement} {m : Mission} {options : RunOptions} {s : Session}
      (read : parseScript keywords text = .ok (before ++ after))
      (accepted : Mission.ofSource keywords source text = .ok m)
      (becomes : Session.Becomes { mission := m, options } s) :
      Leads keywords source text (Draft.objectsAfter source before) s.objects
  | running {m : Mission} {options : RunOptions} {s later : Session}
      (accepted : Mission.ofSource keywords source text = .ok m)
      (becomes : Session.Becomes { mission := m, options } s) (goes : s.Becomes later) :
      Leads keywords source text s.objects later.objects

namespace Store

variable {keywords : Keywords} {source : Nat} {text : Text} {first store : Store}

theorem retains_objectsAfter (source : Nat) (before after : List Statement) :
    (Draft.objectsAfter source before).Retains (Draft.objectsAfter source (before ++ after)) := by
  have start : Retains .empty .empty := ⟨fun _ _ held => (by cases held), KeepsShapes.refl .empty⟩
  have cellular := (Draft.retains_addAll (d := .start .empty) source before start).cellular
  unfold Draft.objectsAfter
  rw [Draft.addAll_append]
  exact Draft.retains_addAll source after ⟨cellular, KeepsShapes.refl _⟩

/-- A mission starts with the objects of its statements and with commands that have been read. -/
theorem celled_of_ofSource {statements : List Statement} {m : Mission} (options : RunOptions)
    (read : parseScript keywords text = .ok statements)
    (accepted : Mission.ofSource keywords source text = .ok m)
    (retains : first.Retains (Draft.objectsAfter source statements)) :
    Session.Celled first { mission := m, options } := by
  unfold Mission.ofSource at accepted
  rw [read] at accepted
  obtain ⟨-, -, ⟨program, commands⟩, each⟩ := Mission.draws_of_accepted accepted
  have draws := each program commands
  have objects : m.objects = Draft.objectsAfter source statements := by
    dsimp only [Mission.ofStatements] at accepted
    split at accepted
    · cases accepted
      rfl
    · cases accepted
  refine ⟨(objects ▸ retains : first.Retains m.objects), fun h c held => ?_⟩
  obtain ⟨node, found, rfl⟩ := Option.map_eq_some_iff.mp held
  rcases draws.command_of_node? found with head | listed
  · rw [head]
    exact nofun
  · rw [commands] at listed
    obtain ⟨s, _, described⟩ := List.mem_filterMap.mp listed
    have built := (Command.renders_of_command? described).built
    exact Command.sparesCells_of_ofStatement (c := { node.command with span := none }) built

theorem Leads.retains (leads : Leads keywords source text first store) : first.Retains store := by
  cases leads with
  | @reading before between after read => exact retains_objectsAfter source before between
  | @across before after m options s read accepted becomes =>
      have start := celled_of_ofSource options read accepted
        (retains_objectsAfter source before after)
      exact (becomes.celled start).retains
  | @running m options s later accepted becomes goes =>
      cases read : parseScript keywords text with
      | error errors =>
          unfold Mission.ofSource at accepted
          rw [read] at accepted
          cases accepted
      | ok statements =>
          have all := retains_objectsAfter source statements []
          rw [List.append_nil] at all
          have now := becomes.celled (celled_of_ofSource options read accepted all)
          exact (goes.celled ⟨⟨now.retains.cellular, KeepsShapes.refl _⟩, now.spares⟩).retains

/-- While a script is read and any part of its mission is run, arrays are memory. An array that is there keeps its
size, and it has a parameter for each cell inside its rows and columns and for no other. So an element can be written
exactly if it can be read. When it has been written, it reads the new value unless its indices mention the array, and
nothing has changed but the cell that it addressed. -/
theorem elements_as_memory (leads : Leads keywords source text first store) :
    (∀ name object, store.get? name = some object → object.typeName = arrayType →
      ∃ rows columns, object.dimensions = some (rows, columns) ∧ ∀ row column,
        (object.parameter? (cellParameter row column)).isSome ↔
          (1 ≤ row ∧ row ≤ rows) ∧ 1 ≤ column ∧ column ≤ columns) ∧
    (∀ name rows columns, first.get? name = some (.array rows columns) →
      ∃ object, store.get? name = some object ∧ object.typeName = arrayType ∧
        object.dimensions = some (rows, columns)) ∧
    ∀ (o : Operand) array address, o.address? store = some (array, address) → ∀ new,
      ((∃ next, o.assign store new = .ok next) ↔ ∃ old, o.value store = .ok old) ∧
      ∀ next, o.assign store new = .ok next →
        (array ∉ o.indexNames → o.value next = .ok new) ∧
        ∃ cell, address = .ok cell ∧
          (∀ other place, (other, place) ≠ (array, cell) →
            next.cellValue other place = store.cellValue other place) ∧
          ∀ other, other ≠ array → next.get? other = store.get? other := by
  obtain ⟨cellular, shapes⟩ := leads.retains
  refine ⟨fun name object held isArray => ?_, fun name rows columns held => ?_,
    fun o array address own new => ⟨Operand.exists_assign_iff cellular own, fun next written => ?_⟩⟩
  · obtain ⟨⟨rows, columns⟩, dimensions, cells⟩ := cellular name object held isArray
    exact ⟨rows, columns, dimensions, fun row column => cells (row, column)⟩
  · obtain ⟨object, there, type, dimensions⟩ := shapes name _ held
    exact ⟨object, there, type, dimensions⟩
  · exact ⟨Operand.value_of_assign own written, Operand.exists_changed_of_assign own written⟩

/-- The element of the second of two arrays, after an execution. -/
theorem elements_as_memory_assigned :
    let o := Operand.cell "B".toList (.number 1) (.number 1)
    ∃ m next,
      Mission.ofSource .builtin 0
        "Create Array A[1] B[1,1];\nBeginMissionSequence;\nStop;".toList = .ok m ∧
      o.assign (Session.execute { mission := m }).2.objects 7 = .ok next ∧ o.value next = .ok 7 := by
  intro o
  have reads : ((Mission.ofSource .builtin 0
      "Create Array A[1] B[1,1];\nBeginMissionSequence;\nStop;".toList).map
        fun m => (o.value (Session.execute { mission := m }).2.objects).isOk).toOption = some true := by
    decide +kernel
  cases accepted : Mission.ofSource .builtin 0
      "Create Array A[1] B[1,1];\nBeginMissionSequence;\nStop;".toList with
  | error errors =>
      rw [accepted] at reads
      cases reads
  | ok m =>
      rw [accepted] at reads
      obtain ⟨old, read⟩ := Outcome.exists_of_isOk (Option.some.inj reads)
      have executed : Session.Becomes { mission := m } (Session.execute { mission := m }).2 := by
        rw [← Session.observe_pure]
        exact .execute (pure ()) (fun _ => rfl) .start
      obtain ⟨-, -, memory⟩ := elements_as_memory (.running accepted .start executed)
      obtain ⟨written, kept⟩ := memory o "B".toList _ rfl 7
      obtain ⟨next, assigned⟩ := written.mpr ⟨old, read⟩
      exact ⟨m, next, rfl, assigned, (kept next assigned).1 (by decide)⟩

end Store

end MissionScript
