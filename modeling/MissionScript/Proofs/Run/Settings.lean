import MissionScript.Proofs.Expression.Grammar
import MissionScript.Proofs.Expression.Symbolic
import MissionScript.Proofs.Mission.Configuration
import MissionScript.Proofs.Mission.Recovery
import MissionScript.Proofs.Run.Between
import MissionScript.Proofs.Script.Remarks
import MissionScript.Proofs.Script.Restated

/-!
# Assignments as commands

Running assignments writes the objects that taking their statements writes. So the same script without its
`BeginMissionSequence` sets the objects that are there when the mission has run.
-/

namespace MissionScript

/-! ### Running assignments -/

namespace Direct

variable {t : Terms} {c : Command} {w next : World}

theorem write_of_assign (ran : assign t c w = (.ok (), next)) : c.write w.objects = .ok next.objects := by
  unfold assign at ran
  unfold Command.write
  cases body : c.body with
  | assignment target expression =>
      rw [body] at ran
      dsimp only at ran ⊢
      rw [Step.get_bind] at ran
      obtain ⟨⟨new, objects⟩, middle, required, changed⟩ := Step.bind_eq_ok ran
      cases assigned : expression.assignTo w.objects target with
      | error cause =>
          rw [assigned] at required
          cases required
      | ok written =>
          rw [assigned] at required
          cases required
          cases changed
          rfl
  | _ =>
      rw [body] at ran
      cases ran
      rfl

theorem write_of_plain {position : Nat} (kind : c.kind = .assignment)
    (ran : plain t position c w = (.ok (), next)) : c.write w.objects = .ok next.objects := by
  unfold plain count at ran
  rw [Step.modify_bind, kind] at ran
  exact write_of_assign (w := { w with executed := w.executed + 1 }) ran

/-- The command that starts the mission sequence writes nothing. -/
theorem objects_of_begin {position : Nat} (kind : c.kind = .beginMissionSequence)
    (ran : plain t position c w = (.ok (), next)) : next.objects = w.objects := by
  unfold plain count at ran
  rw [Step.modify_bind, kind] at ran
  cases ran
  rfl

end Direct

/-- Assignments make a program, which writes one after the other. -/
theorem Program.exists_of_assignments {commands : List Command} (each : ∀ c ∈ commands, c.kind = .assignment) :
    ∃ program : Program, program.commands = commands ∧ ∀ {t : Terms} {position : Nat} {w next : World},
      program.run t position w = (.ok (), next) →
        commands.foldlM (fun store c => c.write store) w.objects = .ok next.objects := by
  induction commands with
  | nil =>
      refine ⟨.done, rfl, fun ran => ?_⟩
      cases ran
      rfl
  | cons c commands ih =>
      obtain ⟨kind, each⟩ := List.forall_mem_cons.mp each
      obtain ⟨program, same, writes⟩ := ih each
      refine ⟨.plain c (by rw [kind]; rfl) program, by rw [Program.commands, same], fun ran => ?_⟩
      rw [Program.run] at ran
      obtain ⟨⟨⟩, middle, first, others⟩ := Step.bind_eq_ok ran
      rw [List.foldlM_cons]
      exact Outcome.bind_eq_ok_iff.mpr ⟨_, Direct.write_of_plain kind first, writes others⟩

/-! ### Missions of assignments -/

/-- The statement starts the mission sequence. -/
def Statement.begins (s : Statement) : Prop := s.keyword? = some CommandKind.beginMissionSequence.name

theorem Statement.isCommand_of_begins {s : Statement} (begins : s.begins) : s.isCommand := by
  obtain ⟨reading, parts, span⟩ := s
  cases parts with
  | command => rfl
  | _ => cases begins

theorem Statement.kind_of_begins {s : Statement} {c : Command} (begins : s.begins)
    (described : s.command? = some c) : c.kind = .beginMissionSequence :=
  Draft.kind_of_keyword (c := { c with span := none }) begins (Command.renders_of_command? described).built

namespace Mission

variable {source : Nat} {settings assignments : List Statement} {begin : Statement} {m : Mission}

theorem missionCommands_of_settings (each : ∀ s ∈ settings, s.isSetting) {c : Command} (begins : begin.begins)
    (described : begin.command? = some c) (assigning : ∀ s ∈ assignments, s.isAssigning) :
    missionCommands (settings ++ begin :: assignments) = c :: Draft.describe assignments := by
  have dropped : ∀ s ∈ settings, (!s.isCommand) = true := by
    intro s member
    rw [(Statement.isSetting_kinds (each s member)).1]
    rfl
  have command := Statement.isCommand_of_begins begins
  rw [missionCommands, missionStatements, List.dropWhile_append_of_pos dropped,
    List.dropWhile_cons_of_neg (by simp [command]), List.filter_cons_of_pos (by simp [command]),
    List.filterMap_cons_some described, ← Draft.steps_true]
  exact congrArg (c :: ·) (Draft.steps_of_assigning assigning).2

/-- Settings in front of the mission sequence have made the objects with which it starts. -/
theorem of_accepted_settings
    (accepted : ofStatements source (settings ++ begin :: assignments) = .ok m)
    (each : ∀ s ∈ settings, s.isSetting) (begins : begin.begins)
    (assigning : ∀ s ∈ assignments, s.isAssigning) :
    settings.foldlM Store.take .empty = .ok m.objects ∧ (∃ c, begin.command? = some c) ∧
      ∀ s ∈ assignments, s.isAssignment → s.command?.isSome := by
  obtain ⟨store, b, sound, -, rfl⟩ := ofStatements_eq_ok_iff.mp accepted
  have before : (Draft.start .empty).inMission = false ∧ (Draft.start .empty).objects = .empty := by
    rw [Draft.start_eq]
    exact ⟨rfl, rfl⟩
  obtain ⟨objects, taken, sound⟩ := (Draft.SoundFrom.append_settings before.1 each).mp sound
  have isStep : begin.isStep (Draft.start .empty).inMission := by
    rw [Statement.isStep, Statement.isCommand_of_begins begins]
    rfl
  obtain ⟨c, described, -, sound⟩ :=
    (Draft.SoundFrom.cons_of_isStep (d := { Draft.start .empty with objects }) isStep).mp sound
  obtain ⟨rfl, builds⟩ := sound.of_assigning rfl assigning
  rw [before.2] at taken
  exact ⟨taken, ⟨c, described⟩, builds⟩

/-- The commands of assignments are assignments. -/
theorem kind_of_describe (assigning : ∀ s ∈ assignments, s.isAssigning) :
    ∀ c ∈ Draft.describe assignments, c.kind = .assignment := by
  intro c member
  obtain ⟨s, among, described⟩ := List.mem_filterMap.mp member
  rcases Statement.isAssigning_iff.mp (assigning s among) with assignment | comment
  · obtain ⟨-, -, -, -, -, -, -, kind, -⟩ := Statement.exists_assignment assignment described
    exact kind
  · rw [(Statement.of_comment comment).1] at described
    cases described

/-- An execution that succeeds has run the program of the mission, and its objects are left. -/
theorem Draws.exists_run {program : Program} (draws : m.Draws program) {statements : List Statement}
    (commands : program.commands = missionCommands statements) {options : RunOptions}
    {report : RunReport} {s : Session}
    (executed : Session.execute { mission := m, options } = (.ok report, s)) :
    ∃ solvers next, program.run ⟨m.source, options.passLimit⟩ 1 { objects := m.objects, solvers } =
      (.ok (), next) ∧ s.objects = next.objects := by
  rw [Session.execute_of_unready rfl] at executed
  obtain ⟨⟨⟩, ready, prepared, ran⟩ := Step.bind_eq_ok executed
  have held := Session.ready_of_prepare prepared
  have performs : ready.Performs ⟨m.source, options.passLimit⟩ program
      { objects := m.objects, solvers := ready.solvers } := by
    rw [held]
    exact draws.performs rfl rfl
      (draws.shows (s := { mission := m, options, solvers := ready.solvers, ready := true }) commands
        rfl rfl rfl rfl)
  have outcome := performs.outcome
  have objects := performs.objects
  rw [ran, Program.perform] at outcome objects
  cases run : program.run ⟨m.source, options.passLimit⟩ 1
      { objects := m.objects, solvers := ready.solvers } with
  | mk result next =>
      rw [run] at outcome objects
      cases result with
      | error e => cases outcome
      | ok => exact ⟨ready.solvers, next, run, objects⟩

/-- When a mission of assignments has run, its objects are those that its statements set. -/
theorem foldlM_take_of_execute (accepted : ofStatements source (settings ++ begin :: assignments) = .ok m)
    (each : ∀ s ∈ settings, s.isSetting) (begins : begin.begins)
    (assigning : ∀ s ∈ assignments, s.isAssigning) {options : RunOptions} {report : RunReport} {s : Session}
    (executed : Session.execute { mission := m, options } = (.ok report, s)) :
    (settings ++ assignments).foldlM Store.take .empty = .ok s.objects := by
  obtain ⟨taken, ⟨c, described⟩, builds⟩ := of_accepted_settings accepted each begins assigning
  obtain ⟨program, same, writes⟩ := Program.exists_of_assignments (kind_of_describe assigning)
  have kind := Statement.kind_of_begins begins described
  have commands : (Program.plain c (by rw [kind]; rfl) program).commands =
      missionCommands (settings ++ begin :: assignments) := by
    rw [missionCommands_of_settings each begins described assigning, Program.commands, same]
  obtain ⟨-, -, -, draws⟩ := draws_of_accepted accepted
  obtain ⟨solvers, next, ran, left⟩ := (draws _ commands).exists_run commands executed
  rw [Program.run] at ran
  obtain ⟨⟨⟩, begun, first, others⟩ := Step.bind_eq_ok ran
  have written := writes others
  rw [Direct.objects_of_begin kind first] at written
  rw [List.foldlM_append, left]
  exact Outcome.bind_eq_ok_iff.mpr ⟨_, taken, foldlM_take_of_write assigning builds written⟩

end Mission

/-! ### Meanings of settings -/

/-- What statements set is what their meanings set. -/
theorem foldlM_take_meanings {statements : List Statement} (each : ∀ s ∈ statements, s.IsCut)
    (store : Store) :
    statements.foldlM Store.take store =
      (meanings statements).foldlM (fun store m => store.take m.statement) store := by
  induction statements generalizing store with
  | nil => rfl
  | cons s statements ih =>
      obtain ⟨isCut, each⟩ := List.forall_mem_cons.mp each
      rw [List.foldlM_cons, meanings]
      cases said : s.meaning? with
      | none =>
          rw [List.filterMap_cons_none said, (Statement.of_comment (isCut.comment said)).2]
          exact ih each store
      | some m =>
          have same : store.take s = store.take m.statement := by
            rw [isCut.eq_statement said]
            rfl
          rw [List.filterMap_cons_some said, List.foldlM_cons, same]
          exact congrArg _ (funext fun middle => ih each middle)

/-- A property of parts that a comment has is one of the meanings. -/
theorem forall_of_meanings {statements others : List Statement} {p : Parts → Prop} (comment : p .comment)
    (each : ∀ s ∈ statements, s.IsCut) (each' : ∀ s ∈ others, s.IsCut)
    (same : meanings statements = meanings others) (holds : ∀ s ∈ others, p s.parts) :
    ∀ s ∈ statements, p s.parts := by
  intro s among
  cases said : s.meaning? with
  | none =>
      rw [(each s among).comment said]
      exact comment
  | some m =>
      have member : m ∈ meanings others := same ▸ List.mem_filterMap.mpr ⟨s, among, said⟩
      obtain ⟨t, among', said'⟩ := List.mem_filterMap.mp member
      rw [(each s among).parts_eq (each' t among') (said.trans said'.symm)]
      exact holds t among'

/-- The statements with the meanings of two lists and of a statement between them. -/
theorem exists_split {statements settings assignments : List Statement} {begin : Statement}
    (telling : begin.parts ≠ .comment) (isCut : begin.IsCut) (said : meanings statements =
      meanings settings ++ (meanings [begin] ++ meanings assignments)) :
    ∃ before other after, statements = before ++ other :: after ∧ meanings before = meanings settings ∧
      other.meaning? = begin.meaning? ∧ meanings after = meanings assignments := by
  obtain ⟨m, own⟩ : ∃ m, begin.meaning? = some m :=
    Option.ne_none_iff_exists'.mp (mt isCut.comment telling)
  rw [show meanings [begin] = [m] from List.filterMap_cons_some own] at said
  obtain ⟨front, rest, rfl, settings', behind⟩ := List.filterMap_eq_append_iff.mp said
  obtain ⟨quiet, other, after, rfl, none, found, assignments'⟩ := List.filterMap_eq_cons_iff.mp behind
  refine ⟨front ++ quiet, other, after, (List.append_assoc ..).symm, ?_, found.trans own.symm, assignments'⟩
  rw [meanings, List.filterMap_append, List.filterMap_eq_nil_iff.mpr none, List.append_nil]
  exact settings'

/-! ### Scripts -/

/-- A script in which the mission sequence starts, behind blank and comment lines, between statements that
set objects and assignments. -/
structure Sequenced (keywords : Keywords) (settings gap line assignments : Text) : Prop where
  configures : ∃ statements, parseScript keywords settings = .ok statements ∧
    ∀ s ∈ statements, s.isSetting
  isGap : IsGap gap
  begins : ∃ s, parseScript keywords line = .ok [s] ∧ s.begins
  assigns : ∃ statements, parseScript keywords assignments = .ok statements ∧
    ∀ s ∈ statements, s.isAssigning
  /-- The settings are complete lines. -/
  ended : EndsStatement settings
  /-- The line is a complete one, unless it is the last. -/
  apart : assignments = [] ∨ EndsStatement line

/-- With the line that starts the mission sequence such a script is read as settings, this start and
assignments; without it as settings that set the same. -/
theorem Sequenced.exists_statements {keywords : Keywords} {settings gap line assignments : Text}
    (sequenced : Sequenced keywords settings gap line assignments) :
    ∃ before begin after rest,
      parseScript keywords (settings ++ (gap ++ (line ++ assignments))) = .ok (before ++ begin :: after) ∧
      (∀ s ∈ before, s.isSetting) ∧ begin.begins ∧ (∀ s ∈ after, s.isAssigning) ∧
      parseScript keywords (settings ++ (gap ++ assignments)) = .ok rest ∧ (∀ s ∈ rest, s.isSetting) ∧
      ∀ store, rest.foldlM Store.take store = (before ++ after).foldlM Store.take store := by
  obtain ⟨sets, readSets, setting⟩ := sequenced.configures
  obtain ⟨start, readLine, starts⟩ := sequenced.begins
  obtain ⟨assigns, readAssigns, assigning⟩ := sequenced.assigns
  obtain ⟨behind, readBehind, saidBehind⟩ := parseScript_append sequenced.apart readLine readAssigns
  obtain ⟨noted, readNoted, saidNoted⟩ := parseScript_remarks sequenced.isGap readBehind
  obtain ⟨all, readAll, saidAll⟩ := parseScript_append (.inr sequenced.ended) readSets readNoted
  obtain ⟨others, readOthers, saidOthers⟩ := parseScript_remarks sequenced.isGap readAssigns
  obtain ⟨rest, readRest, saidRest⟩ := parseScript_append (.inr sequenced.ended) readSets readOthers
  have isCut := isCut_of_parseScript readLine start List.mem_cons_self
  have telling : start.parts ≠ .comment := by
    intro comment
    rw [Statement.begins, Statement.keyword?, comment] at starts
    cases starts
  rw [saidNoted, saidBehind] at saidAll
  obtain ⟨before, begin, after, rfl, saidBefore, sameStart, saidAfter⟩ := exists_split telling isCut saidAll
  obtain ⟨cutBefore, cutBehind⟩ := List.forall_mem_append.mp (isCut_of_parseScript readAll)
  obtain ⟨cutBegin, cutAfter⟩ := List.forall_mem_cons.mp cutBehind
  have cutBoth := List.forall_mem_append.mpr ⟨cutBefore, cutAfter⟩
  have cutRest := isCut_of_parseScript readRest
  have same : meanings rest = meanings (before ++ after) := by
    rw [saidRest, saidOthers, ← saidBefore, ← saidAfter]
    exact List.filterMap_append.symm
  have settingBefore := forall_of_meanings (p := fun parts => Statement.isSetting { reading := {}, parts })
    rfl cutBefore (isCut_of_parseScript readSets) saidBefore setting
  have assigningAfter := forall_of_meanings (p := fun parts => Statement.isAssigning { reading := {}, parts })
    rfl cutAfter (isCut_of_parseScript readAssigns) saidAfter assigning
  have settingBoth : ∀ s ∈ before ++ after, s.isSetting := List.forall_mem_append.mpr
    ⟨settingBefore, fun s member => Statement.isSetting_of_isAssigning (assigningAfter s member)⟩
  refine ⟨before, begin, after, rest, readAll, settingBefore, ?_, assigningAfter, readRest, ?_, fun store => ?_⟩
  · rw [Statement.begins, Statement.keyword?, cutBegin.parts_eq isCut sameStart]
    exact starts
  · exact forall_of_meanings (p := fun parts => Statement.isSetting { reading := {}, parts })
      rfl cutRest cutBoth same settingBoth
  · rw [foldlM_take_meanings cutRest, foldlM_take_meanings cutBoth, same]

/-- Configuring and executing agree: if a script of settings and of assignments runs with the mission
sequence started between them, it is accepted without the line that starts it, and its objects are those
that the run leaves. -/
theorem Session.execute_configures {keywords : Keywords} {settings gap line assignments : Text}
    (sequenced : Sequenced keywords settings gap line assignments) {source : Nat} {m : Mission}
    (accepted : Mission.ofSource keywords source (settings ++ (gap ++ (line ++ assignments))) = .ok m)
    {options : RunOptions} {report : RunReport} {s : Session}
    (executed : Session.execute { mission := m, options } = (.ok report, s)) :
    ∃ configured, Mission.ofSource keywords source (settings ++ (gap ++ assignments)) = .ok configured ∧
      configured.objects = s.objects := by
  obtain ⟨before, begin, after, rest, read, setting, begins, assigning, readRest, settingRest, same⟩ :=
    sequenced.exists_statements
  rw [Mission.ofSource, read] at accepted
  rw [Mission.ofSource, readRest]
  have taken := Mission.foldlM_take_of_execute accepted setting begins assigning executed
  exact Mission.exists_of_settings settingRest ((same .empty).trans taken)

/-- A parameter that is set from another one, behind a comment line. -/
theorem Session.execute_configures_parameter :
    Sequenced .builtin "Create Spacecraft Sat;\n".toList "\n% start\n".toList
        "BeginMissionSequence;\n".toList "Sat.X = Sat.SMA;\n".toList ∧
      ∃ m report s,
        Mission.ofSource .builtin 0 ("Create Spacecraft Sat;\n".toList ++ ("\n% start\n".toList ++
          ("BeginMissionSequence;\n".toList ++ "Sat.X = Sat.SMA;\n".toList))) = .ok m ∧
        Session.execute { mission := m } = (.ok report, s) ∧
        ∃ configured,
          Mission.ofSource .builtin 0 ("Create Spacecraft Sat;\n".toList ++ ("\n% start\n".toList ++
            "Sat.X = Sat.SMA;\n".toList)) = .ok configured ∧ configured.objects = s.objects := by
  have sequenced : Sequenced .builtin "Create Spacecraft Sat;\n".toList "\n% start\n".toList
      "BeginMissionSequence;\n".toList "Sat.X = Sat.SMA;\n".toList := {
    configures := ⟨[{
      reading := { instruction := "Create Spacecraft Sat".toList, shape := .definition }
      parts := .definition "Spacecraft".toList "Sat".toList
      span := ⟨0, 23⟩ }], by decide +kernel, by decide +kernel⟩
    isGap := ⟨by decide +kernel, fun c last => by cases last; rfl⟩
    begins := ⟨{
      reading := { instruction := "BeginMissionSequence".toList, shape := .command }
      parts := .command "BeginMissionSequence".toList none
      span := ⟨0, 22⟩ }, by decide +kernel, rfl⟩
    assigns := ⟨[{
      reading := { instruction := "Sat.X = Sat.SMA".toList, shape := .assignment }
      parts := .assignment "Sat.X".toList "Sat.SMA".toList
      span := ⟨0, 17⟩ }], by decide +kernel, by decide +kernel⟩
    ended := .inr ⟨by decide +kernel, by decide +kernel⟩
    apart := .inr (.inr ⟨by decide +kernel, by decide +kernel⟩) }
  have parsed : parseScript .builtin ("Create Spacecraft Sat;\n".toList ++ ("\n% start\n".toList ++
      ("BeginMissionSequence;\n".toList ++ "Sat.X = Sat.SMA;\n".toList))) = .ok [
    { reading := { instruction := "Create Spacecraft Sat".toList, shape := .definition }
      parts := .definition "Spacecraft".toList "Sat".toList
      span := ⟨0, 23⟩ },
    { reading := {
        preface := "\n% start\n".toList, instruction := "BeginMissionSequence".toList, shape := .command }
      parts := .command "BeginMissionSequence".toList none
      span := ⟨23, 54⟩ },
    { reading := { instruction := "Sat.X = Sat.SMA".toList, shape := .assignment }
      parts := .assignment "Sat.X".toList "Sat.SMA".toList
      span := ⟨54, 71⟩ }] := by
    decide +kernel
  have value : Expression.parse "Sat.SMA".toList = .ok (.operand (.parameter "Sat".toList "SMA".toList)) :=
    Expression.parse_of_operand (by decide +kernel)
      (@Operand.parse_parameter "Sat".toList "SMA".toList (by decide) (by decide))
  have succeeds : ((Mission.ofSource .builtin 0 ("Create Spacecraft Sat;\n".toList ++
      ("\n% start\n".toList ++ ("BeginMissionSequence;\n".toList ++ "Sat.X = Sat.SMA;\n".toList)))).map
        fun m => (Session.execute { mission := m }).1.isOk).toOption = some true := by
    -- The expression is read by the rules; all the rest is computed.
    rw [Mission.ofSource, parsed]
    simp only [Mission.ofStatements, Draft.addAll, Draft.add, Draft.addCommand, Command.ofStatement,
      CommandBody.parseAssignment, value]
    decide +kernel
  cases accepted : Mission.ofSource .builtin 0 ("Create Spacecraft Sat;\n".toList ++
      ("\n% start\n".toList ++ ("BeginMissionSequence;\n".toList ++ "Sat.X = Sat.SMA;\n".toList))) with
  | error errors =>
      rw [accepted] at succeeds
      cases succeeds
  | ok m =>
      rw [accepted] at succeeds
      cases executed : Session.execute { mission := m } with
      | mk outcome s =>
          cases outcome with
          | error e =>
              simp [Except.map, executed] at succeeds
              cases succeeds
          | ok report =>
              exact ⟨sequenced, m, report, s, rfl, executed, execute_configures sequenced accepted executed⟩

end MissionScript
