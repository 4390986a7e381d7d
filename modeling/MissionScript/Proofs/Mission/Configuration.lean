import MissionScript.Proofs.Command.Value
import MissionScript.Proofs.Mission.Acceptance

/-!
# Configuring objects

An assignment in front of the mission sequence writes what the same assignment writes as a command, wherever the
command can be run. A script of definitions and assignments only is accepted if its statements can be taken one
after the other, and nothing of its mission hangs on it but the objects.
-/

namespace MissionScript

/-! ### What is read and written exists -/

namespace Store

variable {store next : Store} {name field : Text}

theorem contains_of_arraySize {size : Nat × Nat} (found : store.arraySize name = .ok size) :
    store.contains name := by
  refine Table.contains_iff.mpr ?_
  unfold arraySize at found
  split at found
  · cases found
  · exact ⟨_, ‹_›⟩

theorem contains_of_variableNamed {object : Object} (found : store.variableNamed name = .ok object) :
    store.contains name := by
  refine Table.contains_iff.mpr ?_
  unfold variableNamed at found
  split at found
  · cases found
  · exact ⟨_, ‹_›⟩

theorem contains_of_setParameter {value : Float} (written : store.setParameter name field value = .ok next) :
    store.contains name := by
  refine Table.contains_iff.mpr ?_
  unfold setParameter at written
  split at written
  · rename_i changed
    obtain ⟨object, held, -⟩ := Option.map_eq_some_iff.mp changed
    exact ⟨object, held⟩
  · cases written

end Store

namespace Operand

variable {store next : Store}

theorem knows_of_value {o : Operand} {value : Float} (computed : o.value store = .ok value) :
    store.Knows o.names := by
  induction o generalizing value with
  | number number => exact List.forall_mem_nil _
  | var name =>
      obtain ⟨object, found, -⟩ := Outcome.bind_eq_ok_iff.mp computed
      exact List.forall_mem_singleton.mpr (Store.contains_of_variableNamed found)
  | parameter owner field =>
      refine List.forall_mem_singleton.mpr (Table.contains_iff.mpr ?_)
      unfold Operand.value at computed
      split at computed
      · cases computed
      · exact ⟨_, ‹_›⟩
  | element array index ih =>
      obtain ⟨size, found, rest⟩ := Outcome.bind_eq_ok_iff.mp computed
      obtain ⟨number, inner, -⟩ := Outcome.bind_eq_ok_iff.mp rest
      exact List.forall_mem_cons.mpr ⟨Store.contains_of_arraySize found, ih inner⟩
  | cell array row column ihRow ihColumn =>
      obtain ⟨size, found, rest⟩ := Outcome.bind_eq_ok_iff.mp computed
      obtain ⟨number, ofRow, rest⟩ := Outcome.bind_eq_ok_iff.mp rest
      obtain ⟨_, -, rest⟩ := Outcome.bind_eq_ok_iff.mp rest
      obtain ⟨number, ofColumn, -⟩ := Outcome.bind_eq_ok_iff.mp rest
      exact List.forall_mem_cons.mpr ⟨Store.contains_of_arraySize found,
        List.forall_mem_append.mpr ⟨ihRow ofRow, ihColumn ofColumn⟩⟩

theorem knows_of_assign {o : Operand} {new : Float} (written : o.assign store new = .ok next) :
    store.Knows o.names := by
  cases o with
  | number number => cases written
  | var name =>
      obtain ⟨object, found, -⟩ := Outcome.bind_eq_ok_iff.mp written
      exact List.forall_mem_singleton.mpr (Store.contains_of_variableNamed found)
  | parameter owner field =>
      exact List.forall_mem_singleton.mpr (Store.contains_of_setParameter written)
  | element array index =>
      obtain ⟨size, found, rest⟩ := Outcome.bind_eq_ok_iff.mp written
      obtain ⟨number, inner, -⟩ := Outcome.bind_eq_ok_iff.mp rest
      exact List.forall_mem_cons.mpr ⟨Store.contains_of_arraySize found, knows_of_value inner⟩
  | cell array row column =>
      obtain ⟨size, found, rest⟩ := Outcome.bind_eq_ok_iff.mp written
      obtain ⟨number, ofRow, rest⟩ := Outcome.bind_eq_ok_iff.mp rest
      obtain ⟨_, -, rest⟩ := Outcome.bind_eq_ok_iff.mp rest
      obtain ⟨number, ofColumn, -⟩ := Outcome.bind_eq_ok_iff.mp rest
      exact List.forall_mem_cons.mpr ⟨Store.contains_of_arraySize found,
        List.forall_mem_append.mpr ⟨knows_of_value ofRow, knows_of_value ofColumn⟩⟩

end Operand

/-! ### One assignment -/

/-- The objects after a command, of which only an assignment writes. -/
def Command.write (c : Command) (store : Store) : Except ValueError Store :=
  match c.body with
  | .assignment target expression => (expression.assignTo store target).map (·.2)
  | _ => .ok store

/-- What can be assigned can be configured, with the same objects in the end. -/
theorem Store.configure_of_assignTo {store next : Store} {target written : Text} {o : Operand}
    {e : Expression} {new : Float} (readTarget : Operand.parse target = .ok o)
    (readValue : Expression.parse written = .ok e) (assigned : e.assignTo store o = .ok (new, next)) :
    store.configure target written = .ok next := by
  obtain ⟨value, computed, rest⟩ := Outcome.bind_eq_ok_iff.mp assigned
  obtain ⟨changed, done, same⟩ := Outcome.bind_eq_ok_iff.mp rest
  cases same
  have known : o.names.find? (!store.contains ·) = none := by
    rw [List.find?_eq_none]
    intro name member
    simp [Operand.knows_of_assign done name member]
  have number : store.configuredValue written = .ok new := by
    rw [configuredValue, readValue]
    simp only [computed]
    rfl
  unfold configure
  refine Outcome.bind_eq_ok_iff.mpr ⟨o, by rw [readTarget]; rfl, ?_⟩
  rw [known, number]
  exact Outcome.mapError_eq_ok_iff.mpr done

namespace Statement

variable {s : Statement} {c : Command} {store next : Store}

/-- The command of an assignment. -/
theorem exists_assignment (isAssignment : s.isAssignment) (described : s.command? = some c) :
    ∃ target written o e, s.parts = .assignment target written ∧ Operand.parse target = .ok o ∧
      Expression.parse written = .ok e ∧ c.kind = .assignment ∧ c.body = .assignment o e := by
  obtain ⟨reading, parts, span⟩ := s
  cases parts with
  | assignment target written =>
      unfold command? Command.ofStatement at described
      dsimp only at described
      cases read : CommandBody.parseAssignment target written with
      | error cause =>
          rw [read] at described
          cases described
      | ok body =>
          rw [read] at described
          cases described
          obtain ⟨o, readTarget, rest⟩ := Outcome.bind_eq_ok_iff.mp read
          dsimp only at rest
          split at rest
          · cases rest
          · obtain ⟨e, readValue, same⟩ := Outcome.bind_eq_ok_iff.mp rest
            cases same
            exact ⟨target, written, o, e, rfl, Outcome.mapError_eq_ok_iff.mp readTarget,
              Outcome.mapError_eq_ok_iff.mp readValue, rfl, rfl⟩
  | _ => cases isAssignment

/-- The statement of an assignment is taken where its command writes. -/
theorem take_of_write (isAssignment : s.isAssignment) (described : s.command? = some c)
    (written : c.write store = .ok next) : store.take s = .ok next := by
  obtain ⟨target, value, o, e, parts, readTarget, readValue, -, body⟩ :=
    exists_assignment isAssignment described
  rw [Command.write, body] at written
  obtain ⟨⟨new, changed⟩, assigned, rfl⟩ := Outcome.map_eq_ok_iff.mp written
  rw [Store.take, parts]
  dsimp only
  rw [Store.configure_of_assignTo readTarget readValue assigned]
  rfl

/-! ### Statements that set objects -/

/-- A definition, an assignment or a comment. -/
def isSetting (s : Statement) : Bool := s.isDefinition || s.isAssignment || s.parts = .comment

/-- An assignment or a comment. -/
def isAssigning (s : Statement) : Bool := s.isAssignment || s.parts = .comment

theorem isAssigning_iff : s.isAssigning ↔ s.isAssignment ∨ s.parts = .comment := by
  rw [isAssigning, Bool.or_eq_true, decide_eq_true_iff]

theorem isSetting_of_isAssigning (assigning : s.isAssigning) : s.isSetting := by
  rcases isAssigning_iff.mp assigning with assignment | comment
  · simp [isSetting, assignment]
  · simp [isSetting, comment]

theorem isSetting_kinds (setting : s.isSetting) : s.isCommand = false ∧ s.isFunction = false := by
  obtain ⟨reading, parts, span⟩ := s
  cases parts with
  | command => cases setting
  | call => cases setting
  | function => cases setting
  | _ => exact ⟨rfl, rfl⟩

/-- A comment makes no command and sets nothing. -/
theorem of_comment (comment : s.parts = .comment) :
    s.command? = none ∧ ∀ store : Store, store.take s = .ok store := by
  constructor
  · rw [command?, Command.ofStatement, comment]
  · intro store
    rw [Store.take, comment]

end Statement

/-- Where the commands of some assignments write one after the other, their statements can be taken. -/
theorem foldlM_take_of_write {statements : List Statement} (each : ∀ s ∈ statements, s.isAssigning)
    (builds : ∀ s ∈ statements, s.isAssignment → s.command?.isSome) {store next : Store}
    (written : (Draft.describe statements).foldlM (fun store c => c.write store) store = .ok next) :
    statements.foldlM Store.take store = .ok next := by
  induction statements generalizing store with
  | nil =>
      cases written
      rfl
  | cons s statements ih =>
      obtain ⟨assigning, each⟩ := List.forall_mem_cons.mp each
      obtain ⟨described, builds⟩ := List.forall_mem_cons.mp builds
      rw [Draft.describe] at written
      rw [List.foldlM_cons]
      rcases Statement.isAssigning_iff.mp assigning with assignment | comment
      · obtain ⟨c, found⟩ := Option.isSome_iff_exists.mp (described assignment)
        rw [List.filterMap_cons_some found, List.foldlM_cons] at written
        obtain ⟨middle, first, others⟩ := Outcome.bind_eq_ok_iff.mp written
        exact Outcome.bind_eq_ok_iff.mpr
          ⟨middle, Statement.take_of_write assignment found first, ih each builds others⟩
      · obtain ⟨none, takes⟩ := Statement.of_comment comment
        rw [List.filterMap_cons_none none] at written
        exact Outcome.bind_eq_ok_iff.mpr ⟨store, takes store, ih each builds written⟩

namespace Draft

variable {d : Draft} {statements rest : List Statement} {store : Store}

/-- In front of the mission sequence such statements are sound if they can be taken. -/
theorem SoundFrom.append_settings (before : d.inMission = false) (each : ∀ s ∈ statements, s.isSetting) :
    SoundFrom d (statements ++ rest) store ↔
      ∃ objects, statements.foldlM Store.take d.objects = .ok objects ∧
        SoundFrom { d with objects } rest store := by
  induction statements generalizing d with
  | nil =>
      constructor
      · intro sound
        exact ⟨d.objects, rfl, sound⟩
      · rintro ⟨objects, same, sound⟩
        cases same
        exact sound
  | cons s statements ih =>
      obtain ⟨setting, each⟩ := List.forall_mem_cons.mp each
      obtain ⟨noCommand, noFunction⟩ := Statement.isSetting_kinds setting
      have noStep : ¬s.isStep d.inMission := by simp [Statement.isStep, noCommand, before]
      rw [List.cons_append, SoundFrom.cons_of_not_isStep noStep, List.foldlM_cons]
      constructor
      · rintro ⟨-, middle, taken, sound⟩
        obtain ⟨objects, others, sound⟩ := (ih (d := { d with objects := middle }) before each).mp sound
        exact ⟨objects, Outcome.bind_eq_ok_iff.mpr ⟨middle, taken, others⟩, sound⟩
      · rintro ⟨objects, taken, sound⟩
        obtain ⟨middle, first, others⟩ := Outcome.bind_eq_ok_iff.mp taken
        exact ⟨Bool.eq_false_iff.mp noFunction, middle, first,
          (ih (d := { d with objects := middle }) before each).mpr ⟨objects, others, sound⟩⟩

theorem steps_of_assigning (each : ∀ s ∈ statements, s.isAssigning) :
    steps true statements = statements.filter (·.isAssignment) ∧
      describe (steps true statements) = describe statements := by
  have noCommand : ∀ s ∈ statements, (s.isCommand || s.isAssignment) = s.isAssignment := by
    intro s member
    rw [(Statement.isSetting_kinds (Statement.isSetting_of_isAssigning (each s member))).1, Bool.false_or]
  have same : steps true statements = statements.filter (·.isAssignment) := by
    rw [steps_true]
    exact List.filter_congr noCommand
  refine ⟨same, ?_⟩
  rw [same, describe, describe, List.filterMap_filter]
  refine List.filterMap_congr fun s member => ?_
  rcases Statement.isAssigning_iff.mp (each s member) with assignment | comment
  · rw [assignment, if_pos rfl]
  · rw [(Statement.of_comment comment).1, ite_self]

/-- In the mission sequence assignments set nothing; they are commands. -/
theorem SoundFrom.of_assigning (sound : SoundFrom d statements store) (inMission : d.inMission = true)
    (each : ∀ s ∈ statements, s.isAssigning) :
    store = d.objects ∧ ∀ s ∈ statements, s.isAssignment → s.command?.isSome := by
  have noDefinition : statements.filter (·.isDefinition) = [] := by
    rw [List.filter_eq_nil_iff]
    intro s member
    have assigning := each s member
    obtain ⟨reading, parts, span⟩ := s
    cases parts with
    | definition => cases assigning
    | _ => exact Bool.false_ne_true
  have configures := sound.configures
  have builds := sound.builds
  rw [inMission, settings_true, noDefinition] at configures
  rw [inMission, (steps_of_assigning each).1] at builds
  cases configures
  exact ⟨rfl, fun s member assignment => builds s (List.mem_filter.mpr ⟨member, assignment⟩)⟩

end Draft

namespace Mission

variable {source : Nat} {statements : List Statement} {store : Store}

/-- A script that only sets objects is accepted if its statements can be taken one after the other. -/
theorem exists_of_settings (each : ∀ s ∈ statements, s.isSetting)
    (taken : statements.foldlM Store.take .empty = .ok store) :
    ∃ m, ofStatements source statements = .ok m ∧ m.objects = store := by
  have start : (Draft.start .empty).objects = .empty ∧ (Draft.start .empty).inMission = false ∧
      (Draft.start .empty).frames = [] := by
    rw [Draft.start_eq]
    exact ⟨rfl, rfl, rfl⟩
  have sound : Draft.SoundFrom (.start .empty) (statements ++ []) store := by
    refine (Draft.SoundFrom.append_settings start.2.1 each).mpr ⟨store, ?_, Draft.SoundFrom.nil.mpr rfl⟩
    rw [start.1]
    exact taken
  rw [List.append_nil] at sound
  have none : missionCommands statements = [] := by
    have noCommand : statements.dropWhile (!·.isCommand) = [] := by
      refine List.dropWhile_eq_nil_iff.mpr fun s member => ?_
      rw [(Statement.isSetting_kinds (each s member)).1]
      rfl
    rw [missionCommands, missionStatements, noCommand]
    rfl
  have places : Draft.Places (.start .empty) (missionCommands statements) (Draft.start .empty).arena [] := by
    rw [none, Draft.places_nil]
    exact ⟨rfl, start.2.2.symm⟩
  exact ⟨_, ofStatements_eq_ok_iff.mpr ⟨store, _, sound, places, rfl⟩, rfl⟩

end Mission

end MissionScript
