import MissionScript.Command.Basic
import MissionScript.Proofs.Script.Instruction
import MissionScript.Proofs.Step
import MissionScript.Proofs.Text

/-!
# Commands and their instructions

A line makes a command through its instruction alone, and there are four ways in which an instruction
can describe a command.
-/

namespace MissionScript

namespace Text

/-- The keyword in front of an instruction. -/
def keywordPart (instruction : Text) : Text :=
  instruction.trim.takeWhile fun c => !(isBlank c || c == '(')

/-- What follows the keyword. -/
def argumentsPart (instruction : Text) : Text :=
  trim (instruction.trim.dropWhile fun c => !(isBlank c || c == '('))

/-- The keyword of a command is the word in front, and it is one of the keywords. -/
theorem keywordPart_of_shape {keywords : Keywords} {instruction : Text}
    (trimmed : instruction.Trimmed) (shape : shapeOf keywords instruction = .command) :
    instruction.keywordPart = instruction.takeWhile isWordChar ∧
      keywords.contains instruction.keywordPart := by
  unfold shapeOf at shape
  dsimp only at shape
  split at shape
  · cases shape
  split at shape
  · cases shape
  split at shape
  · rename_i known
    obtain ⟨ends, known⟩ := Bool.and_eq_true_iff.mp known
    have same : instruction.keywordPart = instruction.takeWhile isWordChar := by
      rw [keywordPart, trimmed.trim]
      refine takeWhile_eq_takeWhile (fun c word => ?_) instruction fun c next => ?_
      · have other : (c == '(') = false := by
          rw [beq_eq_false_iff_ne]
          rintro rfl
          cases word
        rw [isBlank_of_isWordChar word, other]
        rfl
      · rw [Option.mem_def] at next
        rw [next] at ends
        rw [Bool.not_eq_false']
        exact ends
    exact ⟨same, same ▸ known⟩
  · split at shape
    · split at shape <;> cases shape
    · split at shape <;> cases shape

end Text

/-- The command that an instruction describes. -/
inductive Command.Described (keywords : Keywords) (instruction : Text) : Command → Prop
  | assignment {left right : Text} {body : CommandBody}
      (shape : shapeOf keywords instruction = .assignment)
      (cut : splitAssignment instruction = some (left, right)) (filledLeft : left.trim ≠ [])
      (filledRight : right.trim ≠ [])
      (read : CommandBody.parseAssignment left.trim right.trim = .ok body) :
      Described keywords instruction
        { kind := .assignment
          typeName := CommandKind.assignment.name
          generating := instruction ++ [';']
          body }
  | callWithOutputs {left right : Text} {body : CommandBody}
      (shape : shapeOf keywords instruction = .call)
      (cut : splitAssignment instruction = some (left, right)) (filledLeft : left.trim ≠ [])
      (filledRight : right.trim ≠ [])
      (read : (FunctionCall.parse left.trim right.trim).map .call = .ok body) :
      Described keywords instruction
        { kind := .callFunction
          typeName := CommandKind.callFunction.name
          generating := instruction ++ [';']
          body }
  | call {body : CommandBody} (shape : shapeOf keywords instruction = .call)
      (cut : splitAssignment instruction = none)
      (read : (FunctionCall.parse [] instruction.trim).map .call = .ok body) :
      Described keywords instruction
        { kind := .callFunction
          typeName := CommandKind.callFunction.name
          generating := instruction ++ [';']
          body }
  | keyword {body : CommandBody} (shape : shapeOf keywords instruction = .command)
      (filled : instruction.keywordPart ≠ [])
      (read : CommandBody.parse (.ofKeyword instruction.keywordPart)
        (splitLabel instruction.argumentsPart).2 = .ok body) :
      Described keywords instruction
        { kind := .ofKeyword instruction.keywordPart
          typeName := instruction.keywordPart
          label := (splitLabel instruction.argumentsPart).1
          generating := instruction ++ [';']
          body }

namespace Reading

theorem parts_eq {keywords : Keywords} {r : Reading}
    (shape : r.shape = shapeOf keywords r.instruction) :
    r.parts = (ofInstruction keywords r.instruction).parts := by
  cases r with
  | mk preface remark instruction s =>
      dsimp only at shape
      rw [ofInstruction, ← shape]
      cases s with
      | comment => rfl
      | definition => rfl
      | command => rfl
      | call => rfl
      | assignment => rfl
      | function => simp only [parts, functionParts, fault]

variable {r : Reading} {parts : Parts}

theorem definition_of_definitionParts (cut : r.definitionParts = .ok parts) :
    ∃ objectType names, parts = .definition objectType names := by
  unfold definitionParts at cut
  dsimp only at cut
  split at cut
  · cases cut
  split at cut
  · cases cut
  split at cut
  · cases cut
  split at cut
  · cases cut
  cases cut
  exact ⟨_, _, rfl⟩

theorem function_of_functionParts (cut : r.functionParts = .ok parts) :
    ∃ outputs name inputs, parts = .function outputs name inputs := by
  unfold functionParts at cut
  extract_lets rest at cut
  cases splitAssignment rest
  all_goals
    dsimp only at cut
    repeat' split at cut
    all_goals first
      | exact ⟨_, _, _, (Except.ok.inj cut).symm⟩
      | cases cut

theorem commandParts_eq (filled : r.instruction.keywordPart ≠ []) :
    r.commandParts = .ok (.command r.instruction.keywordPart
      (if r.instruction.argumentsPart.isEmpty then none else some r.instruction.argumentsPart)) := by
  unfold commandParts
  dsimp only
  rw [Text.drop_takeWhile]
  exact if_neg (mt List.isEmpty_iff.mp filled)

theorem keyword_of_commandParts (cut : r.commandParts = .ok parts) :
    r.instruction.keywordPart ≠ [] := by
  unfold commandParts at cut
  dsimp only at cut
  split at cut
  · cases cut
  rename_i filled
  exact mt List.isEmpty_iff.mpr filled

theorem sides_eq_ok_iff {make : Text → Text → Parts} {left right : Text} :
    r.sides make left right = .ok parts ↔
      left.trim ≠ [] ∧ right.trim ≠ [] ∧ parts = make left.trim right.trim := by
  unfold sides
  constructor
  · intro cut
    split at cut
    · cases cut
    rename_i filledLeft
    split at cut
    · cases cut
    rename_i filledRight
    cases cut
    exact ⟨mt List.isEmpty_iff.mpr filledLeft, mt List.isEmpty_iff.mpr filledRight, rfl⟩
  · rintro ⟨filledLeft, filledRight, rfl⟩
    rw [if_neg (mt List.isEmpty_iff.mp filledLeft), if_neg (mt List.isEmpty_iff.mp filledRight)]

end Reading

variable {keywords : Keywords} {instruction : Text} {c : Command}

/-- The statement of an instruction that stands alone. -/
def Statement.ofInstruction (keywords : Keywords) (instruction : Text) (parts : Parts) : Statement where
  reading := .ofInstruction keywords instruction
  parts

namespace Command

theorem ofKeyword_eq_ok_iff {keyword arguments generating : Text} :
    ofKeyword keyword arguments generating = .ok c ↔
      ∃ body, CommandBody.parse (.ofKeyword keyword) (splitLabel arguments).2 = .ok body ∧
        c = { kind := .ofKeyword keyword
              typeName := keyword
              label := (splitLabel arguments).1
              generating
              body } := by
  unfold ofKeyword
  dsimp only
  rw [Outcome.bind_eq_ok_iff]
  constructor
  · rintro ⟨body, read, made⟩
    exact ⟨body, Outcome.mapError_eq_ok_iff.mp read, (Except.ok.inj made).symm⟩
  · rintro ⟨body, read, rfl⟩
    exact ⟨body, Outcome.mapError_eq_ok_iff.mpr read, rfl⟩

section Statements

variable {left right : Text}

theorem ofStatement_assignment_iff :
    ofStatement (.ofInstruction keywords instruction (.assignment left right)) = .ok c ↔
      ∃ body, CommandBody.parseAssignment left right = .ok body ∧
        c = { kind := .assignment
              typeName := CommandKind.assignment.name
              generating := instruction ++ [';']
              body } := by
  unfold ofStatement
  dsimp only [Statement.ofInstruction]
  split
  · rename_i body read
    rw [read]
    constructor
    · intro made
      exact ⟨body, rfl, (Except.ok.inj made).symm⟩
    · rintro ⟨other, same, rfl⟩
      rw [Except.ok.inj same]
      rfl
  · rename_i cause read
    rw [read]
    constructor
    · intro failed
      cases failed
    · rintro ⟨_, failed, _⟩
      cases failed

theorem ofStatement_call_iff :
    ofStatement (.ofInstruction keywords instruction (.call left right)) = .ok c ↔
      ∃ body, (FunctionCall.parse left right).map .call = .ok body ∧
        c = { kind := .callFunction
              typeName := CommandKind.callFunction.name
              generating := instruction ++ [';']
              body } := by
  unfold ofStatement
  dsimp only [Statement.ofInstruction]
  split
  · rename_i body read
    rw [read]
    constructor
    · intro made
      exact ⟨body, rfl, (Except.ok.inj made).symm⟩
    · rintro ⟨other, same, rfl⟩
      rw [Except.ok.inj same]
      rfl
  · rename_i cause read
    rw [read]
    constructor
    · intro failed
      cases failed
    · rintro ⟨_, failed, _⟩
      cases failed

end Statements

theorem getD_arguments (arguments : Text) :
    (if arguments.isEmpty then none else some arguments).getD [] = arguments := by
  split
  · rename_i empty
    exact (List.isEmpty_iff.mp empty).symm
  · rfl

theorem ofStatement_command (keyword arguments : Text) :
    ofStatement (.ofInstruction keywords instruction
        (.command keyword (if arguments.isEmpty then none else some arguments))) =
      ofKeyword keyword arguments (instruction ++ [';']) := by
  change ofKeyword keyword (Option.getD _ []) _ = _
  rw [getD_arguments]
  rfl

end Command

/-- The statement of an instruction describes the command in one of the four ways. -/
theorem Command.described_of_ofStatement {parts : Parts}
    (cut : (Reading.ofInstruction keywords instruction).parts = .ok parts)
    (built : ofStatement (.ofInstruction keywords instruction parts) = .ok c) :
    Described keywords instruction c := by
  unfold Reading.parts at cut
  split at cut
  · cases cut
    cases built
  · obtain ⟨_, _, rfl⟩ := Reading.definition_of_definitionParts cut
    cases built
  · rename_i shape
    have filled := Reading.keyword_of_commandParts cut
    rw [Reading.commandParts_eq filled] at cut
    cases cut
    rw [ofStatement_command] at built
    obtain ⟨body, read, rfl⟩ := ofKeyword_eq_ok_iff.mp built
    exact .keyword shape filled read
  · rename_i shape
    split at cut
    · rename_i left right found
      obtain ⟨filledLeft, filledRight, rfl⟩ := Reading.sides_eq_ok_iff.mp cut
      obtain ⟨body, read, rfl⟩ := ofStatement_call_iff.mp built
      exact .callWithOutputs shape found filledLeft filledRight read
    · rename_i found
      cases cut
      obtain ⟨body, read, rfl⟩ := ofStatement_call_iff.mp built
      exact .call shape found read
  · rename_i shape
    split at cut
    · rename_i left right found
      obtain ⟨filledLeft, filledRight, rfl⟩ := Reading.sides_eq_ok_iff.mp cut
      obtain ⟨body, read, rfl⟩ := ofStatement_assignment_iff.mp built
      exact .assignment shape found filledLeft filledRight read
    · cases cut
  · obtain ⟨_, _, _, rfl⟩ := Reading.function_of_functionParts cut
    cases built

theorem Command.Described.ofStatement (described : Described keywords instruction c) :
    ∃ parts, (Reading.ofInstruction keywords instruction).parts = .ok parts ∧
      Command.ofStatement (.ofInstruction keywords instruction parts) = .ok c := by
  cases described with
  | assignment shape cut filledLeft filledRight read =>
      rename_i left right body
      refine ⟨.assignment left.trim right.trim, ?_, ofStatement_assignment_iff.mpr ⟨_, read, rfl⟩⟩
      simp only [Reading.parts, Reading.ofInstruction, shape, cut]
      exact Reading.sides_eq_ok_iff.mpr ⟨filledLeft, filledRight, rfl⟩
  | callWithOutputs shape cut filledLeft filledRight read =>
      rename_i left right body
      refine ⟨.call left.trim right.trim, ?_, ofStatement_call_iff.mpr ⟨_, read, rfl⟩⟩
      simp only [Reading.parts, Reading.ofInstruction, shape, cut]
      exact Reading.sides_eq_ok_iff.mpr ⟨filledLeft, filledRight, rfl⟩
  | call shape cut read =>
      refine ⟨.call [] instruction.trim, ?_, ofStatement_call_iff.mpr ⟨_, read, rfl⟩⟩
      simp only [Reading.parts, Reading.ofInstruction, shape, cut]
  | keyword shape filled read =>
      refine ⟨_, ?_, (ofStatement_command _ _).trans (ofKeyword_eq_ok_iff.mpr ⟨_, read, rfl⟩)⟩
      simp only [Reading.parts, Reading.ofInstruction, shape]
      exact Reading.commandParts_eq filled

/-! ### Lines -/

namespace Command

theorem ofStatement_congr {s s' : Statement} (instruction : s.instruction = s'.instruction)
    (parts : s.parts = s'.parts) : ofStatement s = ofStatement s' := by
  unfold ofStatement
  rw [instruction, parts]

/-- A line that describes a command does so through an instruction. -/
theorem described_of_ofLine {line : Text} (read : ofLine keywords line = .ok c) :
    ∃ instruction, IsInstruction instruction ∧ Described keywords instruction c := by
  unfold ofLine at read
  split at read
  · rename_i s block
    obtain ⟨reading, lines, block⟩ := Outcome.bind_eq_ok_iff.mp block
    obtain ⟨parts, cut, made⟩ := Outcome.bind_eq_ok_iff.mp block
    cases made
    rw [Reading.ofBlock] at lines
    split at lines
    · cases lines
    cases lines
    rcases readLines_shape keywords [] endsOnce_of_mem_blockLines with comment | ⟨proper, shape⟩
    · rw [Reading.parts, comment] at cut
      cases cut
      cases read
    · refine ⟨_, proper, ?_⟩
      rw [Reading.parts_eq shape] at cut
      exact described_of_ofStatement cut read
  · cases read

/-- A command that an instruction describes is read from the line of the instruction. -/
theorem Described.ofLine (described : Described keywords instruction c)
    (proper : IsInstruction instruction) (last : instruction.getLast? ≠ some ';')
    (here : ¬ IsRemote (instruction ++ [';'])) :
    Command.ofLine keywords (instruction ++ [';']) = .ok c := by
  obtain ⟨parts, cut, built⟩ := described.ofStatement
  have block : Statement.ofBlock keywords (instruction ++ [';']) =
      .ok (.ofInstruction keywords instruction parts) := by
    rw [Statement.ofBlock, Reading.ofBlock_instruction proper last here]
    exact Outcome.bind_eq_ok_iff.mpr ⟨_, rfl, Outcome.bind_eq_ok_iff.mpr ⟨parts, cut, rfl⟩⟩
  rw [Command.ofLine, block]
  exact built

end Command

end MissionScript
