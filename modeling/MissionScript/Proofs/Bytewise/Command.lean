import MissionScript.Proofs.Bytewise.Condition
import MissionScript.Proofs.Bytewise.Decompose
import MissionScript.Proofs.Bytewise.Statement
import MissionScript.Proofs.Renaming.Body

/-!
# Commands by offsets

The label in front of the arguments, the relation of a constraint and the name of a function are cut off at
offsets; the rest of a command is read by the readers of its parts. A relation of two characters is cut off by
its width, though the second of them may be another one than the next in the text: literals are passed over.
What then stands next in the text is the quote that starts the literal, which is one byte as well.
-/

namespace MissionScript

namespace Bytewise

variable {text whole : Text} {done : List Glyph}

/-! ### Labels -/

/-- Split a leading quoted label off the arguments of a command. -/
def splitLabel (source : Text) : Option (Option Text × Text) := do
  let arguments := source.trim
  match Text.after? ['\''] arguments with
  | none => return (none, arguments)
  | some rest =>
    match ← cutAround '\'' rest with
    | some (label, rest) => return (some label, rest.trim)
    | none => return (none, arguments)

theorem splitLabel_eq (source : Text) : splitLabel source = some (MissionScript.splitLabel source) := by
  rw [splitLabel]
  cases behind : Text.after? ['\''] source.trim with
  | none =>
      have unquoted := Text.after?_eq_none_iff.mp behind
      have plain : (source.trim.head? == some '\'') = false := by
        rw [beq_eq_false_iff_ne]
        intro quoted
        obtain ⟨rest, whole⟩ := List.head?_eq_some_iff.mp quoted
        exact unquoted rest whole
      rw [splitLabel_plain plain]
      rfl
  | some rest =>
      have quoted := Text.after?_eq_some_iff.mp behind
      dsimp only
      rw [cutAround_eq rfl]
      cases cut : Text.cutAt '\'' rest with
      | none =>
          rw [splitLabel_open quoted cut]
          rfl
      | some sides =>
          rw [splitLabel_quoted quoted cut]
          rfl

/-! ### Arguments that are operands or expressions -/

/-- Read an operand as an argument. -/
def operandArgument (text : Text) : ExceptT ArgumentError Option Operand := ExceptT.adapt .operand (operand text)

theorem operandArgument_eq (text : Text) :
    operandArgument text = given ((Operand.parse text).mapError .operand) := by
  rw [operandArgument, operand_eq, adapt_given]

/-- Read an expression as an argument. -/
def expressionArgument (text : Text) : ExceptT ArgumentError Option Expression :=
  ExceptT.adapt .expression (expression text)

theorem expressionArgument_eq (text : Text) :
    expressionArgument text = given ((Expression.parse text).mapError .expression) := by
  rw [expressionArgument, expression_eq, adapt_given]

/-- Read the range of a loop. -/
def loopRange (text : Text) : ExceptT ArgumentError Option LoopRange :=
  match text.cutAt '=' with
  | none => throw (.noLoopIndex text.trim)
  | some (index, range) => do
    let index ← operandArgument index
    if index.isNumber then throw .numberAsIndex
    else
      match range.splitOn ':' with
      | [start, stop] => do
        let start ← expressionArgument start
        let stop ← expressionArgument stop
        return { index, start, step := none, stop }
      | [start, step, stop] => do
        let start ← expressionArgument start
        let step ← expressionArgument step
        let stop ← expressionArgument stop
        return { index, start, step := some step, stop }
      | _ => throw (.badRange range.trim)

theorem loopRange_eq (text : Text) : loopRange text = given (LoopRange.parse text) := by
  rw [loopRange, LoopRange.parse]
  cases text.cutAt '=' with
  | none => rfl
  | some sides =>
      obtain ⟨index, range⟩ := sides
      dsimp only
      rw [operandArgument_eq]
      refine given_bind _ fun index _ => ?_
      split
      · rfl
      · match range.splitOn ':' with
        | [] => rfl
        | [single] => rfl
        | [start, stop] =>
            dsimp only
            rw [expressionArgument_eq, expressionArgument_eq]
            exact given_bind _ fun _ _ => given_bind _ fun _ _ => rfl
        | [start, step, stop] =>
            dsimp only
            rw [expressionArgument_eq, expressionArgument_eq, expressionArgument_eq]
            exact given_bind _ fun _ _ => given_bind _ fun _ _ => given_bind _ fun _ _ => rfl
        | _ :: _ :: _ :: _ :: _ => rfl

/-! ### Solvers -/

/-- The solver of a loop and its option block, if there is one. -/
def splitSolver (arguments : Text) : ExceptT ArgumentError Option (Text × Option Text) := do
  match ← ExceptT.adapt .parse (decompose .brace false false arguments) with
  | [] => throw .solverMissing
  | [solver] => return (solver, none)
  | [solver, options] =>
    if options.head? == some '\x7b' then return (solver, some options)
    else throw (.badSolverLoop arguments.trim)
  | _ => throw (.badSolverLoop arguments.trim)

theorem splitSolver_eq (arguments : Text) : splitSolver arguments = given (SolverLoop.split arguments) := by
  rw [splitSolver, SolverLoop.split, decompose_eq, adapt_given]
  refine given_bind _ fun pieces _ => ?_
  match pieces with
  | [] => rfl
  | [solver] => rfl
  | [solver, options] =>
      dsimp only
      split <;> rfl
  | _ :: _ :: _ :: _ => rfl

/-- Read the arguments of a solver loop. -/
def solverLoop (arguments : Text) : ExceptT ArgumentError Option SolverLoop := do
  let (solver, options) ← splitSolver arguments
  if !solver.isIdentifier then throw (.badSolverName solver)
  else
    match options with
    | none => return { solver }
    | some options =>
      let entries ← ExceptT.adapt .parse (separateGroup .brace [','] true options)
      given (entries.foldlM SolverLoop.addEntry { solver })

theorem solverLoop_eq (arguments : Text) : solverLoop arguments = given (SolverLoop.parse arguments) := by
  rw [solverLoop, SolverLoop.parse, splitSolver_eq]
  refine given_bind _ fun parts _ => ?_
  obtain ⟨solver, options⟩ := parts
  dsimp only
  split
  · rfl
  cases options with
  | none => rfl
  | some options =>
      dsimp only
      rw [separateGroup_eq, adapt_given]
      exact given_bind _ fun _ _ => rfl

/-- Cut `solver(argument)` into the solver and its single argument. -/
def splitSolverCall (source : Text) : ExceptT ArgumentError Option (Text × Text) :=
  let arguments := source.trim
  if arguments.any "[]\x7b\x7d".toList.contains then throw (.bracketsNotAllowed arguments)
  else do
    given ((checkBalance arguments).mapError .parse)
    match ← ExceptT.adapt .parse (decompose .paren false false arguments) with
    | [solver, group] =>
      if !solver.isIdentifier then throw (.badSolverName solver)
      else
        match ← ExceptT.adapt .parse (separateGroup .paren [','] true group) with
        | [argument] => return (solver, argument)
        | [] => throw (.solverArgumentMissing arguments)
        | _ => throw (.severalSolverArguments arguments)
    | _ => throw (.badSolverCall arguments)

theorem splitSolverCall_eq (source : Text) :
    splitSolverCall source = given (MissionScript.splitSolverCall source) := by
  rw [splitSolverCall, MissionScript.splitSolverCall]
  dsimp only
  generalize source.trim = arguments
  split
  · rfl
  refine given_bind _ fun _ _ => ?_
  rw [decompose_eq, adapt_given]
  refine given_bind _ fun pieces _ => ?_
  match pieces with
  | [] => rfl
  | [single] => rfl
  | [solver, group] =>
      dsimp only
      split
      · rfl
      rw [separateGroup_eq, adapt_given]
      refine given_bind _ fun arguments _ => ?_
      match arguments with
      | [] => rfl
      | [argument] => rfl
      | _ :: _ :: _ => rfl
  | _ :: _ :: _ :: _ => rfl

/-- Read an objective. -/
def objective (arguments : Text) : ExceptT ArgumentError Option Objective := do
  let (solver, name) ← splitSolverCall arguments
  let operand ← operandArgument name
  if operand.isNumber then throw (.numberAsObjective name)
  else return { solver, name, operand }

theorem objective_eq (arguments : Text) : objective arguments = given (Objective.parse arguments) := by
  rw [objective, Objective.parse, splitSolverCall_eq]
  refine given_bind _ fun parts _ => ?_
  dsimp only
  rw [operandArgument_eq]
  refine given_bind _ fun operand _ => ?_
  split <;> rfl

/-! ### Constraints -/

/-- Where the first relation of a constraint stands, how wide it is, and what it asks for. -/
def findConstraint (whole : Text) : List (Nat × Char) → Except ArgumentError (Nat × Nat × ConstraintKind)
  | [] => .error (.noConstraintRelation whole)
  | (i, c) :: rest =>
    let followed := rest.head?.any (·.2 == '=')
    if c == '<' then if followed then .ok (i, 2, .lessOrEqual) else .error (.strictInequality whole)
    else if c == '>' then if followed then .ok (i, 2, .greaterOrEqual) else .error (.strictInequality whole)
    else if c == '=' then .ok (i, if followed then 2 else 1, .equality)
    else findConstraint whole rest

/-- Cut a constraint at the first of these characters that is a relation. -/
def cutConstraint (text whole : Text) (places : List (Nat × Char)) :
    ExceptT ArgumentError Option (Text × ConstraintKind × Text) := do
  let (i, width, kind) ← given (findConstraint whole places)
  return (← text.slice? ⟨0, i⟩, kind, ← text.slice? ⟨i + width, text.bytes⟩)

/-- Cut a constraint at its relation. -/
def splitConstraint (text : Text) : ExceptT ArgumentError Option (Text × ConstraintKind × Text) :=
  cutConstraint text text text.free

/-- What stands behind a relation of two characters: the second is the next character, or the next character
starts a literal. -/
theorem slice_followed {g : Glyph} {rest : List Glyph} (read : text.Read done [] (g :: rest)) (free : g.isFree)
    (single : g.char.utf8Size = 1) (double : followed rest) :
    text.slice? ⟨(Text.ofGlyphs done).bytes + 2, text.bytes⟩ = some (Text.ofGlyphs (rest.drop 1)) := by
  have outside := read.outside free
  have behind := read.next.cut
  cases rest with
  | nil => cases double
  | cons next rest =>
      have size : next.char.utf8Size = 1 := by
        by_cases quote : next.char = '\''
        · rw [quote]
          rfl
        · rw [followed, List.find?_cons_of_pos (outside.free quote)] at double
          rw [beq_iff_eq.mp double]
          rfl
      have cut := behind.next.cut.slice_rest
      rw [List.nil_append, List.nil_append, List.nil_append, Text.bytes_ofGlyphs_concat, Text.bytes_ofGlyphs_concat,
        single, size, Nat.add_assoc] at cut
      exact cut

theorem cutConstraint_of_ok {places : List (Nat × Char)} {i width : Nat} {kind : ConstraintKind}
    {left right : Text} (found : findConstraint whole places = .ok (i, width, kind))
    (front : text.slice? ⟨0, i⟩ = some left) (behind : text.slice? ⟨i + width, text.bytes⟩ = some right) :
    cutConstraint text whole places = given (.ok (left, kind, right)) := by
  rw [cutConstraint, found, given_ok_bind]
  dsimp only
  rw [front, behind]
  rfl

theorem cutConstraint_of_error {places : List (Nat × Char)} {e : ArgumentError}
    (found : findConstraint whole places = .error e) : cutConstraint text whole places = given (.error e) := by
  rw [cutConstraint, found]
  rfl

theorem findConstraint_placesOf {offset : Nat} {g : Glyph} {rest : List Glyph} (free : g.isFree) :
    findConstraint whole (placesOf Glyph.isFree offset (g :: rest)) =
      if g.char == '<' then
        if followed rest then .ok (offset, 2, .lessOrEqual) else .error (.strictInequality whole)
      else if g.char == '>' then
        if followed rest then .ok (offset, 2, .greaterOrEqual) else .error (.strictInequality whole)
      else if g.char == '=' then .ok (offset, if followed rest then 2 else 1, .equality)
      else findConstraint whole (placesOf Glyph.isFree (offset + g.char.utf8Size) rest) := by
  rw [placesOf_cons, if_pos free, findConstraint, followed_eq]

/-- Where there is no relation, the search goes on behind the character. -/
theorem findConstraint_other {offset : Nat} {g : Glyph} {rest : List Glyph}
    (other : (g.isFree && ['<', '>', '='].contains g.char) = false) :
    findConstraint whole (placesOf Glyph.isFree offset (g :: rest)) =
      findConstraint whole (placesOf Glyph.isFree (offset + g.char.utf8Size) rest) := by
  cases free : g.isFree with
  | false => rw [placesOf_cons, free, if_neg Bool.false_ne_true]
  | true =>
      rw [free, Bool.true_and, Bool.eq_false_iff, ne_eq, List.contains_iff_mem] at other
      simp only [List.mem_cons, List.not_mem_nil, or_false, not_or] at other
      rw [findConstraint_placesOf free]
      simp [other]

theorem cutConstraint_eq (whole : Text) {gs : List Glyph} (read : text.Read done [] gs) :
    cutConstraint text whole (placesOf Glyph.isFree (Text.ofGlyphs done).bytes gs) =
      given ((MissionScript.splitConstraint whole gs).map fun x => (Text.ofGlyphs done ++ x.1, x.2)) := by
  induction gs generalizing done with
  | nil => rfl
  | cons g rest ih =>
      have front : text.slice? ⟨0, (Text.ofGlyphs done).bytes⟩ = some (Text.ofGlyphs done ++ []) := by
        rw [read.text_eq, List.append_nil]
        exact Text.slice?_front ..
      by_cases marked : (g.isFree && ['<', '>', '='].contains g.char) = true
      · obtain ⟨free, among⟩ := Bool.and_eq_true_iff.mp marked
        rw [List.contains_iff_mem] at among
        simp only [List.mem_cons, List.not_mem_nil, or_false] at among
        have single : g.char.utf8Size = 1 := by
          rcases among with same | same | same <;> rw [same] <;> rfl
        have found := @findConstraint_placesOf whole (Text.ofGlyphs done).bytes g rest free
        have two (double : followed rest) := slice_followed read free single double
        have one := read.next.cut.slice_rest
        rw [List.nil_append, List.nil_append, Text.bytes_ofGlyphs_concat, single] at one
        rcases among with less | greater | equal
        · rw [splitConstraint_less free less]
          rw [less] at found
          cases double : followed rest with
          | false => exact cutConstraint_of_error (by simpa [double] using found)
          | true => exact cutConstraint_of_ok (by simpa [double] using found) front (two double)
        · rw [splitConstraint_greater free greater]
          rw [greater] at found
          cases double : followed rest with
          | false => exact cutConstraint_of_error (by simpa [double] using found)
          | true => exact cutConstraint_of_ok (by simpa [double] using found) front (two double)
        · rw [splitConstraint_equal free equal]
          rw [equal] at found
          cases double : followed rest with
          | false => exact cutConstraint_of_ok (by simpa [double] using found) front one
          | true => exact cutConstraint_of_ok (by simpa [double] using found) front (two double)
      · rw [Bool.not_eq_true] at marked
        have further := ih read.next.cut
        rw [List.nil_append, Text.bytes_ofGlyphs_concat, cutConstraint] at further
        have goesOn : (MissionScript.splitConstraint whole (g :: rest)).map
            (fun x => (Text.ofGlyphs done ++ x.1, x.2)) =
              (MissionScript.splitConstraint whole rest).map fun x => (Text.ofGlyphs (done ++ [g]) ++ x.1, x.2) := by
          rw [splitConstraint_other marked, Text.ofGlyphs_append]
          cases MissionScript.splitConstraint whole rest with
          | error e => rfl
          | ok sides => simp [Except.map, Text.ofGlyphs]
        rw [cutConstraint, findConstraint_other marked, goesOn, further]

theorem splitConstraint_eq (text : Text) :
    splitConstraint text = given (MissionScript.splitConstraint text text.glyphs) := by
  refine (cutConstraint_eq text (.start text)).trans (congrArg given ?_)
  cases MissionScript.splitConstraint text text.glyphs <;> rfl

example : splitConstraint "x<'é'=3".toList = given (.ok ("x".toList, .lessOrEqual, "é'=3".toList)) := by rfl

/-- Read a constraint. -/
def constraint (arguments : Text) : ExceptT ArgumentError Option Constraint := do
  let (solver, text) ← splitSolverCall arguments
  let (left, kind, right) ← splitConstraint text
  let name := left.trim
  let boundName := right.trim
  if name.isEmpty || boundName.isEmpty then throw (.incompleteConstraint text)
  else
    let operand ← operandArgument name
    if operand.isNumber then throw (.numberAsConstrained name)
    else
      let bound ← expressionArgument boundName
      return { solver, name, operand, kind, boundName, bound }

theorem constraint_eq (arguments : Text) : constraint arguments = given (Constraint.parse arguments) := by
  rw [constraint, Constraint.parse, splitSolverCall_eq]
  refine given_bind _ fun parts _ => ?_
  obtain ⟨solver, text⟩ := parts
  dsimp only
  rw [splitConstraint_eq]
  refine given_bind _ fun sides _ => ?_
  obtain ⟨left, kind, right⟩ := sides
  dsimp only
  split
  · rfl
  rw [operandArgument_eq]
  refine given_bind _ fun operand _ => ?_
  split
  · rfl
  rw [expressionArgument_eq]
  exact given_bind _ fun _ _ => rfl

/-! ### Function calls -/

/-- The pieces of an argument list in brackets. -/
def argumentList (family : Bracket) (delimiters text : Text) : ExceptT ArgumentError Option (List Text) :=
  ExceptT.adapt (fun e => .argumentList e.cause) (separateGroup family delimiters true text)

theorem argumentList_eq (family : Bracket) (delimiters text : Text) :
    argumentList family delimiters text = given (FunctionCall.argumentList family delimiters text) := by
  rw [argumentList, separateGroup_eq, adapt_given]
  rfl

/-- Read the inputs of a function call. -/
def readInputs (arguments : Text) : ExceptT ArgumentError Option (List Text) :=
  if arguments.isEmpty then return [] else argumentList .paren [','] arguments

theorem readInputs_eq (arguments : Text) : readInputs arguments = given (FunctionCall.readInputs arguments) := by
  rw [readInputs, FunctionCall.readInputs, argumentList_eq]
  split <;> rfl

/-- Read the outputs in front of a function call. -/
def readOutputs (outputs : Text) : ExceptT ArgumentError Option (List Text) :=
  if outputs.head? == some '[' then argumentList .square [',', ' '] outputs
  else if outputs.isEmpty then return []
  else return [outputs]

theorem readOutputs_eq (outputs : Text) : readOutputs outputs = given (FunctionCall.readOutputs outputs) := by
  rw [readOutputs, FunctionCall.readOutputs, argumentList_eq]
  split
  · rfl
  split <;> rfl

/-- Read a function call. -/
def functionCall (outputs signature : Text) : ExceptT ArgumentError Option FunctionCall := do
  let (name, arguments) ← cutBefore (· == '(') signature.trim
  let name := name.trim
  if !name.isIdentifier then throw (.badFunctionName name)
  else
    let inputs ← readInputs arguments
    let outputs ← readOutputs outputs.trim
    return { name, outputs, inputs }

theorem functionCall_eq (outputs signature : Text) :
    functionCall outputs signature = given (FunctionCall.parse outputs signature) := by
  rw [functionCall, FunctionCall.parse_eq, cutBefore_eq, lift_some, given_ok_bind]
  dsimp only [bne]
  split
  · rfl
  rw [readInputs_eq, readOutputs_eq]
  exact given_bind _ fun _ _ => given_bind _ fun _ _ => rfl

/-! ### Commands -/

/-- Read the arguments of a keyword. -/
def keywordBody (kind : CommandKind) (arguments : Text) : ExceptT ArgumentError Option CommandBody :=
  match kind with
  | .ifThen | .whileLoop => return .condition (← condition arguments)
  | .forLoop => return .range (← loopRange arguments)
  | .optimize | .target => return .solverLoop (← solverLoop arguments)
  | .minimize => return .objective (← objective arguments)
  | .nonlinearConstraint => return .constraint (← constraint arguments)
  | .generic => return .generic arguments.trim
  | _ => if arguments.isEmpty then return .structural else throw (.unexpectedArguments arguments)

theorem keywordBody_eq (kind : CommandKind) (arguments : Text) :
    keywordBody kind arguments = given (CommandBody.parse kind arguments) := by
  cases kind
  case ifThen | whileLoop => exact (congrArg (· >>= _) (condition_eq arguments)).trans (given_map _ _)
  case forLoop => exact (congrArg (· >>= _) (loopRange_eq arguments)).trans (given_map _ _)
  case optimize | target => exact (congrArg (· >>= _) (solverLoop_eq arguments)).trans (given_map _ _)
  case minimize => exact (congrArg (· >>= _) (objective_eq arguments)).trans (given_map _ _)
  case nonlinearConstraint => exact (congrArg (· >>= _) (constraint_eq arguments)).trans (given_map _ _)
  case generic => rfl
  all_goals
    dsimp only [keywordBody, CommandBody.parse]
    split <;> rfl

/-- Read an assignment. -/
def assignmentBody (target expression : Text) : ExceptT ArgumentError Option CommandBody := do
  let operand ← operandArgument target
  if operand.isNumber then throw (.assignToNumber target.trim)
  else return .assignment operand (← expressionArgument expression)

theorem assignmentBody_eq (target expression : Text) :
    assignmentBody target expression = given (CommandBody.parseAssignment target expression) := by
  rw [assignmentBody, CommandBody.parseAssignment, operandArgument_eq]
  refine given_bind _ fun operand _ => ?_
  split
  · rfl
  rw [expressionArgument_eq]
  exact given_bind _ fun _ _ => rfl

/-- Build the command of a keyword. -/
def keywordCommand (keyword arguments generating : Text) : ExceptT SequenceError Option Command := do
  let kind := CommandKind.ofKeyword keyword
  let (label, arguments) ← splitLabel arguments
  let body ← ExceptT.adapt (.invalidArgument ⟨keyword, generating⟩) (keywordBody kind arguments)
  return { kind, typeName := keyword, label, generating, body }

theorem keywordCommand_eq (keyword arguments generating : Text) :
    keywordCommand keyword arguments generating = given (Command.ofKeyword keyword arguments generating) := by
  rw [keywordCommand, Command.ofKeyword, splitLabel_eq, lift_some, given_ok_bind]
  dsimp only
  rw [keywordBody_eq, adapt_given]
  exact given_bind _ fun _ _ => rfl

/-- Build the command that a statement describes. -/
def command (s : Statement) : ExceptT SequenceError Option Command :=
  let generating := s.instruction ++ [';']
  let make (kind : CommandKind) (body : ExceptT ArgumentError Option CommandBody) :
      ExceptT SequenceError Option Command := do
    return {
      kind, typeName := kind.name, generating
      body := ← ExceptT.adapt (.invalidArgument ⟨kind.name, generating⟩) body }
  match s.parts with
  | .assignment target expression => make .assignment (assignmentBody target expression)
  | .call outputs signature => make .callFunction do return .call (← functionCall outputs signature)
  | .command keyword arguments => keywordCommand keyword (arguments.getD []) generating
  | parts => throw (.invalidArgument ⟨parts.shape.blockType.name.toList, generating⟩ .notCommand)

theorem command_eq (s : Statement) : command s = given (Command.ofStatement s) := by
  rw [command, Command.ofStatement]
  dsimp only
  cases s.parts with
  | assignment target expression =>
      dsimp only
      rw [assignmentBody_eq, adapt_given]
      cases CommandBody.parseAssignment target expression <;> rfl
  | call outputs signature =>
      dsimp only
      rw [functionCall_eq]
      cases FunctionCall.parse outputs signature <;> rfl
  | command keyword arguments => exact keywordCommand_eq ..
  | definition => rfl
  | function => rfl
  | comment => rfl

/-! ### The front end -/

/-- Read a script and build the command of each of its statements. -/
def commands (keywords : Keywords) (source : Text) :
    Option (Except (List LocatedError) (List (Except SequenceError Command))) := do
  match ← parseScript keywords source with
  | .error errors => return .error errors
  | .ok statements => return .ok (← statements.mapM fun s => (command s).run)

theorem commands_eq (keywords : Keywords) (source : Text) : commands keywords source =
    some ((MissionScript.parseScript keywords source).map fun statements =>
      statements.map Command.ofStatement) := by
  have each (statements : List Statement) :
      (statements.mapM fun s => (command s).run) = some (statements.map Command.ofStatement) := by
    induction statements with
    | nil => rfl
    | cons s statements ih =>
        rw [List.mapM_cons, command_eq, ih]
        rfl
  rw [commands, parseScript_eq]
  cases MissionScript.parseScript keywords source with
  | error errors => rfl
  | ok statements =>
      dsimp only [Option.bind_eq_bind, Option.bind_some]
      rw [each]
      rfl

/-- No text makes the front end slice at fault or count below zero. There is a slice exactly between two
offsets in order that fall on characters of the text, and the readers that take slices and keep counters have
the results of the readers of characters: on every script with the commands of its statements, and on the
arguments of every splitter. -/
theorem reads_without_fault :
    (∀ (text : Text) (start stop : Nat), (text.slice? ⟨start, stop⟩).isSome ↔
      start ≤ stop ∧ stop ≤ text.bytes ∧ text.IsBoundary start ∧ text.IsBoundary stop) ∧
    (∀ (keywords : Keywords) (source : Text), parseScript keywords source =
      some (MissionScript.parseScript keywords source)) ∧
    (∀ (keywords : Keywords) (source : Text), commands keywords source =
      some ((MissionScript.parseScript keywords source).map fun statements =>
        statements.map Command.ofStatement)) ∧
    (∀ block : Text, blockLines block = some (MissionScript.blockLines block)) ∧
    (∀ (family : Bracket) (text : Text) (start : Nat),
      scan family text start = some (family.scan text start).offsets) ∧
    (∀ (families : List Bracket) (single : Bool) (fragment : Text), isSubscript families single fragment =
      some (MissionScript.isSubscript families single fragment)) ∧
    (∀ (family : Bracket) (subscripts strip : Bool) (chunk : Text), decompose family subscripts strip chunk =
      given (MissionScript.decompose family subscripts strip chunk)) ∧
    (∀ (family : Bracket) (delimiters : Text) (required : Bool) (chunk : Text),
      separateGroup family delimiters required chunk =
        given (MissionScript.separateGroup family delimiters required chunk)) ∧
    (∀ (family : Bracket) (text : Text), separateGroups family text =
      given (MissionScript.separateGroups family text)) ∧
    (∀ text : Text, separateSpaces text = some (MissionScript.separateSpaces text) ∧
      separateDots text = some (MissionScript.separateDots text)) ∧
    ∀ delimiters text : Text, separateBy delimiters text = some (MissionScript.separateBy delimiters text) :=
  ⟨fun _ _ _ => Text.slice?_isSome_iff, parseScript_eq, commands_eq, blockLines_eq, scan_eq, isSubscript_eq,
    decompose_eq, separateGroup_eq, separateGroups_eq, fun text => ⟨separateSpaces_eq text, separateDots_eq text⟩,
    separateBy_eq⟩

end Bytewise

end MissionScript
