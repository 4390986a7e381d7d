import MissionScript.Proofs.Bytewise.Block
import MissionScript.Proofs.Bytewise.Scan
import MissionScript.Proofs.Renaming.Statement

/-!
# Statements by offsets

The assignment sign is one byte, and so is every mark that a keyword or a name ends at. A statement is read
without a fault from every block.
-/

namespace MissionScript

namespace Bytewise

variable {text : Text} {depth offset : Nat}

/-! ### The assignment sign -/

/-- Go on looking for the assignment sign; `previous` is the last character outside literals. -/
def findAssignmentFrom : (depth : Nat) → (previous : Option Char) → List (Nat × Char) → Option Nat
  | _, _, [] => none
  | depth, previous, (i, c) :: rest =>
    if isTopAt depth c && c == '=' && !previous.any relationMarks.contains && !rest.head?.any (·.2 == '=') then
      some i
    else findAssignmentFrom (depthAfter depth c) (some c) rest

/-- The offset of the assignment sign. -/
def findAssignment (text : Text) : Option Nat := findAssignmentFrom 0 none text.free

/-- The two sides of an assignment. -/
def splitAssignment (text : Text) : Option (Option (Text × Text)) :=
  match findAssignment text with
  | none => some none
  | some sign => do
    return some (← text.slice? ⟨0, sign⟩, ← text.slice? ⟨sign + 1, text.bytes⟩)

theorem followed_eq (offset : Nat) (gs : List Glyph) :
    (placesOf Glyph.isFree offset gs).head?.any (·.2 == '=') = followed gs := by
  rw [head?_placesOf, followed, List.find?_eq_head?_dropWhile_not]
  cases (gs.dropWhile fun g => !g.isFree).head? <;> rfl

theorem findAssignmentFrom_eq {gs : List Glyph} (counted : Counted depth gs) (offset : Nat)
    (previous : Option Char) :
    findAssignmentFrom depth previous (placesOf Glyph.isFree offset gs) =
      (splitAssignmentFrom previous gs).map fun sides => offset + (Text.ofGlyphs sides.1).bytes := by
  induction counted generalizing offset previous with
  | nil => rfl
  | @cons g rest counted ih =>
      have further (before : Option Char) :
          ((splitAssignmentFrom before rest).map fun sides => (g :: sides.1, sides.2)).map
              (fun sides => offset + (Text.ofGlyphs sides.1).bytes) =
            findAssignmentFrom (if g.quoted then g.depth else depthAfter g.depth g.char) before
              (placesOf Glyph.isFree (offset + g.char.utf8Size) rest) := by
        rw [ih, Option.map_map]
        simp only [Function.comp_def, Text.bytes_ofGlyphs_cons, Nat.add_assoc]
      rw [placesOf_cons, splitAssignmentFrom_cons, Glyph.isTop_eq]
      cases quoted : g.quoted with
      | true =>
          have free : g.isFree = false := by simp [Glyph.isFree, quoted]
          rw [free, Bool.false_and, Bool.false_and, Bool.false_and, Bool.false_and]
          simp only [Bool.false_eq_true, if_false]
          rw [further, quoted]
          rfl
      | false =>
          have free : g.isFree = true := by simp [Glyph.isFree, quoted]
          rw [free, if_pos rfl, if_pos rfl, findAssignmentFrom, followed_eq, Bool.true_and]
          split
          · rfl
          · rw [further, quoted]
            rfl

theorem glyphs_of_splitAssignmentFrom {previous : Option Char} {gs left right : List Glyph}
    (cut : splitAssignmentFrom previous gs = some (left, right)) :
    ∃ sign, sign.char = '=' ∧ gs = left ++ sign :: right := by
  induction gs generalizing previous left with
  | nil => cases cut
  | cons g gs ih =>
      rw [splitAssignmentFrom_cons] at cut
      split at cut
      · rename_i here
        cases cut
        simp only [Bool.and_eq_true, beq_iff_eq] at here
        exact ⟨g, here.1.1.2, rfl⟩
      · obtain ⟨sides, inner, same⟩ := Option.map_eq_some_iff.mp cut
        cases same
        obtain ⟨sign, equals, whole⟩ := ih inner
        exact ⟨sign, equals, congrArg (g :: ·) whole⟩

theorem splitAssignment_eq (text : Text) :
    splitAssignment text = some (MissionScript.splitAssignment text) := by
  have found := findAssignmentFrom_eq (counted_glyphs text) 0 none
  rw [← Text.free_eq] at found
  rw [splitAssignment, findAssignment, found, MissionScript.splitAssignment]
  cases cut : splitAssignmentFrom none text.glyphs with
  | none => rfl
  | some sides =>
      obtain ⟨left, right⟩ := sides
      obtain ⟨sign, equals, whole⟩ := glyphs_of_splitAssignmentFrom cut
      have parts : text = Text.ofGlyphs left ++ (['='] ++ Text.ofGlyphs right) := by
        rw [← Text.ofGlyphs_glyphs text, whole, ← equals]
        simp [Text.ofGlyphs]
      have front := Text.slice?_front (Text.ofGlyphs left) (['='] ++ Text.ofGlyphs right)
      have back : Text.slice? (Text.ofGlyphs left ++ (['='] ++ Text.ofGlyphs right))
          ⟨(Text.ofGlyphs left).bytes + 1, _⟩ = _ := Text.slice?_behind _ rfl
      rw [← parts] at front back
      simp only [Option.map_some, Nat.zero_add, front, back]
      rfl

/-! ### Shapes -/

/-- The shape of an instruction without a keyword. -/
def bareShape (instruction : Text) : Option Shape :=
  match findAssignment instruction with
  | none => some (if hasTopOperator instruction then .assignment else .call)
  | some sign => do
    let left ← instruction.slice? ⟨0, sign⟩
    return if hasFreeSquare 0 left.glyphs then .call else .assignment

theorem bareShape_eq (instruction : Text) :
    bareShape instruction = some (MissionScript.bareShape instruction) := by
  have sides := splitAssignment_eq instruction
  rw [bareShape, MissionScript.bareShape]
  rw [splitAssignment] at sides
  cases found : findAssignment instruction with
  | none =>
      rw [found] at sides
      rw [← Option.some.inj sides]
  | some sign =>
      rw [found] at sides
      obtain ⟨left, front, sides⟩ := Option.bind_eq_some_iff.mp sides
      obtain ⟨right, -, sides⟩ := Option.bind_eq_some_iff.mp sides
      dsimp only
      rw [front, ← Option.some.inj sides]
      rfl

/-- The shape of an instruction. -/
def shapeOf (keywords : Keywords) (instruction : Text) : Option Shape := do
  let (word, rest) ← cutBefore (!isWordChar ·) instruction
  return shapeBehind keywords word rest.head? (← bareShape instruction)

theorem shapeOf_eq (keywords : Keywords) (instruction : Text) :
    shapeOf keywords instruction = some (MissionScript.shapeOf keywords instruction) := by
  rw [shapeOf, cutBefore_eq, bareShape_eq, MissionScript.shapeOf_eq]
  simp only [Bool.not_not]
  rfl

/-! ### Readings -/

/-- Read the lines of a block up to its instruction, after the lines `preface`. -/
def readLines (keywords : Keywords) (preface : Text) : List Text → Option Reading
  | [] => some { preface }
  | line :: lines =>
    if isRemark line then readLines keywords (preface ++ line) lines
    else do
      let (code, remark) ← splitComment (dropRemoteKeyword line)
      let instruction := instructionOf code
      if instruction.isEmpty then readLines keywords (preface ++ line) lines
      else
        let shape ← shapeOf keywords instruction
        return { preface, remark := remark.trimEnd, instruction, shape }

theorem readLines_eq (keywords : Keywords) (preface : Text) (lines : List Text) :
    readLines keywords preface lines = some (MissionScript.readLines keywords preface lines) := by
  induction lines generalizing preface with
  | nil => rfl
  | cons line lines ih =>
      rw [readLines, MissionScript.readLines, splitComment_eq, ih]
      split
      · rfl
      · dsimp only [Option.bind_eq_bind, Option.bind_some]
        rw [shapeOf_eq]
        split <;> rfl

/-- Read a logical block. -/
def readBlock (keywords : Keywords) (block : Text) : ExceptT ParseError Option Reading := do
  let lines ← blockLines block
  if lines.all (·.isBlankText) then throw { cause := .emptyBlock, text := block }
  else readLines keywords [] lines

theorem readBlock_eq (keywords : Keywords) (block : Text) :
    readBlock keywords block = given (Reading.ofBlock keywords block) := by
  rw [readBlock, Reading.ofBlock, blockLines_eq, lift_some, given_ok_bind, readLines_eq]
  split <;> rfl

/-! ### Parts -/

section Parts

variable (r : Reading)

/-- The parts of `Create Type Name ...`. -/
def definitionParts : ExceptT ParseError Option Parts :=
  match createKeyword.after? r.instruction with
  | none => throw (r.fault .createKeywordMissing)
  | some rest =>
    if !rest.head?.all isBlank then throw (r.fault .createKeywordMissing)
    else do
      let (objectType, names) ← cutBefore isBlank rest.trimStart
      if objectType.isEmpty then throw (r.fault .objectTypeMissing)
      else if names.trim.isEmpty then throw (r.fault .objectNameMissing)
      else return .definition objectType names.trim

theorem definitionParts_eq : definitionParts r = given r.definitionParts := by
  rw [definitionParts, Reading.definitionParts]
  cases createKeyword.after? r.instruction with
  | none => rfl
  | some rest =>
      dsimp only
      rw [cutBefore_eq, lift_some, given_ok_bind, Text.drop_takeWhile]
      split
      · rfl
      split
      · rfl
      split <;> rfl

/-- The parts of a keyword with its arguments. -/
def commandParts : ExceptT ParseError Option Parts := do
  let (keyword, arguments) ← cutBefore (fun c => isBlank c || c == '(') r.instruction.trim
  if keyword.isEmpty then throw (r.fault .commandNameMissing)
  else return .command keyword (if arguments.trim.isEmpty then none else some arguments.trim)

theorem commandParts_eq : commandParts r = given r.commandParts := by
  rw [commandParts, Reading.commandParts, cutBefore_eq, lift_some, given_ok_bind]
  dsimp only
  rw [Text.drop_takeWhile]
  split <;> rfl

/-- The brackets of the outputs of a function nest. -/
def checkOutputs (outputs : Text) : Except ParseError Unit :=
  if outputs.head? == some '[' then
    (checkBalance outputs).mapError ({ · with blockType := some r.shape.blockType })
  else .ok ()

/-- The parts of a function block with these outputs and this signature. -/
def signatureParts (outputs signature : Text) : ExceptT ParseError Option Parts := do
  given (checkOutputs r outputs)
  let (name, inputs) ← cutBefore (· == '(') signature
  if name.trim.isEmpty then throw (r.fault .functionNameMissing)
  else if inputs.trim.isEmpty then return .function outputs name.trim inputs.trim
  else
    match ← scan .paren inputs.trim 0 with
    | .matched _ _ true => return .function outputs name.trim inputs.trim
    | _ => throw (r.fault .unmatchedBracket)

/-- The parts of a function block. -/
def functionParts : ExceptT ParseError Option Parts := do
  let rest := ((functionKeyword.after? r.instruction).getD r.instruction).trim
  match ← splitAssignment rest with
  | some (left, right) => signatureParts r left.trim right.trim
  | none => signatureParts r [] rest

theorem signatureParts_eq (outputs signature : Text) : signatureParts r outputs signature =
    given (do
      if outputs.head? == some '[' then
        if let .error e := checkBalance outputs then
          throw { e with blockType := some r.shape.blockType }
      let name := signature.takeWhile (· != '(')
      let inputs := Text.trim (signature.drop name.length)
      if (Text.trim name).isEmpty then throw (r.fault .functionNameMissing)
      if !inputs.isEmpty then
        match Bracket.paren.scan inputs 0 with
        | .matched group => if !group.isOuter then throw (r.fault .unmatchedBracket)
        | _ => throw (r.fault .unmatchedBracket)
      return .function outputs (Text.trim name) inputs) := by
  have rest (name inputs : Text) :
      (if name.isEmpty then throw (r.fault .functionNameMissing)
        else if inputs.isEmpty then return .function outputs name inputs
        else do
          match ← scan .paren inputs 0 with
          | .matched _ _ true => return .function outputs name inputs
          | _ => throw (r.fault .unmatchedBracket) : ExceptT ParseError Option Parts) =
        given (do
          if name.isEmpty then throw (r.fault .functionNameMissing)
          if !inputs.isEmpty then
            match Bracket.paren.scan inputs 0 with
            | .matched group => if !group.isOuter then throw (r.fault .unmatchedBracket)
            | _ => throw (r.fault .unmatchedBracket)
          return .function outputs name inputs) := by
    cases name.isEmpty with
    | true => rfl
    | false =>
        cases inputs.isEmpty with
        | true => rfl
        | false =>
            rw [scan_eq]
            cases Bracket.paren.scan inputs 0 with
            | notFound => rfl
            | unmatched before => rfl
            | matched group =>
                dsimp only [Scan.offsets]
                cases group.isOuter <;> rfl
  have behind := rest (Text.trim (signature.takeWhile (· != '(')))
    (Text.trim (signature.drop (signature.takeWhile (· != '(')).length))
  rw [signatureParts, checkOutputs, cutBefore_eq, ← Text.drop_takeWhile]
  split
  · cases checkBalance outputs with
    | error e => rfl
    | ok _ => exact behind
  · exact behind

theorem functionParts_eq : functionParts r = given r.functionParts := by
  rw [functionParts, Reading.functionParts, splitAssignment_eq, lift_some, given_ok_bind]
  generalize ((functionKeyword.after? r.instruction).getD r.instruction).trim = rest
  cases MissionScript.splitAssignment rest with
  | none => exact signatureParts_eq r [] rest
  | some sides => exact signatureParts_eq r sides.1.trim sides.2.trim

/-- The two sides of an assignment, or of a call with outputs, in their places. -/
def partsOfSides (make : Text → Text → Parts) (alone : Except ParseError Parts) :
    ExceptT ParseError Option Parts := do
  match ← splitAssignment r.instruction with
  | some (left, right) => given (r.sides make left right)
  | none => given alone

/-- Take the instruction apart. -/
def parts : ExceptT ParseError Option Parts :=
  match r.shape with
  | .comment => return .comment
  | .definition => definitionParts r
  | .command => commandParts r
  | .call => partsOfSides r .call (.ok (.call [] r.instruction.trim))
  | .assignment => partsOfSides r .assignment (.error (r.fault .noAssignment))
  | .function => functionParts r

theorem parts_eq : parts r = given r.parts := by
  rw [parts, Reading.parts]
  cases r.shape with
  | comment => rfl
  | definition => exact definitionParts_eq r
  | command => exact commandParts_eq r
  | function => exact functionParts_eq r
  | call =>
      dsimp only
      rw [partsOfSides, splitAssignment_eq, lift_some, given_ok_bind]
      cases MissionScript.splitAssignment r.instruction <;> rfl
  | assignment =>
      dsimp only
      rw [partsOfSides, splitAssignment_eq, lift_some, given_ok_bind]
      cases MissionScript.splitAssignment r.instruction <;> rfl

end Parts

/-! ### Statements -/

/-- Read a logical block and take it apart. -/
def readStatement (keywords : Keywords) (block : Text) : ExceptT ParseError Option Statement := do
  let reading ← readBlock keywords block
  return { reading, parts := ← parts reading }

theorem readStatement_eq (keywords : Keywords) (block : Text) :
    readStatement keywords block = given (Statement.ofBlock keywords block) := by
  rw [readStatement, Statement.ofBlock, readBlock_eq]
  refine given_bind _ fun reading _ => ?_
  rw [parts_eq]
  exact given_bind _ fun parts _ => rfl

/-- What the blocks of a script are read as, each with its place. -/
def readBlocks (keywords : Keywords) : List Block → Option (List (Span × Except ParseError Statement))
  | [] => some []
  | block :: blocks => do
    let result ← (readStatement keywords block.text).run
    return (block.span, result) :: (← readBlocks keywords blocks)

theorem readBlocks_eq (keywords : Keywords) (blocks : List Block) :
    readBlocks keywords blocks =
      some (blocks.map fun block => (block.span, Statement.ofBlock keywords block.text)) := by
  induction blocks with
  | nil => rfl
  | cons block blocks ih =>
      rw [readBlocks, readStatement_eq, ih]
      rfl

/-- The statements of a source in order, or its errors. -/
def parseScript (keywords : Keywords) (source : Text) :
    Option (Except (List LocatedError) (List Statement)) := do
  let results ← readBlocks keywords (← logicalBlocks source)
  let errors := results.filterMap fun (span, result) =>
    match result with
    | .ok _ => none
    | .error error => some { error, span }
  return if errors.isEmpty then
    .ok <| results.filterMap fun (span, result) =>
      match result with
      | .ok statement => some { statement with span }
      | .error _ => none
  else .error errors

theorem parseScript_eq (keywords : Keywords) (source : Text) :
    parseScript keywords source = some (MissionScript.parseScript keywords source) := by
  rw [parseScript, MissionScript.parseScript, logicalBlocks_eq]
  dsimp only [Option.bind_eq_bind, Option.bind_some]
  rw [readBlocks_eq]
  rfl

end Bytewise

end MissionScript
