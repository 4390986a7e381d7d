import MissionScript.Script.Block
import MissionScript.Script.Keyword
import MissionScript.Script.Split

/-!
# Statements

A logical block is read in two steps. Its lines give an instruction with the comments around it, and
the instruction gets a shape; then the instruction comes apart into the parts that its shape has.
-/

namespace MissionScript

/-- The shape of an instruction. -/
inductive Shape where
  /-- No instruction. -/
  | comment
  /-- `Create Type Name ...` -/
  | definition
  /-- A keyword with its arguments. -/
  | command
  /-- A function call, with or without outputs. -/
  | call
  /-- `lhs = rhs` -/
  | assignment
  /-- `function [outputs] = Name(inputs)` -/
  | function
deriving DecidableEq, Repr

namespace Shape

/-- A function call counts as a command. -/
def blockType : Shape → BlockType
  | comment => .comment
  | definition => .definition
  | command | call => .command
  | assignment => .assignment
  | function => .function

end Shape

/-- An instruction with the comments around it and its shape. -/
structure Reading where
  /-- The comment and blank lines before the instruction, as they stand. -/
  preface : Text := []
  /-- The comment on the line of the instruction. -/
  remark : Text := []
  /-- The instruction without comments and without its trailing semicolons. -/
  instruction : Text := []
  shape : Shape := .comment
deriving DecidableEq, Repr

/-- Offset-free search for the assignment sign: the first top-level `=` that is not part of `==`,
`<=`, `>=`, `~=` or `!=`, as what stands before and after it. The neighbours that count are the
nearest characters outside literals; `previous` is the one before the glyphs. -/
def splitAssignmentFrom (previous : Option Char) :
    List Glyph → Option (List Glyph × List Glyph)
  | [] => none
  | g :: rest =>
    let next := (rest.find? Glyph.isFree).map (·.char)
    if g.isTop && g.char == '=' && !previous.any "=<>~!".toList.contains && next != some '=' then
      some ([], rest)
    else
      (splitAssignmentFrom (if g.isFree then some g.char else previous) rest).map
        fun (left, right) => (g :: left, right)

/-- The two sides of an assignment. -/
def splitAssignment (text : Text) : Option (Text × Text) :=
  (splitAssignmentFrom none text.glyphs).map fun (left, right) =>
    (Text.ofGlyphs left, Text.ofGlyphs right)

/-- Whether a `[` stands outside parentheses, with `depth` of them open, as in `[a, b] = f(x)`. -/
def hasFreeSquare : (depth : Nat) → List Glyph → Bool
  | _, [] => false
  | depth, g :: rest =>
    if g.opens .paren then hasFreeSquare (depth + 1) rest
    else if g.closes .paren then hasFreeSquare (depth - 1) rest
    else (g.opens .square && depth == 0) || hasFreeSquare depth rest

/-- Whether an operator stands outside groups and literals. -/
def hasTopOperator (text : Text) : Bool :=
  text.glyphs.any fun g => g.isTop && "+-*/^<>=~&|'".toList.contains g.char

/-- The word in front of a definition. -/
def createKeyword : Text := "Create".toList

/-- The word in front of a function block. -/
def functionKeyword : Text := "function".toList

/-- The shape of an instruction. A keyword ends at the end, at a blank or at `(`. -/
def shapeOf (keywords : Keywords) (instruction : Text) : Shape :=
  let keyword := instruction.takeWhile isWordChar
  let next := instruction[keyword.length]?
  let blankNext := next.all isBlank
  let ends := blankNext || next == some '('
  if keyword == functionKeyword && (ends || next == some '[') then .function
  else if keyword == createKeyword && blankNext then .definition
  else if ends && keywords.contains keyword then .command
  else match splitAssignment instruction with
    | some (left, _) => if hasFreeSquare 0 left.glyphs then .call else .assignment
    | none => if hasTopOperator instruction then .assignment else .call

/-- The word in front of a line that sets a field of a remote object. -/
def remoteKeyword : Text := "GMAT".toList

/-- A line without its remote keyword. -/
def dropRemoteKeyword (line : Text) : Text :=
  match remoteKeyword.after? line.trimStart with
  | some rest => if rest.head? == some ' ' || rest.head? == some '\t' then rest else line
  | none => line

/-- The code of a line without blanks around it and without its trailing semicolons. -/
def instructionOf (code : Text) : Text := (Text.dropEndWhile (· == ';') code.trim).trimEnd

/-- Read the lines of a block up to its instruction, after the lines `preface`. -/
def readLines (keywords : Keywords) (preface : Text) : List Text → Reading
  | [] => { preface }
  | line :: lines =>
    if isRemark line then readLines keywords (preface ++ line) lines
    else
      let (code, remark) := Text.splitComment (dropRemoteKeyword line)
      let instruction := instructionOf code
      if instruction.isEmpty then readLines keywords (preface ++ line) lines
      else
        { preface, remark := remark.trimEnd, instruction, shape := shapeOf keywords instruction }

namespace Reading

/-- Read a logical block. -/
def ofBlock (keywords : Keywords) (block : Text) : Except ParseError Reading :=
  let lines := blockLines block
  if lines.all (·.isBlankText) then .error { cause := .emptyBlock, text := block }
  else .ok (readLines keywords [] lines)

/-- The preface, the remark and the instruction. -/
def pieces (r : Reading) : List Text := [r.preface, r.remark, r.instruction]

/-- An error in the instruction. -/
def fault (r : Reading) (cause : ParseCause) : ParseError :=
  { cause, text := r.instruction, blockType := some r.shape.blockType }

end Reading

/-- The parts of an instruction. -/
inductive Parts where
  | comment
  | definition (objectType names : Text)
  | command (keyword : Text) (arguments : Option Text)
  /-- `outputs = signature`, or a signature alone. -/
  | call (outputs signature : Text)
  | assignment (target value : Text)
  | function (outputs name inputs : Text)
deriving DecidableEq, Repr

namespace Parts

def shape : Parts → Shape
  | comment => .comment
  | definition .. => .definition
  | command .. => .command
  | call .. => .call
  | assignment .. => .assignment
  | function .. => .function

/-- The parts as a list of texts. -/
def chunks : Parts → List Text
  | comment => []
  | definition objectType names => [createKeyword, objectType, names]
  | command keyword none => [keyword]
  | command keyword (some arguments) => [keyword, arguments]
  | call outputs signature => [outputs, signature]
  | assignment target value => [target, value]
  | function outputs name inputs => [functionKeyword, outputs, name, inputs]

end Parts

namespace Reading

/-- The parts of `Create Type Name ...`. -/
def definitionParts (r : Reading) : Except ParseError Parts :=
  match createKeyword.after? r.instruction with
  | none => .error (r.fault .createKeywordMissing)
  | some rest =>
    if !rest.head?.all isBlank then .error (r.fault .createKeywordMissing)
    else
      let rest := rest.trimStart
      let objectType := rest.takeWhile (!isBlank ·)
      let names := Text.trim (rest.drop objectType.length)
      if objectType.isEmpty then .error (r.fault .objectTypeMissing)
      else if names.isEmpty then .error (r.fault .objectNameMissing)
      else .ok (.definition objectType names)

/-- The parts of a keyword with its arguments. -/
def commandParts (r : Reading) : Except ParseError Parts :=
  let instruction := r.instruction.trim
  let keyword := instruction.takeWhile fun c => !(isBlank c || c == '(')
  let arguments := Text.trim (instruction.drop keyword.length)
  if keyword.isEmpty then .error (r.fault .commandNameMissing)
  else .ok (.command keyword (if arguments.isEmpty then none else some arguments))

/-- The two sides of an assignment or a call with outputs. -/
def sides (r : Reading) (make : Text → Text → Parts) (left right : Text) :
    Except ParseError Parts :=
  if left.trim.isEmpty then .error (r.fault .leftSideMissing)
  else if right.trim.isEmpty then .error (r.fault .rightSideMissing)
  else .ok (make left.trim right.trim)

/-- The parts of a function block. -/
def functionParts (r : Reading) : Except ParseError Parts := do
  let rest := ((functionKeyword.after? r.instruction).getD r.instruction).trim
  let (outputs, signature) :=
    match splitAssignment rest with
    | some (left, right) => (left.trim, right.trim)
    | none => ([], rest)
  if outputs.head? == some '[' then
    if let .error e := checkBalance outputs then
      throw { e with blockType := some r.shape.blockType }
  let name := signature.takeWhile (· != '(')
  let inputs := Text.trim (signature.drop name.length)
  if (Text.trim name).isEmpty then throw (r.fault .functionNameMissing)
  if !inputs.isEmpty then
    match Bracket.paren.scan inputs 0 with
    | .matched group => if !group.isOuter then throw (r.fault .unmatchedBracket)
    | _ => throw (r.fault .unmatchedBracket)
  return .function outputs (Text.trim name) inputs

/-- Take the instruction apart. -/
def parts (r : Reading) : Except ParseError Parts :=
  match r.shape with
  | .comment => .ok .comment
  | .definition => r.definitionParts
  | .command => r.commandParts
  | .call =>
    match splitAssignment r.instruction with
    | some (left, right) => r.sides .call left right
    | none => .ok (.call [] r.instruction.trim)
  | .assignment =>
    match splitAssignment r.instruction with
    | some (left, right) => r.sides .assignment left right
    | none => .error (r.fault .noAssignment)
  | .function => r.functionParts

end Reading

/-- A block that has been read and taken apart. -/
structure Statement where
  reading : Reading
  parts : Parts
  /-- Where the block stands in its source. -/
  span : Span := ⟨0, 0⟩
deriving DecidableEq, Repr

namespace Statement

/-- Read a logical block and take it apart. -/
def ofBlock (keywords : Keywords) (block : Text) : Except ParseError Statement := do
  let reading ← Reading.ofBlock keywords block
  return { reading, parts := ← reading.parts }

/-- The instruction without comments and without its trailing semicolons. -/
def instruction (s : Statement) : Text := s.reading.instruction

/-- The keyword of a command that is not a function call. -/
def keyword? (s : Statement) : Option Text :=
  match s.parts with
  | .command keyword _ => some keyword
  | _ => none

/-- The second chunk, which for a command is its arguments. -/
def arguments (s : Statement) : Text := (s.parts.chunks[1]?).getD []

end Statement

/-- A parse error with the place of its block. -/
structure LocatedError where
  error : ParseError
  span : Span
deriving DecidableEq, Repr

/-- The statements of a source in order, those with comments only included. An error does not stop
the reading: all of them are collected, and then there are no statements. -/
def parseScript (keywords : Keywords) (source : Text) :
    Except (List LocatedError) (List Statement) :=
  let results := (logicalBlocks source).map fun block =>
    (block.span, Statement.ofBlock keywords block.text)
  let errors := results.filterMap fun (span, result) =>
    match result with
    | .ok _ => none
    | .error error => some { error, span }
  if errors.isEmpty then
    .ok <| results.filterMap fun (span, result) =>
      match result with
      | .ok statement => some { statement with span }
      | .error _ => none
  else .error errors

end MissionScript
