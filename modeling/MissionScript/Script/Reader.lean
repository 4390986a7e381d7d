import MissionScript.Script.Statement

/-!
# Readers

A reader takes the blocks of a script one after the other. It keeps the pieces of the last block, and it
keeps them also when the instruction does not come apart. Before it takes the next block it forgets all of
them.
-/

namespace MissionScript

/-- What a reader has found in the block that it has taken last. -/
structure Reader where
  blockType : BlockType := .comment
  /-- The command is a function call. -/
  call : Bool := false
  preface : Text := []
  remark : Text := []
  instruction : Text := []
  /-- The preface, the remark and the instruction, when the block has been read to its end. -/
  pieces : List Text := []
deriving DecidableEq, Repr

/-- The statements of some blocks, and the errors of those that are not read. -/
structure Harvest where
  statements : List Statement := []
  errors : List LocatedError := []
deriving DecidableEq, Repr

namespace Harvest

/-- Put the result of a block in front of the others. -/
def add (span : Span) (result : Except ParseError Statement) (others : Harvest) : Harvest :=
  match result with
  | .ok statement => { others with statements := { statement with span } :: others.statements }
  | .error error => { others with errors := { error, span } :: others.errors }

/-- One error is enough for there to be no statements. -/
def outcome (h : Harvest) : Except (List LocatedError) (List Statement) :=
  if h.errors.isEmpty then .ok h.statements else .error h.errors

end Harvest

namespace Reader

/-- Forget the last block. -/
def reset (r : Reader) : Reader :=
  { r with
    blockType := .comment, call := false, preface := [], remark := [], instruction := [], pieces := [] }

/-- The shape of the instruction. -/
def shape (r : Reader) : Shape :=
  match r.blockType, r.call with
  | .comment, _ => .comment
  | .definition, _ => .definition
  | .command, false => .command
  | .command, true => .call
  | .assignment, _ => .assignment
  | .function, _ => .function

/-- The pieces as they are kept. -/
def reading (r : Reader) : Reading := ⟨r.preface, r.remark, r.instruction, r.shape⟩

/-- Take in the lines of a block up to its instruction. -/
def takeLines (keywords : Keywords) : List Text → Reader → Reader
  | [], r => r
  | line :: lines, r =>
    if isRemark line then takeLines keywords lines { r with preface := r.preface ++ line }
    else
      let (code, remark) := Text.splitComment (dropRemoteKeyword line)
      let instruction := instructionOf code
      if instruction.isEmpty then takeLines keywords lines { r with preface := r.preface ++ line }
      else
        let shape := shapeOf keywords instruction
        { r with
          remark := remark.trimEnd, instruction, blockType := shape.blockType, call := shape == .call }

/-- Keep the pieces of a block that has been read to its end. -/
def keepPieces (r : Reader) : Reader := { r with pieces := [r.preface, r.remark, r.instruction] }

/-- Read a logical block and tell its type. -/
def evaluate (keywords : Keywords) (block : Text) : ExceptT ParseError (StateM Reader) BlockType := do
  modify reset
  let lines := blockLines block
  if lines.all (·.isBlankText) then throw { cause := .emptyBlock, text := block }
  modify (takeLines keywords lines)
  modify keepPieces
  return (← get).blockType

/-- Take the instruction of the last block apart. -/
def parts (r : Reader) : Except ParseError Parts := r.reading.parts

/-- Read a logical block and take it apart. -/
def statement (keywords : Keywords) (block : Text) : ExceptT ParseError (StateM Reader) Statement := do
  let _ ← evaluate keywords block
  let r ← get
  match r.parts with
  | .ok parts => return { reading := r.reading, parts }
  | .error error => throw error

/-- Take blocks one after the other. A block that is not read does not stop the reader. -/
def collect (keywords : Keywords) : List Block → StateM Reader Harvest
  | [] => return {}
  | block :: blocks => do
    let result ← (statement keywords block.text).run
    return (← collect keywords blocks).add block.span result

/-- What a reader finds in a source, if it has read something else before. -/
def harvest (r : Reader) (keywords : Keywords) (source : Text) : Harvest :=
  (collect keywords (logicalBlocks source) r).1

end Reader

end MissionScript
