import MissionScript.Text.Glyph

/-!
# Logical blocks

A logical block is the text of one statement with the comment and blank lines before it. A line whose
code ends in `...` continues on the next line, and several statements on one line, separated by `;`,
become blocks that share the span of the line. Comment and blank lines at the end form a block of
their own.
-/

namespace MissionScript

/-- Bytes `start` up to `stop`, exclusive, of a source. -/
structure Span where
  start : Nat
  stop : Nat
deriving DecidableEq, Repr

/-- The text of a statement with its preface, and the source lines that it came from. -/
structure Block where
  text : Text
  span : Span
deriving DecidableEq, Repr

/-- The mark at the end of a line that continues on the next one. -/
def continuationMark : Text := "...".toList

/-- Cut after the semicolons that stand outside groups, literals and comments; the rest is last.
`piece` is the piece being read, last character first. -/
def cutAfterSemicolons (piece : Text) : List Glyph → List Text × Text
  | [] => ([], piece.reverse)
  | g :: rest =>
    if g.isFree && g.char == '%' then ([], piece.reverse ++ Text.ofGlyphs (g :: rest))
    else if g.isTop && g.char == ';' then
      let (pieces, last) := cutAfterSemicolons [] rest
      ((g.char :: piece).reverse :: pieces, last)
    else cutAfterSemicolons (g.char :: piece) rest

/-- The statements on a line. The comment and the line end stay with the last of them. -/
def splitStatements (line : Text) : List Text :=
  let (pieces, last) := cutAfterSemicolons [] line.glyphs
  match pieces.getLast? with
  | some final =>
    if (Text.splitComment last).1.isBlankText then pieces.dropLast ++ [final ++ last]
    else pieces ++ [last]
  | none => [last]

/-- What has been read of the block to come. -/
structure PendingBlock where
  /-- Comment and blank lines. -/
  preface : Text := []
  /-- The continued lines of its statement. -/
  statement : Text := []
  /-- Where its first line starts, once there is one. -/
  start : Option Nat := none

/-- What a line does to the block to come. -/
inductive LineRole where
  /-- A comment or blank line in front of a statement. -/
  | preface
  /-- The code before the continuation mark. -/
  | continued (code : Text)
  | complete

/-- Whether a line is blank or a comment. -/
def isRemark (line : Text) : Bool := line.trim.isEmpty || line.trim.head? == some '%'

/-- The role of a line after the continued lines `statement`. -/
def lineRole (statement line : Text) : LineRole :=
  if statement.isEmpty && isRemark line then .preface
  else match continuationMark.before? (Text.splitComment line).1.trimEnd with
    | some code => .continued code
    | none => .complete

/-- The blocks of a line that completes a statement. -/
def completedBlocks (preface line : Text) (span : Span) : List Block :=
  match splitStatements line with
  | [] => []
  | first :: others => ⟨preface ++ first, span⟩ :: others.map (⟨·, span⟩)

/-- The blocks of the lines from byte `offset` on. -/
def blocksFrom (pending : PendingBlock) (offset : Nat) : List Text → List Block
  | [] =>
    let rest := pending.preface ++ pending.statement
    if rest.isBlankText then [] else [⟨rest, pending.start.getD offset, offset⟩]
  | line :: lines =>
    let start := pending.start.getD offset
    let next := offset + line.bytes
    match lineRole pending.statement line with
    | .preface =>
      let preface := pending.preface ++ line
      blocksFrom { pending with preface, start := some start } next lines
    | .continued code =>
      let statement := pending.statement ++ code ++ [' ']
      blocksFrom { pending with statement, start := some start } next lines
    | .complete =>
      completedBlocks pending.preface (pending.statement ++ line) ⟨start, next⟩ ++
        blocksFrom {} next lines

/-- The logical blocks of a source. -/
def logicalBlocks (source : Text) : List Block := blocksFrom {} 0 source.lines

/-- Put a character in front of the first line. -/
def consToFirst (c : Char) : List Text → List Text
  | [] => [[c]]
  | line :: lines => (c :: line) :: lines

/-- Cut a block into lines, each with its end: a line feed, a carriage return, or both. -/
def cutLines : Text → List Text
  | [] => []
  | '\r' :: '\n' :: text => ['\r', '\n'] :: cutLines text
  | c :: text =>
    if c == '\r' || c == '\n' then [c] :: cutLines text else consToFirst c (cutLines text)

/-- The raw lines of a block; an empty block has one empty line. -/
def blockLines (block : Text) : List Text :=
  match cutLines block with
  | [] => [[]]
  | lines => lines

end MissionScript
