import MissionScript.Bracket.Subscript
import MissionScript.Decimal.Reader

/-!
# Splitting arguments

The splitting primitives that the argument grammars share. Every splitter leaves string literals
whole, trims its pieces and drops the empty ones.
-/

namespace MissionScript

/-- The trimmed pieces that are not empty. -/
def tidy (pieces : List (List Glyph)) : List Text :=
  (pieces.map fun piece => (Text.ofGlyphs piece).trim).filter (!·.isEmpty)

/-- Split at the characters outside literals that satisfy `p`. -/
def splitFree (p : Char → Bool) (text : Text) : List Text :=
  tidy (text.glyphs.splitOnP fun g => g.isFree && p g.char)

/-- Split at the characters outside literals and groups that satisfy `p`. -/
def splitTop (p : Char → Bool) (text : Text) : List Text :=
  tidy (text.glyphs.splitOnP fun g => g.isTop && p g.char)

/-- Whether `c` is one of the delimiters; a space among them stands for every blank. -/
def isDelimiter (delimiters : Text) (c : Char) : Bool :=
  delimiters.contains c || (delimiters.contains ' ' && isBlank c)

/-- Split at blanks. -/
def separateSpaces (text : Text) : List Text := splitFree isBlank text

/-- Split a dotted name; a number is left whole. -/
def separateDots (text : Text) : List Text :=
  if (Decimal.read? text.trim).isSome then [text.trim] else splitFree (· == '.') text.trim

/-- Split at any of the delimiters. -/
def separateBy (delimiters text : Text) : List Text := splitFree (isDelimiter delimiters) text

/-- Strip the outer group of the family and split its contents at any of the delimiters outside
inner groups. A text that is no such group is split as it stands, unless one is required. -/
def separateGroup (family : Bracket) (delimiters : Text) (required : Bool) (text : Text) :
    Except ParseError (List Text) :=
  let text := text.trim
  match family.scan text 0 with
  | .unmatched _ => .error { cause := .unmatchedBracket, text }
  | .notFound =>
    if required then .error { cause := .outerBracketMissing family, text }
    else .ok (splitTop (isDelimiter delimiters) text)
  | .matched group =>
    if group.isOuter then .ok (splitTop (isDelimiter delimiters) group.content)
    else if required then .error { cause := .outerBracketMissing family, text }
    else .ok (splitTop (isDelimiter delimiters) text)

/-- The trimmed contents of the groups of the family that are not inside another one: `A(1,2)(3)`
has `1,2` and `3`. -/
def separateGroups (family : Bracket) (text : Text) : Except ParseError (List Text) :=
  match family.outermost? text.glyphs with
  | some contents => .ok contents
  | none => .error { cause := .unmatchedBracket, text }

/-- Cut before the last glyph that satisfies `p`. -/
def splitLast (p : Glyph → Bool) : List Glyph → Option (List Glyph × List Glyph)
  | [] => none
  | g :: rest =>
    match splitLast p rest with
    | some (before, after) => some (g :: before, after)
    | none => if p g then some ([], rest) else none

/-- The two tokens of `text, {options}`: what stands before the last top-level comma, and what
follows it up to a brace group that ends the text. -/
def splitOptions? (text : Text) : Option (List Text) := do
  let (before, _, rest) ← splitFirst (fun g => g.opens .brace && g.depth == 0) text.glyphs
  let (_, after) ← Bracket.brace.splitClosing 0 rest
  guard (Text.ofGlyphs after).isBlankText
  let (head, _) ← splitLast (fun g => g.isTop && g.char == ',') before
  let head := Text.ofGlyphs head
  let options : Text := text.drop (head.length + 1)
  guard !head.trim.isEmpty
  return [head.trim, options.trim]

/-- Split at blanks and commas outside groups, cutting out every group of the family as a piece of
its own. With `subscripts`, a group that makes a subscript of the piece before it stays with it.
`piece` is the piece being read, last glyph first. -/
def splitGroups (family : Bracket) (subscripts : Bool) (piece : List Glyph) (glyphs : List Glyph) :
    Option (List (List Glyph)) :=
  match glyphs with
  | [] => some [piece.reverse]
  | g :: rest =>
    if g.opens family && g.depth == 0 then
      match _found : family.splitClosing 0 rest with
      | none => none
      | some (inside, after) =>
        let group := g :: rest.take (inside.length + 1)
        if subscripts && isSubscript [family] false (Text.ofGlyphs (piece.reverse ++ group)) then
          splitGroups family subscripts (group.reverse ++ piece) after
        else
          (splitGroups family subscripts [] after).map fun pieces =>
            piece.reverse :: group :: pieces
    else if g.isTop && (isBlank g.char || g.char == ',') then
      (splitGroups family subscripts [] rest).map fun pieces => piece.reverse :: pieces
    else splitGroups family subscripts (g :: piece) rest
termination_by glyphs.length
decreasing_by
  all_goals first
    | (obtain ⟨_, _, rfl⟩ := Bracket.append_of_splitClosing _found; simp; omega)
    | simp

/-- Split by blanks and commas, keeping the groups of the family whole.

With `subscripts`, blanks inside `()` and `[]` are deleted first and a group that reads as an array
subscript stays glued to the name before it; any other group is a token of its own. A trailing brace
group is split off at the last comma before it, which gives two tokens. With `strip`, an outer group
of the family is taken off first. -/
def decompose (family : Bracket) (subscripts strip : Bool) (chunk : Text) :
    Except ParseError (List Text) := do
  let text := if subscripts then removeInnerBlanks [.paren, .square] chunk.trim else chunk.trim
  checkBalance text
  let text :=
    match strip, family.scan text 0 with
    | true, .matched group => if group.isOuter then group.content.trim else text
    | _, _ => text
  match splitOptions? text with
  | some tokens => return tokens
  | none =>
    match splitGroups family subscripts [] text.glyphs with
    | some pieces => return tidy pieces
    | none => throw { cause := .unmatchedBracket, text }

end MissionScript
