import MissionScript.Bracket.Basic

/-!
# String literals and nesting

A single quote opens a string literal at the start of a text or after a blank, an operator, a comma
or an opening bracket; anywhere else it is the transpose operator. A `Glyph` is a character together
with what one pass from the left knows about it: whether it belongs to a literal, and how many
bracket groups are open where it stands.
-/

namespace MissionScript

/-- Where a pass over a text stands with respect to string literals. -/
structure Literal where
  /-- A literal is open. -/
  inside : Bool := false
  /-- The character before the next one. -/
  previous : Option Char := none
deriving DecidableEq, Repr

namespace Literal

/-- After which characters a single quote opens a literal. -/
def opensAfter : Option Char → Bool
  | none => true
  | some c => isBlank c || "([\x7b,=+-*/^<>;:&|~".toList.contains c

/-- Whether the next character `c` belongs to a literal, the quotes included. -/
def covers (s : Literal) (c : Char) : Bool :=
  s.inside || (c == '\'' && opensAfter s.previous)

/-- The position after the next character `c`. -/
def step (s : Literal) (c : Char) : Literal where
  inside := s.covers c && !(s.inside && c == '\'')
  previous := some c

/-- The position after a whole text. -/
def ofText (text : Text) : Literal := text.foldl step {}

end Literal

/-- A character with what a pass from the left knows about it. -/
structure Glyph where
  char : Char
  /-- It belongs to a string literal. -/
  quoted : Bool
  /-- How many groups are open before it. A close without an open leaves the count at zero. -/
  depth : Nat
deriving DecidableEq, Repr

namespace Glyph

/-- It stands outside every literal. -/
def isFree (g : Glyph) : Bool := !g.quoted

/-- It opens a group of the family `b`. -/
def opens (g : Glyph) (b : Bracket) : Bool := g.isFree && g.char == b.opening

/-- It closes a group of the family `b`. -/
def closes (g : Glyph) (b : Bracket) : Bool := g.isFree && g.char == b.closing

/-- It is neither a bracket nor inside a literal or a group. -/
def isTop (g : Glyph) : Bool :=
  g.isFree && g.depth == 0 && !isOpening g.char && !isClosing g.char

end Glyph

/-- The count of open groups after a free character `c`. -/
def depthAfter (depth : Nat) (c : Char) : Nat :=
  if isOpening c then depth + 1
  else if isClosing c then depth - 1
  else depth

/-- The glyphs of a text that is read on from a known position. -/
def glyphsFrom (position : Literal) (depth : Nat) : Text → List Glyph
  | [] => []
  | c :: text =>
    let quoted := position.covers c
    ⟨c, quoted, depth⟩ ::
      glyphsFrom (position.step c) (if quoted then depth else depthAfter depth c) text

namespace Text

/-- The glyphs of a text. -/
def glyphs (text : Text) : List Glyph := glyphsFrom {} 0 text

/-- The characters of some glyphs. -/
def ofGlyphs (glyphs : List Glyph) : Text := glyphs.map (·.char)

theorem ofGlyphs_glyphsFrom (position : Literal) (depth : Nat) (text : Text) :
    ofGlyphs (glyphsFrom position depth text) = text := by
  induction text generalizing position depth with
  | nil => rfl
  | cons c text ih => simpa [glyphsFrom, ofGlyphs] using ih _ _

@[simp] theorem ofGlyphs_glyphs (text : Text) : ofGlyphs text.glyphs = text :=
  ofGlyphs_glyphsFrom {} 0 text

theorem length_glyphsFrom (position : Literal) (depth : Nat) (text : Text) :
    (glyphsFrom position depth text).length = text.length := by
  simpa [ofGlyphs] using congrArg List.length (ofGlyphs_glyphsFrom position depth text)

@[simp] theorem length_glyphs (text : Text) : text.glyphs.length = text.length :=
  length_glyphsFrom {} 0 text

@[simp] theorem length_ofGlyphs (glyphs : List Glyph) :
    (ofGlyphs glyphs).length = glyphs.length := by
  simp [ofGlyphs]

/-- Cut a line at its first `%` outside literals into its code and its comment. -/
def splitComment (line : Text) : Text × Text :=
  let code := line.glyphs.takeWhile fun g => !(g.isFree && g.char == '%')
  (ofGlyphs code, line.drop code.length)

end Text

end MissionScript
