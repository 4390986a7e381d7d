import MissionScript.Bracket.Group
import MissionScript.Text.Word

/-!
# Subscripts

Telling an array subscript such as `v(3)` or `A(i,j)` from a grouping such as `(a+b)`, and closing
up the blanks inside groups.
-/

namespace MissionScript

/-- One index of a subscript: an integer or an identifier, with `single` of one character only. -/
def isIndex (single : Bool) (index : Text) : Bool :=
  (index.isInteger || index.isIdentifier) && (!single || index.length == 1)

/-- Whether a fragment is an array subscript: a dotted name, which may be missing, and one group of
one of the families that ends the fragment and holds one or two indices. -/
def isSubscript (families : List Bracket) (single : Bool) (fragment : Text) : Bool :=
  let opensOne (g : Glyph) : Bool := families.any g.opens
  match splitFirst opensOne fragment.trim.glyphs with
  | none => false
  | some (before, opening, rest) =>
    match families.find? opening.opens with
    | none => false
    | some family =>
      match family.splitClosing 0 rest with
      | some (inside, []) =>
        let name := Text.ofGlyphs before
        let indices := (Text.ofGlyphs inside).splitOn ','
        (name.isEmpty || name.isDottedName) && indices.length ≤ 2 &&
          indices.all fun index => isIndex single (Text.trim index)
      | _ => false

/-- The glyphs that stay when the blanks inside groups of the families go, with `depth` groups
open. -/
def keepOutsideBlanks (families : List Bracket) : (depth : Nat) → List Glyph → List Glyph
  | _, [] => []
  | depth, g :: rest =>
    if g.quoted then g :: keepOutsideBlanks families depth rest
    else if families.any g.opens then g :: keepOutsideBlanks families (depth + 1) rest
    else if families.any g.closes then g :: keepOutsideBlanks families (depth - 1) rest
    else if depth != 0 && isBlank g.char then keepOutsideBlanks families depth rest
    else g :: keepOutsideBlanks families depth rest

/-- Delete the blanks inside the groups of the families, literals excepted: `v( 1 , 2 )` becomes
`v(1,2)`. -/
def removeInnerBlanks (families : List Bracket) (text : Text) : Text :=
  Text.ofGlyphs (keepOutsideBlanks families 0 text.glyphs)

end MissionScript
