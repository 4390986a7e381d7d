import MissionScript.Text.Glyph

/-!
# Words

Identifiers, integers and the words of free-form text. The classes are ASCII classes: a letter
outside ASCII ends a word.
-/

namespace MissionScript

/-- A character of an identifier: an ASCII letter or digit, or an underscore. -/
def isWordChar (c : Char) : Bool := c.isAlphanum || c == '_'

namespace Text

/-- An ASCII letter or underscore, then ASCII letters, digits and underscores. -/
def isIdentifier : Text → Bool
  | [] => false
  | c :: text => (c.isAlpha || c == '_') && text.all isWordChar

/-- A non-empty run of ASCII digits. -/
def isInteger (text : Text) : Bool := !text.isEmpty && text.all Char.isDigit

/-- Identifiers with a dot between neighbours. -/
def isDottedName (text : Text) : Bool := (text.splitOn '.').all isIdentifier

/-- Whether a word with these neighbours stands alone. After a dot it is a field, not an object. -/
def standsAlone (before after : Option Char) : Bool :=
  !before.any (fun c => isWordChar c || c == '.') && !after.any isWordChar

/-- Replace `old` in a text that follows `before`. Occurrences are taken from the left and do not
overlap; one that does not stand alone is kept. -/
def replaceWordAfter (before : Option Char) (old new : Text) (text : Text) : Text :=
  match text with
  | [] => []
  | c :: rest =>
    if old.isPrefixOf (c :: rest) then
      let following := rest.drop (old.length - 1)
      (if standsAlone before following.head? then new else old) ++
        replaceWordAfter (if old.isEmpty then some c else old.getLast?) old new following
    else c :: replaceWordAfter (some c) old new rest
termination_by text.length
decreasing_by
  · simp only [List.length_drop, List.length_cons]; omega
  · simp

/-- Replace the occurrences of the word `old`, fields excepted. -/
def replaceWord (old new text : Text) : Text :=
  if old.isEmpty then text else replaceWordAfter none old new text

/-- Append the names that are not there yet. -/
def addNames (names more : List Text) : List Text :=
  more.foldl (fun names name => if names.contains name then names else names ++ [name]) names

/-- The maximal runs of word characters outside literals, each with whether a dot stands directly
before it. `run` is the run being read, last character first. -/
def wordRuns (afterDot : Bool) (run : Text) : List Glyph → List (Bool × Text)
  | [] => [(afterDot, run.reverse)]
  | g :: rest =>
    if g.quoted then (afterDot, run.reverse) :: wordRuns false [] rest
    else if isWordChar g.char then wordRuns afterDot (g.char :: run) rest
    else (afterDot, run.reverse) :: wordRuns (g.char == '.') [] rest

/-- The identifiers of free-form text outside literals, fields excepted, in order of first
appearance. -/
def identifiers (text : Text) : List Text :=
  addNames [] <| (wordRuns false [] text.glyphs).filterMap fun (afterDot, run) =>
    if !afterDot && run.isIdentifier then some run else none

end Text

end MissionScript
