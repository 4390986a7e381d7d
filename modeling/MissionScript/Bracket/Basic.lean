import MissionScript.Text.Basic

/-!
# Bracket families

The script grammar nests three families of brackets: `()`, `[]` and `{}`.
-/

namespace MissionScript

/-- One of the three bracket families. -/
inductive Bracket where
  | paren
  | square
  | brace
deriving DecidableEq, Repr

namespace Bracket

def all : List Bracket := [paren, square, brace]

def opening : Bracket → Char
  | paren => '('
  | square => '['
  | brace => '{'

def closing : Bracket → Char
  | paren => ')'
  | square => ']'
  | brace => '}'

/-- The family that `c` opens. -/
def ofOpening? (c : Char) : Option Bracket := all.find? (·.opening == c)

/-- The family that `c` closes. -/
def ofClosing? (c : Char) : Option Bracket := all.find? (·.closing == c)

/-- The family written as its opening and its closing character. -/
def ofSpec? (spec : Text) : Option Bracket := all.find? fun b => spec == [b.opening, b.closing]

/-- The opening and the closing character. -/
def spec (b : Bracket) : Text := [b.opening, b.closing]

theorem ofOpening?_opening (b : Bracket) : ofOpening? b.opening = some b := by cases b <;> rfl

theorem ofClosing?_closing (b : Bracket) : ofClosing? b.closing = some b := by cases b <;> rfl

theorem ofSpec?_spec (b : Bracket) : ofSpec? b.spec = some b := by cases b <;> rfl

end Bracket

/-- Whether `c` opens a group of some family. -/
def isOpening (c : Char) : Bool := (Bracket.ofOpening? c).isSome

/-- Whether `c` closes a group of some family. -/
def isClosing (c : Char) : Bool := (Bracket.ofClosing? c).isSome

end MissionScript
