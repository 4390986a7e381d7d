import MissionScript.Command.Argument
import MissionScript.Command.Kind
import MissionScript.Expression.Parser

/-!
# Conditions

The conditions of `If` and `While`: comparisons joined by `&` and `|`, taken from left to right
without precedence between the two.
-/

namespace MissionScript

inductive Relation where
  | equal
  | notEqual
  | less
  | greater
  | lessOrEqual
  | greaterOrEqual
deriving DecidableEq, Repr

namespace Relation

def symbol : Relation → Text
  | equal => ['=', '=']
  | notEqual => ['~', '=']
  | less => ['<']
  | greater => ['>']
  | lessOrEqual => ['<', '=']
  | greaterOrEqual => ['>', '=']

def holds (r : Relation) (left right : Float) : Bool :=
  match r with
  | equal => left == right
  | notEqual => left != right
  | less => left < right
  | greater => right < left
  | lessOrEqual => left ≤ right
  | greaterOrEqual => right ≤ left

/-- The relation at the start of a text, and what follows it. -/
def leading? : Text → Option (Relation × Text)
  | '=' :: '=' :: rest => some (equal, rest)
  | '~' :: '=' :: rest => some (notEqual, rest)
  | '!' :: '=' :: rest => some (notEqual, rest)
  | '<' :: '=' :: rest => some (lessOrEqual, rest)
  | '>' :: '=' :: rest => some (greaterOrEqual, rest)
  | '<' :: rest => some (less, rest)
  | '>' :: rest => some (greater, rest)
  | _ => none

end Relation

/-- What joins two comparisons. -/
inductive Connective where
  | and
  | or
deriving DecidableEq, Repr

namespace Connective

def ofChar? : Char → Option Connective
  | '&' => some and
  | '|' => some or
  | _ => none

def apply : Connective → Bool → Bool → Bool
  | and => Bool.and
  | or => Bool.or

end Connective

structure Comparison where
  left : Expression
  relation : Relation
  right : Expression

structure Condition where
  first : Comparison
  rest : List (Connective × Comparison)

/-- Take off the parentheses around a whole text: `(x > 1)` reads as `x > 1`. -/
def stripParens (source : Text) : Text :=
  let text := source.trim
  match _found : Bracket.paren.scan text 0 with
  | .matched group => if group.isOuter then stripParens group.content else text
  | _ => text
termination_by source.length
decreasing_by
  have inner := Bracket.length_content_of_scan _found
  have outer : text.length ≤ source.length := Text.length_trim_le source
  omega

/-- Cut a text at its first top-level relation. -/
def splitRelation : List Glyph → Option (Text × Relation × Text)
  | [] => none
  | g :: rest =>
    match if g.isTop then Relation.leading? (Text.ofGlyphs (g :: rest)) else none with
    | some (relation, right) => some ([], relation, right)
    | none => (splitRelation rest).map fun (left, relation, right) =>
        (g.char :: left, relation, right)

/-- Cut a text at its top-level connectives, which may be doubled. `piece` is the piece being read,
last glyph first. -/
def splitConnectives (piece : List Glyph) : List Glyph → Text × List (Connective × Text)
  | [] => (Text.ofGlyphs piece.reverse, [])
  | g :: rest =>
    match if g.isTop then Connective.ofChar? g.char else none with
    | none => splitConnectives (g :: piece) rest
    | some connective =>
      let (next, more) :=
        match rest with
        | [] => splitConnectives [] []
        | second :: rest =>
          if second.char == g.char then splitConnectives [] rest
          else splitConnectives [] (second :: rest)
      (Text.ofGlyphs piece.reverse, (connective, next) :: more)

namespace Comparison

def parse (source : Text) : Except ArgumentError Comparison :=
  let text := stripParens source
  match splitRelation text.glyphs with
  | none => .error (.noRelation text)
  | some (left, relation, right) => do
    if left.trim.isEmpty || right.trim.isEmpty then throw (.incompleteComparison text)
    let left ← (Expression.parse left.trim).mapError .expression
    let right ← (Expression.parse right.trim).mapError .expression
    return { left, relation, right }

def value (store : Store) (c : Comparison) : Except ValueError Bool := do
  let left ← c.left.value store
  let right ← c.right.value store
  return c.relation.holds left right

def rename (old new : Text) (c : Comparison) : Comparison :=
  { c with left := c.left.rename old new, right := c.right.rename old new }

end Comparison

namespace Condition

def parse (text : Text) : Except ArgumentError Condition := do
  let (first, rest) := splitConnectives [] (stripParens text).glyphs
  let first ← Comparison.parse first
  let rest ← rest.mapM fun (connective, piece) => do
    return (connective, ← Comparison.parse piece)
  return { first, rest }

def comparisons (c : Condition) : List Comparison := c.first :: c.rest.map (·.2)

/-- Whether the condition holds. Every comparison is evaluated, whatever the ones before it say. -/
def value (store : Store) (c : Condition) : Except ValueError Bool := do
  c.rest.foldlM (fun result (connective, comparison) => do
    return connective.apply result (← comparison.value store)) (← c.first.value store)

/-- The expressions of the comparisons from left to right. -/
def expressions (c : Condition) : List Expression :=
  c.comparisons.flatMap fun comparison => [comparison.left, comparison.right]

/-- The objects that the condition reads. -/
def names (c : Condition) : List Text :=
  c.expressions.foldl (fun names e => Text.addNames names e.names) []

def owners (c : Condition) : List Text :=
  c.expressions.foldl (fun names e => Text.addNames names e.owners) []

def rename (old new : Text) (c : Condition) : Condition where
  first := c.first.rename old new
  rest := c.rest.map fun (connective, comparison) => (connective, comparison.rename old new)

end Condition

end MissionScript
