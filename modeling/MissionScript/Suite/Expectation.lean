import MissionScript.Objects.Table
import MissionScript.Toml.Field

/-!
# Test files

A test file is a script with what is expected of it in front: TOML between two lines of three dashes.
-/

namespace MissionScript

structure ExpectedWarning where
  /-- What the message must contain. -/
  contained : Text
  /-- The line of the script, counted from one, on which the warning stands. -/
  line : Option Nat

namespace ExpectedWarning

def read? (held : Toml) : Option ExpectedWarning := do
  let entries ← held.fields? ["contains", "line"]
  return {
    contained := ← entries.required "contains" Toml.text?
    line := ← entries.optional "line" Toml.count? }

end ExpectedWarning

structure ExpectedResult where
  solver : Text
  /-- The objective or the constrained value as it is written. -/
  name : Text
  value : Option Float
  reports : Option Nat

namespace ExpectedResult

def read? (held : Toml) : Option ExpectedResult := do
  let entries ← held.fields? ["solver", "name", "value", "reports"]
  return {
    solver := ← entries.required "solver" Toml.text?
    name := ← entries.required "name" Toml.text?
    value := ← entries.optional "value" Toml.number?
    reports := ← entries.optional "reports" Toml.count? }

end ExpectedResult

/-- What is expected of a script. -/
structure Expectation where
  description : Option Text := none
  /-- The script must not compile. -/
  parseError : Bool := false
  /-- What the error must contain with which compiling or running ends. -/
  error : Option Text := none
  /-- The listing of the sequence, up to blanks around it. -/
  listing : Option Text := none
  results : List ExpectedResult := []
  /-- The values of variables and of `Object.Parameter` in the end. -/
  values : Table Float := .empty
  /-- The warnings of the run, if they are to be checked. -/
  warnings : Option (List ExpectedWarning) := none

namespace Expectation

def readValues? (held : Toml) : Option (Table Float) := do
  let entries ← held.entries?
  let values ← entries.mapM fun (name, held) => (held.number?).map (name, ·)
  return .ofList values

def ofEntries? (entries : TomlEntries) : Option Expectation := do
  guard (entries.hasOnly ["description", "expect_parse_error", "expect_error", "expect_listing",
    "expect_results", "expect_values", "expect_warnings"])
  return {
    description := ← entries.optional "description" Toml.text?
    parseError := (← entries.optional "expect_parse_error" Toml.boolean?).getD false
    error := ← entries.optional "expect_error" Toml.text?
    listing := ← entries.optional "expect_listing" Toml.text?
    results := (← entries.optional "expect_results" (Toml.list? ExpectedResult.read?)).getD []
    values := (← entries.optional "expect_values" readValues?).getD .empty
    warnings := ← entries.optional "expect_warnings" (Toml.list? ExpectedWarning.read?) }

end Expectation

/-- Why a test file does not come apart. -/
inductive FrontMatterError where
  | noOpening
  | noClosing
  /-- The front matter is no TOML, or not of this form. -/
  | badToml
deriving DecidableEq, Repr

namespace FrontMatterError

def message : FrontMatterError → String
  | noOpening => "missing opening --- frontmatter delimiter"
  | noClosing => "missing closing --- frontmatter delimiter"
  | badToml => "TOML parse error"

end FrontMatterError

/-- Drop one line end, if the text starts with it. -/
def dropLineEnd : Text → Text
  | '\r' :: '\n' :: rest => rest
  | '\n' :: rest => rest
  | text => text

/-- Cut at the first line of exactly three dashes. Longer runs of dashes, as in listings, do not
count. -/
def cutAtDashes : Text → Option (Text × Text)
  | [] => none
  | c :: text =>
    let delimited : Option Text :=
      match Text.after? "\n---".toList (c :: text) with
      | some rest =>
        if rest.head?.all fun next => next == '\n' || next == '\r' then some rest else none
      | none => none
    match delimited with
    | some rest => some ([], rest)
    | none => (cutAtDashes text).map fun (left, right) => (c :: left, right)

/-- The front matter and the script of a test file. -/
def splitFrontMatter (content : Text) : Except FrontMatterError (Text × Text) :=
  match Text.after? "---".toList (content.dropWhile (· == '\ufeff')) with
  | none => .error .noOpening
  | some rest =>
    match cutAtDashes (dropLineEnd rest) with
    | none => .error .noClosing
    | some (front, rest) => .ok (Text.dropEndWhile (· == '\r') front, dropLineEnd rest)

/-- A script with what is expected of it. -/
structure TestFile where
  expectation : Expectation
  script : Text

namespace TestFile

def parse (content : Text) : Except FrontMatterError TestFile := do
  let (front, script) ← splitFrontMatter content
  match (TomlEntries.ofText? front).bind Expectation.ofEntries? with
  | none => throw .badToml
  | some expectation => return { expectation, script }

end TestFile

end MissionScript
