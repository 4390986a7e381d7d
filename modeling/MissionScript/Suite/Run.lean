import MissionScript.Suite.Check
import MissionScript.Suite.Discovery

/-!
# Running tests

All tests of a suite are run category by category, each with a line that says whether it passed. The
reasons of the failures follow, and a summary.
-/

namespace MissionScript

/-- How a test went. -/
structure TestOutcome where
  path : Text
  description : Option Text
  /-- Why it failed, unless it passed. -/
  failure : Option TestFailure

namespace TestOutcome

/-- Run a test with the content of its file. -/
def ofContent (settings : Settings) (path : Text) (content : Except Text Text) : TestOutcome :=
  match content with
  | .error reason => { path, description := none, failure := some (.unreadable reason) }
  | .ok content =>
    match TestFile.parse content with
    | .error e => { path, description := none, failure := some (.frontMatter e) }
    | .ok t =>
      { path
        description := t.expectation.description
        failure :=
          match t.check settings with
          | .ok () => none
          | .error failure => some failure }

def passed (o : TestOutcome) : Bool := o.failure.isNone

end TestOutcome

/-- Drop an ending as often as it is there. -/
def dropEndings (ending text : Text) : Text :=
  match _shorter : ending.before? text with
  | none => text
  | some rest => if rest.length < text.length then dropEndings ending rest else text
termination_by text.length

/-- What a test is called: its description, or the name of its file. -/
def TestOutcome.label (o : TestOutcome) : Text :=
  o.description.getD (dropEndings testSuffix (fileName o.path))

/-- A way to color words. -/
structure Palette where
  colored : Bool

namespace Palette

/-- Text in the color of a code. -/
def paint (p : Palette) (code : String) (text : Text) : Text :=
  if p.colored then ("\x1b[" ++ code ++ "m").toList ++ text ++ "\x1b[0m".toList else text

def good (p : Palette) (word : String) : Text := p.paint "32" word.toList

def bad (p : Palette) (word : String) : Text := p.paint "31" word.toList

def bold (p : Palette) (text : Text) : Text := p.paint "1" text

end Palette

namespace TestSuite

/-- The lines of a text without their ends. -/
def plainLines (text : Text) : List Text :=
  text.lines.map fun line =>
    match Text.before? ['\n'] line with
    | none => line
    | some line => (Text.before? ['\r'] line).getD line

/-- The line of a test. -/
def outcomeLine (p : Palette) (o : TestOutcome) : Text :=
  let word := if o.passed then p.good "PASS" else p.bad "FAIL"
  [' ', ' '] ++ word ++ [' ', ' '] ++ o.label ++ ['\n']

/-- The lines of a category. -/
def categoryLines (p : Palette) (named : Bool) (category : Text) (outcomes : List TestOutcome) :
    Text :=
  (if named then '\n' :: p.bold (label category) ++ ['\n'] else []) ++
    outcomes.flatMap (outcomeLine p)

/-- Why a test failed. -/
def failureLines (o : TestOutcome) : Text :=
  match o.failure with
  | none => []
  | some failure =>
    "\n  --- ".toList ++ o.path ++ " ---\n".toList ++
      (plainLines failure.message.toList).flatMap fun line => [' ', ' '] ++ line ++ ['\n']

/-- The last line. -/
def summary (p : Palette) (passed failed : Nat) : Text :=
  let count (n : Nat) : Text := Text.ofNat n
  let result (word : Text) : Text :=
    "\ntest result: ".toList ++ word ++ ". ".toList ++ count passed ++ " passed, ".toList ++
      count failed ++ " failed".toList
  if failed = 0 then result (p.good "ok") ++ ['\n']
  else result (p.bad "FAILED") ++ " (of ".toList ++ count (passed + failed) ++ ")\n".toList

/-- What is shown for the tests that ran. -/
def report (p : Palette) (named : Bool) (groups : List (Text × List TestOutcome)) : Text :=
  let outcomes := groups.flatMap (·.2)
  let failed := outcomes.filter (!·.passed)
  groups.flatMap (fun (category, outcomes) => categoryLines p named category outcomes) ++
    (if failed.isEmpty then []
     else "\nfailures:\n".toList ++ failed.flatMap failureLines) ++
    summary p (outcomes.length - failed.length) failed.length

variable {m : Type → Type} [Monad m]

/-- Run the tests of a suite. -/
def run (files : FileSystem m) (settings : Settings) (suite : TestSuite) :
    m (List (Text × List TestOutcome)) :=
  suite.entries.mapM fun (category, paths) => do
    let outcomes ← paths.mapM fun path => do
      return TestOutcome.ofContent settings path (← files.read path)
    return (category, outcomes)

end TestSuite

end MissionScript
