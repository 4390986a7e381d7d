import MissionScript.Run.Execute
import MissionScript.Suite.Expectation

/-!
# Checking tests

A script is compiled and run, and the outcome is held against what is expected of it.
-/

namespace MissionScript

/-- What scripts are compiled and run with. -/
structure Settings where
  keywords : Keywords := .builtin
  run : RunOptions := {}

/-- Why a test fails. -/
inductive TestFailure where
  | unreadable (reason : Text)
  | frontMatter (error : FrontMatterError)
  | compiled
  | compileErrors (messages : List String)
  | listing (expected actual : Text)
  | otherError (expected : Text) (actual : String)
  | noError (expected : Text)
  | runError (message : String)
  | noResult (solver name : Text)
  | resultValue (solver name : Text) (expected : Float) (actual : Option Float)
  | resultReports (solver name : Text) (expected actual : Nat)
  | finalValue (name : Text) (expected : Float) (actual : Option Float)
  | warningCount (expected : Nat) (actual : List String)
  | warningText (index : Nat) (expected : Text) (actual : String)
  | warningLine (index expected actual : Nat)
  | warningNowhere (index line : Nat)

namespace TestFailure

def number (n : Nat) : String := (Text.ofNat n).str

/-- A value that may be absent. -/
def shown : Option Float → String
  | some x => "Some(" ++ (Decimal.marked x).str ++ ")"
  | none => "None"

def message : TestFailure → String
  | unreadable reason => "cannot read file: " ++ reason.str
  | frontMatter error => "frontmatter error: " ++ error.message
  | compiled => "expected a compile error, but compilation succeeded"
  | compileErrors messages => "unexpected compile error: " ++ Text.join "; " messages
  | listing expected actual =>
    "listing mismatch\n  expected:\n" ++ expected.str ++ "\n  actual:\n" ++ actual.str
  | otherError expected actual =>
    "expected error containing " ++ expected.quoted ++ ", got: " ++ actual
  | noError expected =>
    "expected error containing " ++ expected.quoted ++ ", but the run succeeded"
  | runError message => "unexpected error: " ++ message
  | noResult solver name => "solver " ++ solver.str ++ " recorded no result for " ++ name.str
  | resultValue solver name expected actual =>
    solver.str ++ " " ++ name.str ++ ": expected value " ++ (Decimal.plain expected).str ++
      ", got " ++ shown actual
  | resultReports solver name expected actual =>
    solver.str ++ " " ++ name.str ++ ": expected " ++ number expected ++ " report(s), got " ++
      number actual
  | finalValue name expected actual =>
    name.str ++ ": expected " ++ (Decimal.plain expected).str ++ ", got " ++ shown actual
  | warningCount expected actual =>
    "expected " ++ number expected ++ " warning(s), got " ++ number actual.length ++
      "\n  actual warnings:\n" ++
      (if actual.isEmpty then "    (none)" else Text.join "\n" (actual.map ("    - " ++ ·)))
  | warningText index expected actual =>
    "warning[" ++ number index ++ "]: expected message containing " ++ expected.quoted ++
      ", got: " ++ actual
  | warningLine index expected actual =>
    "warning[" ++ number index ++ "]: expected on line " ++ number expected ++
      ", but span is on line " ++ number actual
  | warningNowhere index line =>
    "warning[" ++ number index ++ "]: expected on line " ++ number line ++
      ", but warning has no span"

end TestFailure

/-- How far a value may be from the expected one. -/
def tolerance : Float := Decimal.ofScaled ⟨1, -9⟩

/-- Whether a value is there and close to the expected one. -/
def isClose (expected : Float) (actual : Option Float) : Bool :=
  actual.any fun x => (x - expected).abs ≤ tolerance

/-- The line, counted from one, on which a byte of a text stands. -/
def lineOf (offset : Nat) : Text → Nat
  | [] => 1
  | c :: text =>
    if offset = 0 then 1
    else (if c == '\n' then 1 else 0) + lineOf (offset - c.utf8Size) text

namespace Diagnostic

def message (d : Diagnostic) : String := d.error.message

/-- Whether the message contains a text. -/
def mentions (d : Diagnostic) (piece : Text) : Bool := Text.occursIn piece d.message.toList

end Diagnostic

namespace ExpectedResult

/-- Check that a solver has recorded the result. -/
def check (results : List (Text × List SolverResult)) (e : ExpectedResult) :
    Except TestFailure Unit := do
  let recorded := (results.filter (·.1 == e.solver)).flatMap (·.2)
  match recorded.find? (·.name == e.name) with
  | none => throw (.noResult e.solver e.name)
  | some found =>
    if let some expected := e.value then
      if !isClose expected found.value then
        throw (.resultValue e.solver e.name expected found.value)
    if let some expected := e.reports then
      if found.reports != expected then
        throw (.resultReports e.solver e.name expected found.reports)

end ExpectedResult

/-- Check the value of a variable or of `Object.Parameter`. -/
def checkValue (objects : Store) (name : Text) (expected : Float) : Except TestFailure Unit :=
  let (object, parameter) := (name.cutAt '.').getD (name, valueParameter)
  let actual := Store.parameter? objects object parameter
  if isClose expected actual then .ok () else .error (.finalValue name expected actual)

namespace ExpectedWarning

/-- Check one warning. -/
def check (script : Text) (index : Nat) (actual : Diagnostic) (e : ExpectedWarning) :
    Except TestFailure Unit :=
  if !actual.mentions e.contained then
    .error (.warningText index e.contained actual.message)
  else match e.line, actual.span with
    | none, _ => .ok ()
    | some line, some span =>
      if lineOf span.start script = line then .ok ()
      else .error (.warningLine index line (lineOf span.start script))
    | some line, none => .error (.warningNowhere index line)

/-- Check the warnings from number `index` on. -/
def checkEach (script : Text) : (index : Nat) → List Diagnostic → List ExpectedWarning →
    Except TestFailure Unit
  | index, actual :: others, e :: rest => do
    e.check script index actual
    checkEach script (index + 1) others rest
  | _, _, _ => .ok ()

end ExpectedWarning

/-- Check that there are as many warnings as expected, and each of them. -/
def checkWarnings (script : Text) (actual : List Diagnostic) (expected : List ExpectedWarning) :
    Except TestFailure Unit :=
  if actual.length = expected.length then ExpectedWarning.checkEach script 0 actual expected
  else .error (.warningCount expected.length (actual.map (·.message)))

namespace Expectation

/-- Check the errors of a script that does not compile. -/
def checkCompileErrors (e : Expectation) (errors : List Diagnostic) : Except TestFailure Unit :=
  if e.error.any fun expected => errors.any (·.mentions expected) then .ok ()
  else .error (.compileErrors (errors.map (·.message)))

def checkListing (e : Expectation) (mission : Mission) : Except TestFailure Unit :=
  match e.listing with
  | none => .ok ()
  | some expected =>
    let actual := (mission.listing ⟨false, false, [' ', ' ']⟩).trim
    if actual = expected.trim then .ok () else .error (.listing expected.trim actual)

/-- Check a run that succeeded. -/
def checkReport (e : Expectation) (script : Text) (report : RunReport) (objects : Store) :
    Except TestFailure Unit := do
  e.results.forM (·.check report.results)
  e.values.entries.forM fun (name, expected) => checkValue objects name expected
  e.warnings.forM (checkWarnings script report.warnings)

/-- Check how a run ended. -/
def checkRun (e : Expectation) (script : Text) (result : Except Diagnostic RunReport)
    (objects : Store) : Except TestFailure Unit :=
  match result, e.error with
  | .error actual, some expected =>
    if actual.mentions expected then .ok () else .error (.otherError expected actual.message)
  | .ok _, some expected => .error (.noError expected)
  | .error actual, none => .error (.runError actual.message)
  | .ok report, none => e.checkReport script report objects

end Expectation

namespace TestFile

/-- Compile and run the script of a test, and hold the outcome against what is expected. -/
def check (settings : Settings) (t : TestFile) : Except TestFailure Unit :=
  match Mission.ofSource settings.keywords 0 t.script, t.expectation.parseError with
  | .error _, true => .ok ()
  | .ok _, true => .error .compiled
  | .error errors, false => t.expectation.checkCompileErrors errors
  | .ok mission, false => do
    t.expectation.checkListing mission
    let (result, session) := Session.execute { mission, options := settings.run }
    t.expectation.checkRun t.script result session.objects

end TestFile

end MissionScript
