import MissionScript.CommandLine.Arguments
import MissionScript.Suite.Run

/-!
# The program

What the program writes for its arguments and the files that they name, and the code with which it
ends: zero for success, one for a script or a test that fails, two for wrong arguments.
-/

namespace MissionScript

/-- What a run of the program leaves behind. -/
structure ProgramResult where
  code : Nat := 0
  output : Text := []
  errors : Text := []

/-- The place of a byte of a text: line and column, both counted from one. -/
def columnOf (column offset : Nat) : Text → Nat
  | [] => column
  | c :: text =>
    if offset = 0 then column
    else columnOf (if c == '\n' then 1 else column + 1) (offset - c.utf8Size) text

/-- A script file. -/
structure SourceFile where
  path : Text
  content : Text

namespace SourceFile

/-- The lines that show a diagnostic. -/
def present (f : SourceFile) (d : Diagnostic) : Text :=
  let severity := if d.isWarning then "warning: " else "error: "
  let place : Text :=
    match d.span with
    | none => []
    | some span =>
      "  ┌─ ".toList ++ f.path ++ ':' :: Text.ofNat (lineOf span.start f.content) ++
        ':' :: Text.ofNat (columnOf 1 span.start f.content) ++ ['\n']
  (severity ++ d.message ++ "\n").toList ++ place

/-- The mission of the file, or what the program leaves behind for its errors. -/
def compile (settings : Settings) (f : SourceFile) : Except ProgramResult Mission :=
  match Mission.ofSource settings.keywords 0 f.content with
  | .ok mission => .ok mission
  | .error diagnostics =>
    let count := "error: could not compile due to ".toList ++ Text.ofNat diagnostics.length ++
      " error(s)\n".toList
    .error { code := 1, errors := diagnostics.flatMap f.present ++ count }

end SourceFile

/-- A text with blanks behind it up to a width. -/
def padded (width : Nat) (text : Text) : Text := text ++ List.replicate (width - text.length) ' '

/-- The line of a result. -/
def resultLine (r : SolverResult) : Text :=
  [' ', ' '] ++ padded 24 r.name ++ ' ' :: padded 16 r.kind.name ++
    ' ' :: (r.value.map Decimal.plain).getD ['-'] ++ " (".toList ++ Text.ofNat r.reports ++
    " report(s))\n".toList

/-- The results of every solver. -/
def RunReport.present (r : RunReport) : Text :=
  r.results.flatMap fun (solver, results) =>
    solver ++ ":\n".toList ++
      (if results.isEmpty then "  (no results)\n".toList else results.flatMap resultLine)

namespace Settings

/-- Read settings: further command keywords, solver types in place of the usual ones, and the limit
on the passes of a loop. -/
def ofEntries? (entries : TomlEntries) : Option Settings := do
  guard (entries.hasOnly ["commands", "solver_types", "max_loop_iterations"])
  let words ← entries.optional "commands" (Toml.list? Toml.text?)
  let types := (← entries.optional "solver_types" (Toml.list? Toml.text?)).getD []
  let limit ← entries.optional "max_loop_iterations" Toml.count?
  let usual : RunOptions := {}
  return {
    keywords := Keywords.builtin.insertAll (words.getD [])
    run :=
      { solverTypes := if types.isEmpty then usual.solverTypes else types
        passLimit := limit.getD usual.passLimit } }

end Settings

namespace Request

/-- Compile and run a script. -/
def runFile (settings : Settings) (f : SourceFile) : ProgramResult :=
  match f.compile settings with
  | .error result => result
  | .ok mission =>
    let (result, _) := Session.execute { mission, options := settings.run }
    match result with
    | .error d => { code := 1, errors := f.present d }
    | .ok report => { output := report.present, errors := report.warnings.flatMap f.present }

/-- Compile a script. -/
def checkFile (settings : Settings) (f : SourceFile) : ProgramResult :=
  match f.compile settings with
  | .error result => result
  | .ok mission =>
    { errors := "ok: ".toList ++ f.path ++ " compiled to ".toList ++
        Text.ofNat mission.arena.live ++ " command(s)\n".toList }

/-- Compile a script and list its sequence. -/
def dumpFile (settings : Settings) (style : ListingStyle) (f : SourceFile) : ProgramResult :=
  match f.compile settings with
  | .error result => result
  | .ok mission => { output := mission.listing style }

/-- Tests that are not there. -/
def noTests (path : Text) : Text :=
  "no ".toList ++ testSuffix ++ " files found in ".toList ++ path ++ ['\n']

/-- The categories of a suite with their sizes. -/
def categoryList (suite : TestSuite) : Text :=
  "available categories:\n".toList ++ suite.entries.flatMap fun (category, paths) =>
    [' ', ' '] ++ TestSuite.label category ++ " (".toList ++ Text.ofNat paths.length ++
      " tests)\n".toList

/-- The warning for a category that was asked for in vain. -/
def noCategory (suite : TestSuite) (request : Text) : Text :=
  "warning: category '".toList ++ request ++ "' not found (available: ".toList ++
    (Text.join ", " (suite.keys.map fun category => (TestSuite.label category).str)).toList ++
    ")\n".toList

variable {m : Type → Type} [Monad m]

/-- Do something with a script file that can be read. -/
def withFile (files : FileSystem m) (path : Text) (act : SourceFile → ProgramResult) :
    m ProgramResult := do
  match ← files.read path with
  | .ok content => return act { path, content }
  | .error reason =>
    return {
      code := 1
      errors := "error: cannot read '".toList ++ path ++ "': ".toList ++ reason ++ ['\n'] }

def listCategoriesIn (files : FileSystem m) (path : Text) : m ProgramResult := do
  if ← files.isFile path then
    return { errors := "(single file, no categories)\n".toList }
  let suite ← TestSuite.discover files path
  return { errors := if suite.entries.isEmpty then noTests path else categoryList suite }

/-- Run tests and show how they went. -/
def testSuite (files : FileSystem m) (settings : Settings) (palette : Palette) (named : Bool)
    (suite : TestSuite) : m ProgramResult := do
  let groups ← suite.run files settings
  let failed := groups.any fun (_, outcomes) => outcomes.any (!·.passed)
  return { code := if failed then 1 else 0, errors := TestSuite.report palette named groups }

/-- Run the tests of a directory. -/
def testDirectory (files : FileSystem m) (settings : Settings) (palette : Palette) (path : Text)
    (categories : List Text) : m ProgramResult := do
  let suite ← TestSuite.discover files path
  if suite.entries.isEmpty then return { code := 1, errors := noTests path }
  let (chosen, failed) := suite.select categories
  let warnings := failed.flatMap (noCategory suite)
  if chosen.entries.isEmpty then
    return { code := 1, errors := warnings ++ "no matching categories found\n".toList }
  let result ← testSuite files settings palette true chosen
  return { result with errors := warnings ++ result.errors }

/-- Do what is asked for. -/
def answer (files : FileSystem m) (settings : Settings) (palette : Palette) :
    Request → m ProgramResult
  | run path => withFile files path (runFile settings)
  | check path => withFile files path (checkFile settings)
  | dump path style => withFile files path (dumpFile settings style)
  | listCategories path => listCategoriesIn files path
  | test path categories => do
    if ← files.isFile path then
      testSuite files settings palette false (.ofList [([], [path])])
    else testDirectory files settings palette path categories

end Request

/-- What the program says about itself. -/
def usageText : Text :=
  ("Usage: mscript [--no-color] [--config CONFIG] COMMAND\n\n" ++
    "  run FILE      run a script\n" ++
    "  check FILE    compile a script\n" ++
    "  dump FILE     list the commands of a script [--addr] [--gen] [--indent INDENT]\n" ++
    "  test PATH     run test scripts [--category CATEGORY] [--list-categories]\n").toList

def versionText : Text := "mscript 0.1.0\n".toList

variable {m : Type → Type} [Monad m]

/-- The settings in a file, or why there are none. -/
def readSettings (files : FileSystem m) (path : Text) : m (Except Text Settings) := do
  match ← files.read path with
  | .error reason => return .error ("cannot read '".toList ++ path ++ "': ".toList ++ reason)
  | .ok content =>
    match (TomlEntries.ofText? content).bind Settings.ofEntries? with
    | none => return .error (path ++ ": TOML parse error".toList)
    | some settings => return .ok settings

/-- Answer an invocation. -/
def Invocation.answer (files : FileSystem m) (i : Invocation) : m ProgramResult := do
  let settings : Except Text Settings ← match i.config with
    | none => pure (.ok {})
    | some path => readSettings files path
  match settings with
  | .error reason => return { code := 1, errors := "error: ".toList ++ reason ++ ['\n'] }
  | .ok settings => i.request.answer files settings ⟨i.colored⟩

/-- Run the program with its arguments. -/
def runProgram (files : FileSystem m) (arguments : List Text) : m ProgramResult :=
  match Invocation.parse arguments with
  | .ok i => i.answer files
  | .error .help => return { output := usageText }
  | .error .version => return { output := versionText }
  | .error .nothing => return { code := 2, errors := usageText }
  | .error (.usage e) => return { code := 2, errors := ("error: " ++ e.message ++ "\n").toList }

end MissionScript
