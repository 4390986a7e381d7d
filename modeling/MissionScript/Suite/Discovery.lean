import MissionScript.Files.Basic
import MissionScript.Objects.Table

/-!
# Finding tests

The test files in a directory and below it, by category. The category of a test is the path of its
directory from the root of the suite on.
-/

namespace MissionScript

/-- The end of the name of a test file. -/
def testSuffix : Text := ".test.script".toList

/-- Test files by category. -/
abbrev TestSuite := Table (List Text)

namespace TestSuite

/-- Add a test file to a category. -/
def add (suite : TestSuite) (category path : Text) : TestSuite :=
  suite.insert category ((suite.get? category).getD [] ++ [path])

/-- The category of a directory inside the directory of a category. -/
def subcategory (category name : Text) : Text :=
  let name := name.map fun c => if c == '\\' then '/' else c
  if category.isEmpty then name else category ++ '/' :: name

/-- Directories are not nested deeper than this. -/
def depthLimit : Nat := 4096

variable {m : Type → Type} [Monad m]

/-- Add the test files of a directory and of the directories in it. -/
def addDirectory (files : FileSystem m) :
    (depth : Nat) → (directory category : Text) → TestSuite → m TestSuite
  | 0, _, _, suite => return suite
  | depth + 1, directory, category, suite => do
    let names ← files.names directory
    names.foldlM (fun suite name => do
      let path := childPath directory name
      if ← files.isDirectory path then
        addDirectory files depth path (subcategory category name) suite
      else if (testSuffix.before? name).isSome then return suite.add category path
      else return suite) suite

/-- The test files below a directory, in the order of their paths. -/
def discover (files : FileSystem m) (root : Text) : m TestSuite := do
  let suite ← addDirectory files depthLimit root [] .empty
  return suite.map fun paths => paths.mergeSort fun a b => !(b < a)

/-- How a category is shown. The one of the root directory has no name. -/
def label (category : Text) : Text := if category.isEmpty then "(root)".toList else category

/-- Whether a request names a category or one that it lies in. -/
def isRequested (request category : Text) : Bool :=
  category == request || (request ++ ['/']).isPrefixOf category

/-- The categories for some requests, with the requests that brought no new category. -/
def select (suite : TestSuite) (requests : List Text) : TestSuite × List Text :=
  if requests.isEmpty then (suite, [])
  else
    requests.foldl (fun (chosen, failed) request =>
      let request := Text.trimChar '/' request
      let found := suite.entries.filter fun (category, _) => isRequested request category
      let more : TestSuite := found.foldl (fun t (category, paths) => t.insert category paths) chosen
      if more.entries.length = chosen.entries.length then (chosen, failed ++ [request])
      else (more, failed)) (.empty, [])

end TestSuite

end MissionScript
