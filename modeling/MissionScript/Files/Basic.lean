import MissionScript.Text.Basic

/-!
# Files

What a program needs to ask about files, in whatever way they are stored: on a disk, or in memory for
trying a program without one.
-/

namespace MissionScript

/-- Questions about stored files, answered by actions of `m`. -/
structure FileSystem (m : Type → Type) where
  /-- The content of a file, or why it cannot be read. -/
  read : Text → m (Except Text Text)
  isFile : Text → m Bool
  isDirectory : Text → m Bool
  /-- The names in a directory, in any order. Nothing for what is no directory. -/
  names : Text → m (List Text)

/-- The path of a name in a directory. -/
def childPath (directory name : Text) : Text :=
  if directory.getLast? == some '/' then directory ++ name else directory ++ '/' :: name

/-- The last name of a path. -/
def fileName (path : Text) : Text := (path.splitOn '/').getLastD []

/-- Files held in memory under their paths, each given as the names from the root on. -/
structure MemoryFiles where
  files : List (List Text × Text)

namespace MemoryFiles

def ofList (files : List (Text × Text)) : MemoryFiles :=
  ⟨files.map fun (path, content) => ((path.splitOn '/').filter (!·.isEmpty), content)⟩

/-- A directory is the root or what stands in front of a name in some path. -/
def hasDirectory (f : MemoryFiles) (place : List Text) : Bool :=
  place.isEmpty || f.files.any fun (path, _) => path != place && place.isPrefixOf path

def content? (f : MemoryFiles) (place : List Text) : Option Text := f.files.lookup place

/-- Follow names from a place on. A name is followed from a directory to what is there. -/
def follow? (f : MemoryFiles) (place : List Text) : List Text → Option (List Text)
  | [] => some place
  | name :: rest =>
    if !f.hasDirectory place then none
    else if name.isEmpty || name == ['.'] then f.follow? place rest
    else if name == ['.', '.'] then f.follow? place.dropLast rest
    else
      let inside := place ++ [name]
      if f.hasDirectory inside || (f.content? inside).isSome then f.follow? inside rest else none

/-- The place of a path that leads to something. Paths start at the root. -/
def place? (f : MemoryFiles) (path : Text) : Option (List Text) :=
  if path.isEmpty || path.head? == some '/' then none else f.follow? [] (path.splitOn '/')

def read (f : MemoryFiles) (path : Text) : Except Text Text :=
  match (f.place? path).bind f.content? with
  | some content => .ok content
  | none => .error "no such file".toList

/-- The names in a directory. -/
def namesIn (f : MemoryFiles) (place : List Text) : List Text :=
  (f.files.filterMap fun (path, _) =>
    if place.isPrefixOf path then (path.drop place.length).head? else none).eraseDups

def fileSystem (f : MemoryFiles) : FileSystem Id where
  read := f.read
  isFile path := ((f.place? path).bind f.content?).isSome
  isDirectory path := (f.place? path).any f.hasDirectory
  names path := (f.place? path).elim [] f.namesIn

end MemoryFiles

end MissionScript
