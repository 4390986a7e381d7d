import MissionScript.CommandLine.Program

/-!
# Entry point

The program on the files of the machine.
-/

open MissionScript

/-- Where the machine keeps a path. -/
def diskEntry (path : Text) : IO.FS.DirEntry := { root := path.str, fileName := "" }

/-- The files on the disk. -/
def diskFiles : FileSystem IO where
  read path := do
    try return .ok (← IO.FS.readFile (diskEntry path).root).toList
    catch e => return .error (toString e).toList
  isFile path := do
    try return (← (diskEntry path).root.metadata).type == .file
    catch _ => return false
  isDirectory path := (diskEntry path).root.isDir
  names path := do
    try return (← (diskEntry path).root.readDir).toList.map (·.fileName.toList)
    catch _ => return []

def main (arguments : List String) : IO UInt32 := do
  let result ← runProgram diskFiles (arguments.map String.toList)
  (← IO.getStdout).putStr result.output.str
  (← IO.getStderr).putStr result.errors.str
  return result.code.toUInt32
