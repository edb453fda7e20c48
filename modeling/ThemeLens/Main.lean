import ThemeLens.Cli

/-!
# Running the command line

The file system and the streams of the process, and nothing else.
-/

namespace ThemeLens

namespace Machine

/-- Does a question about a path have the answer yes? A question that fails has not. -/
def holds (path : Text) (question : IO Bool) : IO Bool := do
  if (pathFault? path).isSome then return false
  try question catch _ => return false

/-- Is there a directory at a path? -/
def isDirectory (path : Text) : IO Bool :=
  holds path do (← IO.FS.realPath (String.ofList path)).isDir

/-- Is there a file at a path? -/
def isFile (path : Text) : IO Bool :=
  holds path do
    let place ← IO.FS.realPath (String.ofList path)
    return (← place.pathExists) && !(← place.isDir)

/-- Reads the file at a path. The one argument that the system calls invalid is a name that is too
long. -/
def readFile (path : Text) : IO (Except FileFault Text) := do
  if let some fault := pathFault? path then return .error fault
  try
    return decodeUtf8 (← IO.FS.readBinFile (String.ofList path))
  catch e =>
    if ← isDirectory path then return .error .isADirectory
    match e with
    | .inappropriateType .. => return .error .notADirectory
    | .invalidArgument .. => return .error .tooLong
    | _ => return .error .notFound

/-- The absolute path of what a path leads to, if it leads to anything. -/
def resolve (path : Text) : IO (Option Text) := do
  if path.contains '\x00' then return none
  try
    return some (← IO.FS.realPath (String.ofList path)).toString.toList
  catch _ => return none

/-- The file system of the machine. -/
def disk : Disk IO := ⟨readFile, isDirectory, isFile, resolve⟩

end Machine

/-- Shows a failure on the error stream. -/
def report (d : Diagnostic) : IO Unit := do
  if let some code := d.code then IO.eprintln code
  IO.eprintln s!"Error: {d.message}"
  if let some help := d.help then IO.eprintln s!"help: {help}"

end ThemeLens

open ThemeLens in
/-- Runs the command line on the arguments of the process. -/
def main (args : List String) : IO UInt32 := do
  match ← Cli.run Machine.disk (args.map String.toList) with
  | .ok output =>
    IO.print (String.ofList output)
    return 0
  | .error failure =>
    report failure
    return 1
