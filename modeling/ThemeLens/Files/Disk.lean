import ThemeLens.Files.Path

/-!
# Reading files

What the program asks of the file system, and the ways in which reading a file fails. The
questions are a record over the monad they are answered in: the command line answers them by doing
input and output, and a `FileTree`, a file system that is a value, answers them at once.
-/

namespace ThemeLens

/-- Why a file cannot be read as text. -/
inductive FileFault
  /-- The path holds the character that ends a path. -/
  | nulInPath
  /-- The path, or a name in it, has too many bytes. -/
  | tooLong
  | notFound
  /-- Something on the way is a file. -/
  | notADirectory
  | isADirectory
  /-- The bytes are not UTF-8. -/
  | notText
  deriving DecidableEq, Repr

namespace FileFault

def message : FileFault → String
  | nulInPath => "file name contained an unexpected NUL byte"
  | tooLong => "File name too long (os error 36)"
  | notFound => "No such file or directory (os error 2)"
  | notADirectory => "Not a directory (os error 20)"
  | isADirectory => "Is a directory (os error 21)"
  | notText => "stream did not contain valid UTF-8"

end FileFault

/-- The number of bytes that is one too many for a path. -/
def pathLimit : Nat := 4096

/-- The number of bytes that is one too many for the name of a file or directory. -/
def nameLimit : Nat := 256

/-- What is wrong with a path whatever the file system holds. -/
def pathFault? (path : Text) : Option FileFault :=
  if path.contains '\x00' then some .nulInPath
  else if path.isEmpty then some .notFound
  else if pathLimit ≤ path.size then some .tooLong
  else none

/-- The questions asked of a file system. -/
structure Disk (m : Type → Type) where
  read : Text → m (Except FileFault Text)
  isDirectory : Text → m Bool
  isFile : Text → m Bool
  /-- The absolute path of what a path leads to, if it leads to anything. The path is followed name
  by name, so it may have any length. -/
  resolve : Text → m (Option Text)

/-- Bytes as text, if they are UTF-8. -/
def decodeUtf8 (bytes : ByteArray) : Except FileFault Text :=
  match String.fromUTF8? bytes with
  | some s => .ok s.toList
  | none => .error .notText

/-! ## A file system as a value -/

/-- What is at a place of a file system. -/
inductive FileEntry
  | file (bytes : ByteArray)
  | directory

/-- Files and directories by the parts of their absolute paths, with a working directory. -/
structure FileTree where
  workingDirectory : List Text
  entries : List (List Text × FileEntry)

namespace FileTree

/-- The parts of a path between its slashes. -/
def parts : Text → List Text
  | [] => [[]]
  | c :: t =>
    if c = '/' then [] :: parts t
    else
      match parts t with
      | [] => [[c]]
      | part :: rest => (c :: part) :: rest

def entry? (tree : FileTree) (place : List Text) : Option FileEntry :=
  if place.isEmpty then some .directory
  else (tree.entries.find? fun entry => entry.1 == place).map (·.2)

/-- Follows the parts of a path from a place. -/
def follow (tree : FileTree) (place : List Text) : List Text → Except FileFault (List Text)
  | [] => .ok place
  | part :: rest =>
    match tree.entry? place with
    | none => .error .notFound
    | some (.file _) => .error .notADirectory
    | some .directory =>
      if part = [] ∨ part = ['.'] then tree.follow place rest
      else if part = ['.', '.'] then tree.follow place.dropLast rest
      else if nameLimit ≤ Text.size part then .error .tooLong
      else if (tree.entry? (place ++ [part])).isSome then tree.follow (place ++ [part]) rest
      else .error .notFound

/-- The place a path leads to when its names are followed one by one. -/
def walk (tree : FileTree) (path : Text) : Except FileFault (List Text) :=
  if path.head? = some '/' then tree.follow [] (parts path)
  else tree.follow tree.workingDirectory (parts path)

/-- The place a path leads to. -/
def locate (tree : FileTree) (path : Text) : Except FileFault (List Text) :=
  match pathFault? path with
  | some fault => .error fault
  | none => tree.walk path

def read (tree : FileTree) (path : Text) : Except FileFault Text := do
  match tree.entry? (← tree.locate path) with
  | some (.file bytes) => decodeUtf8 bytes
  | some .directory => .error .isADirectory
  | none => .error .notFound

/-- What a path leads to. -/
def find? (tree : FileTree) (path : Text) : Option FileEntry :=
  match tree.locate path with
  | .ok place => tree.entry? place
  | .error _ => none

/-- The absolute path of a place. -/
def absolute (place : List Text) : Text :=
  if place.isEmpty then ['/'] else place.flatMap fun part => '/' :: part

/-- The tree as a file system that answers at once. -/
def disk (tree : FileTree) : Disk Id where
  read path := tree.read path
  isDirectory path := (tree.find? path).any fun entry => entry matches .directory
  isFile path := (tree.find? path).any fun entry => entry matches .file _
  resolve path :=
    if path.isEmpty then none
    else
      match tree.walk path with
      | .ok place => some (absolute place)
      | .error _ => none

/-- The tree of a working directory with nothing in it. -/
def emptyAt (workingDirectory : List Text) : FileTree :=
  ⟨workingDirectory, (List.range workingDirectory.length).map fun n =>
    (workingDirectory.take (n + 1), .directory)⟩

/-- Adds an entry at a path below the working directory, with the directories on the way. -/
def add (tree : FileTree) (path : Text) (entry : FileEntry) : FileTree :=
  let below := (parts path).filter fun part => !part.isEmpty && part != ['.']
  let place := tree.workingDirectory ++ below
  let above := (List.range (below.length - 1)).map fun n =>
    (tree.workingDirectory ++ below.take (n + 1), FileEntry.directory)
  let missing := above.filter fun e => (tree.entry? e.1).isNone
  { tree with
    entries := tree.entries.filter (fun e => e.1 != place) ++ missing ++ [(place, entry)] }

end FileTree

end ThemeLens
