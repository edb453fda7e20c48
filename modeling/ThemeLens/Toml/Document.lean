import ThemeLens.Toml.Lexeme
import ThemeLens.Toml.Table

/-!
# TOML documents

A document is a sequence of lines: assignments, headers of tables, headers of elements of arrays of
tables. `readLine` reads one of them, `readFrom` reads them all and fills the tables on the way, so
that of two faults the one that comes first in the text is reported.

Arrays and tables in braces nest at most `nesting` levels deep, and a key has fewer than
`keyParts` parts. The entries in braces end at the comma that no such key follows, and they are
filled in before the closing brace is read: a key repeated among them is reported even if what
comes next is malformed.
-/

namespace ThemeLens.Toml

/-- The greatest depth of arrays and tables in braces. -/
def nesting : Nat := 79

/-- The number of parts that is one too many for a key. -/
def keyParts : Nat := 80

/-- Readers of TOML take what they read off the front of a text. -/
abbrev Read := StateT Text (Except Fault)

namespace Read

def fail {α : Type} : Read α := throw .malformed

/-- Reads one word. -/
def word {α : Type} (read? : Text → Option (α × Text)) : Read α := do
  match read? (← get) with
  | some (a, rest) => set rest; return a
  | none => fail

/-- Drops something from the front. -/
def drop (drop? : Text → Option Text) : Read Unit :=
  word fun t => (drop? t).map fun rest => ((), rest)

def expect (c : Char) : Read Unit := drop (Text.strip? [c])

/-- Is this the next character? -/
def sees (c : Char) : Read Bool := do return (← get).head? == some c

def spaces : Read Unit := modify (·.dropWhile isSpace)

def lines : Read Unit := modify (skipLines false)

end Read

open Read

/-! ## Keys -/

def isBare (c : Char) : Bool := c.isAlphanum || c == '_' || c == '-'

/-- Could a key start here, behind blanks? -/
def startsKey (t : Text) : Bool :=
  match t.dropWhile isSpace with
  | c :: _ => isBare c || c == '"' || c == '\''
  | [] => false

/-- Reads one part of a key, with blanks around it. -/
def readPart? (t : Text) : Option (Text × Text) :=
  let trimmed (part : Text × Text) : Text × Text := (part.1, part.2.dropWhile isSpace)
  match t.dropWhile isSpace with
  | '"' :: rest => (readBasic? rest).map trimmed
  | '\'' :: rest => (readLiteral? rest).map trimmed
  | t =>
    let bare := t.takeWhile isBare
    if bare.isEmpty then none else some (trimmed (bare, t.dropWhile isBare))

/-- Reads the parts of a key, `steps` at most: those on the way, and the last one. A point that no
part follows is left to be read. -/
def readParts? : (steps : Nat) → Text → Option ((List Text × Text) × Text)
  | 0, _ => none
  | steps + 1, t =>
    (readPart? t).bind fun (part, rest) =>
      match rest with
      | '.' :: after =>
        if startsKey after then
          (readParts? steps after).map fun ((path, key), rest) => ((part :: path, key), rest)
        else some (([], part), rest)
      | _ => some (([], part), rest)

/-- Reads a key, however long: its parts, if they are not too many. -/
def readKey? : Read (Option (List Text × Text)) := do
  let (path, key) ← word (readParts? ((← get).length + 1))
  return if path.length + 1 < keyParts then some (path, key) else none

/-- Reads a key of one or more parts. -/
def readKey : Read (List Text × Text) := do
  match ← readKey? with
  | some parts => return parts
  | none => fail

/-! ## Values -/

mutual

/-- Reads a value, the item of an array or what a key is set to, up to `room` levels deep. -/
def readValue (steps room : Nat) : Read Toml :=
  match steps with
  | 0 => fail
  | steps + 1 => do
    match (← get).head? with
    | none => fail
    | some c =>
      if c = '"' ∨ c = '\'' then return .string (← word readString?)
      else if c = '[' then
        match room with
        | 0 => fail
        | room + 1 => do
          expect '['
          return .array (← readItems steps room)
      else if c = '\x7b' then
        match room with
        | 0 => fail
        | room + 1 => do
          expect '\x7b'
          let table ← ofPairs (← readPairs steps room)
          expect '\x7d'
          return table
      else if c = 't' then do
        drop (Text.strip? "true".toList)
        return .boolean true
      else if c = 'f' then do
        drop (Text.strip? "false".toList)
        return .boolean false
      else word readNumberOrMoment?

/-- Reads the items of an array and the bracket that closes it. A comma may follow the last. -/
def readItems (steps room : Nat) : Read (List Toml) :=
  match steps with
  | 0 => fail
  | steps + 1 => do
    lines
    if ← sees ']' then
      expect ']'
      return []
    else
      let item ← readValue steps room
      lines
      if ← sees ',' then
        expect ','
        return item :: (← readItems steps room)
      else
        expect ']'
        return [item]

/-- Reads entries in braces and the blanks behind them. A key of too many parts is left to be
read. -/
def readPairs (steps room : Nat) : Read (List (List Text × Text × Toml)) :=
  match steps with
  | 0 => fail
  | steps + 1 => do
    let t ← get
    if startsKey t then
      match ← readKey? with
      | none =>
        set t
        return []
      | some (path, key) => do
        expect '='
        spaces
        let value ← readValue steps room
        spaces
        return (path, key, value) :: (← readMorePairs steps room)
    else
      spaces
      return []

/-- Reads the entries that follow one. A comma that no entry follows is left to be read. -/
def readMorePairs (steps room : Nat) : Read (List (List Text × Text × Toml)) :=
  match steps with
  | 0 => fail
  | steps + 1 => do
    let t ← get
    if ← sees ',' then
      expect ','
      match ← readPairs steps room with
      | [] =>
        set t
        return []
      | pairs => return pairs
    else return []

end

/-! ## Lines -/

/-- A line of a document that says something. -/
inductive Line
  | assignment (path : List Text) (key : Text) (value : Toml)
  | tableHeader (path : List Text) (key : Text)
  | elementHeader (path : List Text) (key : Text)

/-- Reads a line that starts with neither a comment nor a line end. -/
def readLine : Read Line := do
  let steps := 2 * (← get).length + 2
  match ← get with
  | '[' :: '[' :: rest => do
    set rest
    let (path, key) ← readKey
    expect ']'
    expect ']'
    drop endOfLine?
    return .elementHeader path key
  | '[' :: rest => do
    set rest
    let (path, key) ← readKey
    expect ']'
    drop endOfLine?
    return .tableHeader path key
  | _ => do
    let (path, key) ← readKey
    expect '='
    spaces
    let value ← readValue steps nesting
    drop endOfLine?
    return .assignment path key value

/-- A document while it is being read: its entries, and the path of the table that assignments
go to. -/
structure Document where
  fields : Fields
  current : List Text

namespace Document

/-- A header opens a table or an element; whatever keeps it from doing so, the header is wrong. -/
def openAt (d : Document) (change : Text → Origin → Fields → Except Fault Fields)
    (path : List Text) (key : Text) : Except Fault Document :=
  match descend (.document []) false (change key) path .header d.fields with
  | .ok fields => .ok ⟨fields, path ++ [key]⟩
  | .error _ => .error .malformed

/-- What a line does to a document. -/
def add (d : Document) : Line → Except Fault Document
  | .tableHeader path key => d.openAt openTable path key
  | .elementHeader path key => d.openAt openElement path key
  | .assignment path key value => do
    let change (_ : Origin) (fields : Fields) : Except Fault Fields :=
      assignPath (.document d.current) path key value fields
    let fields ← descend (.document d.current) false change d.current .header d.fields
    return { d with fields }

/-- Reads the lines from here on. `steps` bounds their number. -/
def readFrom : (steps : Nat) → Document → Text → Except Fault Document
  | 0, _, _ => .error .malformed
  | steps + 1, d, t =>
    match t.dropWhile isSpace with
    | [] => .ok d
    | c :: rest =>
      if c = '#' ∨ c = '\n' ∨ c = '\r' then
        match endOfLine? (c :: rest) with
        | some rest => readFrom steps d rest
        | none => .error .malformed
      else do
        let (line, rest) ← readLine (c :: rest)
        readFrom steps (← d.add line) rest

end Document

/-- The entries of the document that a text writes; a byte order mark in front is skipped. -/
def read (t : Text) : Except Fault Fields :=
  let t := if t.head? == some '\ufeff' then t.drop 1 else t
  (Document.readFrom (t.length + 1) ⟨[], []⟩ t).map (·.fields)

end ThemeLens.Toml
