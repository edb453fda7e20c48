import ThemeLens.OrderedMap
import ThemeLens.Toml.Basic

/-!
# Filling tables

A key of several parts leads through tables that it makes where they are missing. `descend` goes
down such a path and changes the table at its end; everything a line of a document or an entry in
braces does is one descent followed by an `assign`, an `openTable` or an `openElement`.

Two things depend on where the descent starts. Inside braces every table met was written there, so
reopening one is a repeated key; in the document a table in braces is a finished value. And only
the document can say in which of its tables a key is repeated.
-/

namespace ThemeLens.Toml

/-- Where keys are being filled in. -/
inductive Scope
  /-- In the table of the document with this path. -/
  | document (path : List Text)
  /-- In a table in braces. -/
  | braces
  deriving DecidableEq, Repr

namespace Scope

/-- The path of the table, as a repeated key reports it. -/
def path? : Scope → Option (List Text)
  | document path => some path
  | braces => none

end Scope

/-- The entries of a table. -/
abbrev Fields := List (Text × Toml)

/-- Goes down a path and changes the entries at its end, `origin` being that of the table they are
in. With `byDottedKey` set, tables with a header of their own are closed. -/
def descend (scope : Scope) (byDottedKey : Bool)
    (change : Origin → Fields → Except Fault Fields) :
    (path : List Text) → Origin → Fields → Except Fault Fields
  | [], origin, fields => change origin fields
  | key :: path, _, fields =>
    let put (value : Toml) : Fields := Entries.put key value fields
    match Entries.get? key fields with
    | none =>
      let origin := if byDottedKey then Origin.dotted else Origin.implied
      (descend scope byDottedKey change path origin []).map fun below => put (.table origin below)
    | some (.table origin below) =>
      if origin = .braces then
        match scope with
        | .braces => .error (.duplicateKey key none)
        | .document _ => .error .malformed
      else if byDottedKey ∧ origin = .header then .error (.duplicateKey key none)
      else
        (descend scope byDottedKey change path origin below).map fun below =>
          put (.table origin below)
    | some (.tables elements) =>
      let last := elements.getLastD []
      (descend scope byDottedKey change path .header last).map fun below =>
        put (.tables (elements.dropLast ++ [below]))
    | some _ => .error .malformed

/-- Gives a new key its value. A dotted key may only add to tables that dotted keys have made. -/
def assign (scope : Scope) (viaPath : Bool) (key : Text) (value : Toml) (origin : Origin)
    (fields : Fields) : Except Fault Fields :=
  if viaPath ∧ origin ≠ .dotted then .error (.duplicateKey key none)
  else if (Entries.get? key fields).isSome then .error (.duplicateKey key scope.path?)
  else .ok (fields ++ [(key, value)])

/-- Assigns a value to a key of one or more parts. -/
def assignPath (scope : Scope) (path : List Text) (key : Text) (value : Toml) (fields : Fields) :
    Except Fault Fields :=
  descend scope true (assign scope (!path.isEmpty) key value) path .header fields

/-- Gives a table its header. One that was only implied is moved to where the header stands. -/
def openTable (key : Text) (_ : Origin) (fields : Fields) : Except Fault Fields :=
  match Entries.get? key fields with
  | none => .ok (fields ++ [(key, .table .header [])])
  | some (.table .implied below) =>
    .ok (fields.filter (fun entry => entry.1 != key) ++ [(key, .table .header below)])
  | some _ => .error .malformed

/-- Begins the next element of an array of tables. -/
def openElement (key : Text) (_ : Origin) (fields : Fields) : Except Fault Fields :=
  match Entries.get? key fields with
  | none => .ok (fields ++ [(key, .tables [[]])])
  | some (.tables elements) => .ok (Entries.put key (.tables (elements ++ [[]])) fields)
  | some _ => .error .malformed

/-- The table of entries in braces, each with a key of one or more parts. -/
def ofPairs (pairs : List (List Text × Text × Toml)) : Except Fault Toml :=
  (pairs.foldlM (fun fields (path, key, value) => assignPath .braces path key value fields)
    ([] : Fields)).map (.table .braces)

end ThemeLens.Toml
