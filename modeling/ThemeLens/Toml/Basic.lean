import ThemeLens.Decimal.Layout
import ThemeLens.Text.Basic

/-!
# TOML values

What a settings file can hold. A table remembers how it came about, because that decides what a
later line may still do to it: a table with a header of its own is closed, one that only lies on
the way to another may still get its header, and one made by a dotted key grows by dotted keys
alone. Dates and times are recognised, and not kept.
-/

namespace ThemeLens

namespace Toml

/-- A floating point number. -/
inductive Float64
  | finite (x : Binary64)
  | infinite (negative : Bool)
  | nan
  deriving DecidableEq, Repr

/-- The text of a floating point number, always positional. -/
def Float64.text : Float64 → Text
  | finite x => x.text .plain
  | infinite negative => (if negative then "-inf" else "inf").toList
  | nan => "NaN".toList

/-- How a table came about. -/
inductive Origin
  /-- Written in braces. -/
  | braces
  /-- By a header of its own; the document itself counts as such a table. -/
  | header
  /-- By the header of a table below it. -/
  | implied
  /-- By a dotted key. -/
  | dotted
  deriving DecidableEq, Repr

end Toml

/-- A TOML value. -/
inductive Toml
  | string (s : Text)
  | integer (n : Int)
  | float (x : Toml.Float64)
  | boolean (b : Bool)
  /-- A date, a time or both. -/
  | moment
  | array (items : List Toml)
  | table (origin : Toml.Origin) (entries : List (Text × Toml))
  /-- The tables of an array of tables, in order. -/
  | tables (elements : List (List (Text × Toml)))
  deriving Repr

namespace Toml

/-- Why a text is no TOML document. -/
inductive Fault
  /-- The grammar is broken, or a table is opened or extended that must not be. -/
  | malformed
  /-- A key that is already there, in the table with this path if it is one of the document. -/
  | duplicateKey (key : Text) (table : Option (List Text))
  deriving DecidableEq, Repr

end Toml

end ThemeLens
