import ThemeLens.Decimal.Layout
import ThemeLens.OrderedMap

/-!
# JSON values

Themes come in as JSON and answers go out as JSON, and both keep the order in which the fields of
an object are written. A number is an integer if its text is one and fits 64 bits, signed or
unsigned; any other number is a double. The two print differently: `1` and `1.0` are different
values here.
-/

namespace ThemeLens

namespace Json

/-- A JSON number, as its text was read. -/
inductive Num
  | int (n : Int)
  | double (x : Binary64)
  deriving DecidableEq, Repr

/-- The text of a number. It stands for the display of numbers in the JSON library that themes are
read with, which is not part of this project: integers in decimal, doubles with the fewest digits that
read back, in the layout of that library. -/
def Num.text : Num → Text
  | .int n => (toString n).toList
  | .double x => x.text .scientific

end Json

/-- A JSON value. A reader of JSON text gives each field of an object once. -/
inductive Json
  | null
  | bool (b : Bool)
  | num (n : Json.Num)
  | str (s : Text)
  | arr (items : List Json)
  | obj (fields : List (Text × Json))
  deriving Repr

namespace Json

/-- A value that is a natural number. -/
def nat (n : Nat) : Json := num (.int n)

/-- A string value from a string of the program's own. -/
def string (s : String) : Json := str s.toList

/-- An object whose field names are the program's own. -/
def record (fields : List (String × Json)) : Json :=
  obj (fields.map fun field => (field.1.toList, field.2))

/-- An optional value, with `null` for none. -/
def ofOption {α : Type} (encode : α → Json) : Option α → Json
  | none => null
  | some a => encode a

end Json

end ThemeLens
