import ThemeLens.Json.Writer

/-!
# Values of a theme

What a theme says about a path: a string, a number or a boolean, which can be shown in a line; a
list, kept whole; or the fact that there is a function, of which only the parameter names are
known. A value has two written forms. `text` is what a person reads: a string without quotes, a
list as JSON, a function as its signature. `toJson` is what a report holds, where a function is
its signature as a string.
-/

namespace ThemeLens

/-- A value that fits in a line. -/
inductive Scalar
  | string (s : Text)
  | number (n : Json.Num)
  | bool (b : Bool)
  deriving DecidableEq, Repr

/-- The value of a leaf. -/
inductive Value
  | scalar (s : Scalar)
  /-- An array, never looked into. -/
  | list (items : List Json)
  /-- A function, known by the names of its parameters. -/
  | function (params : List Text)
  deriving Repr

namespace Scalar

def text : Scalar → Text
  | string s => s
  | number n => n.text
  | bool b => if b then "true".toList else "false".toList

def toJson : Scalar → Json
  | string s => .str s
  | number n => .num n
  | bool b => .bool b

end Scalar

namespace Value

def isScalar : Value → Bool
  | scalar _ => true
  | list _ => false
  | function _ => false

/-- The signature of a function; one of unknown parameters is shown with `arg`. -/
def signature (params : List Text) : Text :=
  let shown := if params.isEmpty then "arg".toList else (", ".toList).intercalate params
  "function(".toList ++ shown ++ ") -> value".toList

/-- The value as a person reads it. -/
def text : Value → Text
  | scalar s => s.text
  | list items => (Json.arr items).compact
  | function params => signature params

/-- The value as a report holds it. -/
def toJson : Value → Json
  | scalar s => s.toJson
  | list items => .arr items
  | function params => .str (signature params)

end Value

end ThemeLens
