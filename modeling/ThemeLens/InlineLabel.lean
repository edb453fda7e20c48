import ThemeLens.Accessor.Query
import ThemeLens.Cancellation
import ThemeLens.Theme.Table

/-!
# Inline labels

A label shows the value of a path right behind it in the source. Only values that fit in a line
get one, and a string that is too wide is cut. The cancel check is polled once for every accessor,
whether or not it gets a label.
-/

namespace ThemeLens

/-- A value shown behind a path. -/
structure InlineLabel where
  /-- The offset right after the path. -/
  offset : Nat
  label : Text
  path : Text
  value : Scalar
  deriving DecidableEq, Repr

namespace InlineLabel

/-- What stands in for the rest of a string that is cut. -/
def ellipsis : Text := ['.', '.', '.']

/-- The first `width` characters of a wider text, with a sign that there are more. -/
def shorten (width : Nat) (s : Text) : Text :=
  if s.length ≤ width then s else s.take width ++ ellipsis

/-- A value as a label shows it; only strings are cut. -/
def display (width : Nat) : Scalar → Text
  | .string s => shorten width s
  | value => value.text

/-- How labels look. -/
structure Style where
  /-- The most characters of a string shown in full. -/
  width : Nat
  /-- What every label begins with. -/
  lead : Text
  deriving DecidableEq, Repr

/-- The label of an accessor, if its path has a value that fits in a line. -/
def forAccessor? (table : Table) (style : Style) (a : Accessor) : Option InlineLabel :=
  match table.get? a.path with
  | some (.scalar value) =>
    some
      { offset := a.stop
        label := style.lead ++ display style.width value
        path := a.path
        value }
  | _ => none

/-- The labels of the accessors in a window, in text order. -/
def within (text : Text) (window : Span) (table : Table) (style : Style) (polls : Polls) :
    List InlineLabel :=
  (polls.served (Accessor.within text window)).filterMap (forAccessor? table style)

end InlineLabel

end ThemeLens
