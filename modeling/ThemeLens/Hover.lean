import ThemeLens.Accessor.Query
import ThemeLens.StyledTag
import ThemeLens.Text.Around
import ThemeLens.Theme.Table

/-!
# Hovering over a path

What the theme says about the word under the cursor, found in one of two ways. Inside an accessor
the path up to the end of the segment under the cursor is looked up, and a hit is certain. Failing
that, a bare dotted name that happens to be a path of the table is taken for one, as long as its
surroundings look like styled CSS: within a few lines there are both a placeholder and a tag. Such
a hit is inferred.
-/

namespace ThemeLens

/-- How sure a hover is. -/
inductive Confidence
  /-- The name is read from the theme. -/
  | high
  /-- The name equals a path of the theme, in a place where one is likely. -/
  | inferred
  deriving DecidableEq, Repr

/-- The name of a confidence in reports. -/
def Confidence.name : Confidence → String
  | high => "high"
  | inferred => "inferred"

/-- A path under the cursor and its value. -/
structure Hover where
  path : Text
  value : Value
  confidence : Confidence
  /-- The bytes that name the path. -/
  span : Span

namespace Hover

/-- The path up to the end of the segment that `typed` characters reach into, without a dot at
its end. -/
def pathThrough (path : Text) (typed : Nat) : Text :=
  let reached := path.take typed ++ (path.drop typed).takeWhile (· != '.')
  (reached.reverse.dropWhile (· == '.')).reverse

/-- The hover inside an accessor. -/
def certain? (text : Text) (offset : Nat) (table : Table) : Option Hover :=
  (Accessor.at? text offset).bind fun hit =>
    let path := pathThrough hit.accessor.path hit.typed.length
    (table.get? path).map fun value =>
      { path, value, confidence := .high
        span := ⟨hit.accessor.pathStart, hit.accessor.pathStart + path.size⟩ }

/-- Do these lines look like styled CSS? -/
def looksStyled (lines : Text) : Bool :=
  Text.hasPart ['$', '\x7b'] lines && StyledTag.occurs lines

/-- The hover on a bare dotted name, `radius` being how many lines around it are looked at. -/
def guessed? (text : Text) (offset : Nat) (table : Table) (radius : Nat) : Option Hover :=
  let k := text.seek offset
  k.dottedRun?.bind fun run =>
    (table.get? run.text).bind fun value =>
      if looksStyled (k.lines radius).text then
        some { path := run.text, value, confidence := .inferred, span := run.span }
      else none

/-- What is known about the place at an offset. -/
def at? (text : Text) (offset : Nat) (table : Table) (radius : Nat) : Option Hover :=
  (certain? text offset table).or (guessed? text offset table radius)

end Hover

end ThemeLens
