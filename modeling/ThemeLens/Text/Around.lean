import ThemeLens.Text.Basic

/-!
# What surrounds a place

Two readings of the text on both sides of a place: the dotted name under it, and the lines near
it. Both look the same backwards and forwards, so each is one function on a list of characters,
used once on what is before the place, nearest first, and once on what is after.
-/

namespace ThemeLens

/-- A piece of a text together with the offset it starts at. -/
structure Excerpt where
  start : Nat
  text : Text
  deriving DecidableEq, Repr

namespace Excerpt

/-- The bytes the piece covers. -/
def span (e : Excerpt) : Span := ⟨e.start, e.start + e.text.size⟩

end Excerpt

namespace Cursor

/-- The dotted run of identifiers at a place, without dots at its ends, if the place is in it or
at one of its ends. -/
def dottedRun? (k : Cursor) : Option Excerpt :=
  let left := k.before.takeWhile isRun
  let run := left.reverse ++ k.after.takeWhile isRun
  let dots := run.takeWhile (· == '.')
  let name := ((run.drop dots.length).reverse.dropWhile (· == '.')).reverse
  let found : Excerpt := ⟨k.offset - Text.size left + Text.size dots, name⟩
  if !name.isEmpty && found.span.touches k.offset then some found else none

/-- The characters up to the line feed that ends the line `radius` lines on. -/
def takeLines (radius : Nat) : Text → Text
  | [] => []
  | c :: t =>
    if c = '\n' then
      match radius with
      | 0 => []
      | radius + 1 => c :: takeLines radius t
    else c :: takeLines radius t

/-- The line of a place with `radius` lines on each side. -/
def lines (k : Cursor) (radius : Nat) : Excerpt :=
  let left := takeLines radius k.before
  ⟨k.offset - Text.size left, left.reverse ++ takeLines radius k.after⟩

end Cursor

end ThemeLens
