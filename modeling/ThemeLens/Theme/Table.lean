import ThemeLens.DottedPath
import ThemeLens.Theme.Value

/-!
# The table of a theme

A theme is used through a flat table from dotted paths to values, in the order of declaration.
Any ordered map of paths is a table; the queries accept them all. The tables made from themes
have a further property, which `collides` guards: no path is also the parent of another, so every
segment of every path is either a step further down or a leaf.
-/

namespace ThemeLens

/-- Values by dotted path, in order of declaration. -/
abbrev Table := OrderedMap Value

namespace Table

/-- Does some path go on below this one? -/
def hasChildren (table : Table) (path : Text) : Bool :=
  table.entries.any fun entry => DottedPath.isBelow entry.1 path

/-- Would this path stand in the way of one already there: equal to it, above it or below it? -/
def collides (table : Table) (path : Text) : Bool :=
  table.entries.any fun entry =>
    entry.1 == path || DottedPath.isBelow path entry.1 || DottedPath.isBelow entry.1 path

/-- The table as one JSON object. -/
def toJson (table : Table) : Json := .obj (table.entries.map fun entry => (entry.1, entry.2.toJson))

end Table

end ThemeLens
