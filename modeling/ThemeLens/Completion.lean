import ThemeLens.Accessor.Query
import ThemeLens.Cancellation
import ThemeLens.Theme.Table

/-!
# Completing a path

A path that is being typed is completed one segment at a time. What counts is its boundary,
everything up to the last dot: the suggestions are the segments that follow the boundary in some
path of the table, each once, in the order in which the table first brings them. The part typed
after the boundary narrows nothing down; it only says what an accepted suggestion replaces.

A segment below which the table goes on is intermediate and carries no value, even if the table
also has a value for it.
-/

namespace ThemeLens

/-- A next segment. -/
structure Suggestion where
  segment : Text
  /-- Does the table go on below the segment? -/
  isIntermediate : Bool
  fullPath : Text
  value : Option Value

namespace Suggestion

/-- What the table has at a segment: something further down, and a value of its own. -/
structure Slot where
  deeper : Bool
  leaf : Option Value

/-- Notes one more path of the table, if it has a segment after the boundary. -/
def note (boundary : Text) (slots : OrderedMap Slot) (entry : Text × Value) : OrderedMap Slot :=
  match Text.strip? boundary entry.1 with
  | none => slots
  | some rest =>
    let (segment, below?) := Text.cut '.' rest
    if segment.isEmpty then slots
    else
      let slot := (slots.get? segment).getD ⟨false, none⟩
      slots.insert segment
        (if below?.isSome then { slot with deeper := true } else { slot with leaf := some entry.2 })

def ofSlot (boundary segment : Text) (slot : Slot) : Suggestion :=
  { segment
    isIntermediate := slot.deeper
    fullPath := boundary ++ segment
    value := if slot.deeper then none else slot.leaf }

/-- The suggestions for a path typed so far. The cancel check is polled once for each path of the
table; what has been noted when it fires is kept. -/
def forPath (typed : Text) (table : Table) (polls : Polls) : List Suggestion :=
  let boundary := DottedPath.boundary typed
  let slots := (polls.served table.entries).foldl (note boundary) ∅
  slots.entries.map fun entry => ofSlot boundary entry.1 entry.2

end Suggestion

/-- The suggestions at a place, and what an accepted one replaces. -/
structure Completion where
  accessor : Accessor
  typed : Text
  /-- The segment typed so far. -/
  replace : Span
  suggestions : List Suggestion

namespace Completion

/-- The completion at an offset inside the path of an accessor. -/
def at? (text : Text) (offset : Nat) (table : Table) (polls : Polls) : Option Completion :=
  (Accessor.at? text offset).map fun hit =>
    let stop := hit.accessor.pathStart + hit.typed.size
    { accessor := hit.accessor
      typed := hit.typed
      replace := ⟨stop - (DottedPath.partialSegment hit.typed).size, stop⟩
      suggestions := Suggestion.forPath hit.typed table polls }

end Completion

end ThemeLens
