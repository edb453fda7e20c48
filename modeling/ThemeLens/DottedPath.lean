import ThemeLens.Text.Basic

/-!
# Dotted paths

A leaf of a theme is named by the keys on the way to it, joined by dots. Keys may hold dots
themselves, so a path is kept as plain text and its segments are a reading of that text: the
functions here split at dots wherever they come from. `boundary` and `partialSegment` split a
path that is still being typed at its last dot; together they are the path again.
-/

namespace ThemeLens.DottedPath

/-- The path of a key below `above`; at the top the key alone. -/
def join (above key : Text) : Text := if above.isEmpty then key else above ++ '.' :: key

/-- Does `path` go on below `above`, that is, continue it with a dot? -/
def isBelow (path above : Text) : Bool := (above ++ ['.']).isPrefixOf path

/-- Everything up to and including the last dot. -/
def boundary (path : Text) : Text := (path.reverse.dropWhile (· != '.')).reverse

/-- Everything after the last dot: the segment being typed, or the last one. -/
def partialSegment (path : Text) : Text := (path.reverse.takeWhile (· != '.')).reverse

theorem isBelow_iff {path above : Text} :
    isBelow path above = true ↔ ∃ rest, path = above ++ '.' :: rest := by
  simp only [isBelow, List.isPrefixOf_iff_prefix]
  constructor
  · rintro ⟨rest, rfl⟩; exact ⟨rest, by simp⟩
  · rintro ⟨rest, rfl⟩; exact ⟨rest, by simp⟩

theorem boundary_append_partialSegment (path : Text) :
    boundary path ++ partialSegment path = path := by
  rw [boundary, partialSegment, ← List.reverse_append, List.takeWhile_append_dropWhile,
    List.reverse_reverse]

/-- The segment being typed holds no dot. -/
theorem dot_not_mem_partialSegment (path : Text) : '.' ∉ partialSegment path := by
  intro h
  have h' := List.mem_reverse.mp h
  have := List.all_takeWhile (p := (· != '.')) (l := path.reverse)
  have := List.all_eq_true.mp this _ h'
  simp at this

end ThemeLens.DottedPath
