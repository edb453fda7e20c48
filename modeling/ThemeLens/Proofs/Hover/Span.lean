import Mathlib.Data.List.DropRight
import ThemeLens.Hover
import ThemeLens.Proofs.Accessor.PointQuery
import ThemeLens.Proofs.Text.Around

/-!
# What a hover points at

A hover comes with the bytes that name its path, and an editor underlines them. Whichever way it was
found, the path is what the text has there (`Hover.slice?_span`).

In both ways the path is a piece of something larger that has lost the dots at its end. Inside an
accessor it begins the path that was read, which in turn begins what follows the keyword. A bare name
is the dotted name around the cursor, and that is a piece of the text by what it is.
-/

namespace ThemeLens

namespace Hover

/-! ## 1. Inside an accessor -/

theorem pathThrough_isPrefix (path : Text) (typed : Nat) : pathThrough path typed <+: path := by
  have hreached : path.take typed ++ (path.drop typed).takeWhile (· != '.') <+: path := by
    have h := List.takeWhile_prefix (· != '.') (l := path.drop typed)
    rw [← List.prefix_append_right_inj (path.take typed), List.take_append_drop] at h
    exact h
  exact (List.rdropWhile_prefix (· == '.') _).trans hreached

theorem slice?_span_of_certain? {text : Text} {offset : Nat} {table : Table} {h : Hover}
    (hh : certain? text offset table = some h) : text.slice? h.span = some h.path := by
  obtain ⟨hit, hhit, hvalue⟩ := Option.bind_eq_some_iff.mp hh
  obtain ⟨value, -, rfl⟩ := Option.map_eq_some_iff.mp hvalue
  obtain ⟨-, -, -, hin, -, -⟩ := Accessor.exists_split_of_at? hhit
  exact Accessor.slice?_of_isPrefix hin (pathThrough_isPrefix _ _)

/-! ## 2. A bare name -/

theorem slice?_span_of_guessed? {text : Text} {offset : Nat} {table : Table} {radius : Nat}
    {h : Hover} (hh : guessed? text offset table radius = some h) :
    text.slice? h.span = some h.path := by
  obtain ⟨run, hrun, hvalue⟩ := Option.bind_eq_some_iff.mp hh
  obtain ⟨value, -, hstyled⟩ := Option.bind_eq_some_iff.mp hvalue
  obtain ⟨-, rfl⟩ := (Option.ite_none_right_eq_some.mp hstyled).imp_right Option.some.inj
  have hslice := Cursor.slice?_dottedRun hrun
  rwa [Text.text_seek] at hslice

/-- **A hover points at its path.** -/
theorem slice?_span {text : Text} {offset : Nat} {table : Table} {radius : Nat} {h : Hover}
    (hh : at? text offset table radius = some h) : text.slice? h.span = some h.path := by
  rcases Option.or_eq_some_iff.mp hh with hcertain | ⟨-, hguessed⟩
  · exact slice?_span_of_certain? hcertain
  · exact slice?_span_of_guessed? hguessed

end Hover

end ThemeLens
