import ThemeLens.Completion
import ThemeLens.Proofs.Accessor.PointQuery

/-!
# What follows the cursor

An editor asks at a cursor while text stands behind it, and that text is in flux. The pass does read
it: a path is read as far as it goes, and the head of an arrow function is matched forward, over the
cursor if need be. Still, cutting the text off at the cursor changes the answer in one respect only,
that the path found ends there (`Completion.at?_eq_map_at?_append`).

The reason is that a hit has its keyword in front of the cursor. What a pass takes at a keyword it
takes whatever follows the keyword (`Accessor.mem_within_of_keyword`), and the part of the path in
front of the cursor reads as a path by itself, whatever it goes on with.
-/

namespace ThemeLens

namespace Accessor

variable {s t : Text} {hit : Hit}

/-- A hit at the end of a first part of the text has its keyword and what is typed in that part. -/
theorem exists_split_of_at?_append (h : at? (s ++ t) s.size = some hit) :
    ∃ front : Text, s = front ++ keyword ++ hit.typed ∧
      hit.accessor ∈ within (front ++ keyword ++ (hit.typed ++ t))
        ⟨0, (front ++ keyword ++ (hit.typed ++ t)).size⟩ ∧
      hit.accessor.pathStart = (front ++ keyword).size ∧
      pathFrom false hit.typed = hit.typed := by
  obtain ⟨front, rest, htext, hin, hstart, hreads⟩ := exists_split_of_at? h
  -- what is typed ends at the cursor, so the two splits of the text are one
  obtain ⟨-, -, hslice⟩ := at?_eq_some_iff.mp h
  obtain ⟨-, -, -, -, hcursor⟩ := Text.slice?_eq_some_iff.mp hslice
  rw [Text.seek_append, Cursor.offset, Text.size_reverse, hstart, ← Text.size_append] at hcursor
  rw [← List.append_assoc] at htext
  obtain ⟨rfl, rfl⟩ := Text.append_inj_of_size htext hcursor.symm
  rw [List.append_assoc (front ++ keyword)] at hin
  exact ⟨front, rfl, hin, hstart, hreads⟩

theorem at?_append_of_at?_append (t' : Text) (h : at? (s ++ t) s.size = some hit) :
    at? (s ++ t') s.size =
      some { hit with accessor := { hit.accessor with path := pathFrom false (hit.typed ++ t') } } := by
  obtain ⟨front, rfl, hin, hstart, hreads⟩ := exists_split_of_at?_append h
  have hagain := at?_of_mem_within (mem_within_of_keyword (hit.typed ++ t') hin hstart) hstart rfl
    hreads
  rw [Text.size_append, List.append_assoc (front ++ keyword), ← hstart]
  exact hagain

/-- **The point query does not depend on the text behind the cursor**, but for the path, which goes
    on into it. -/
theorem at?_append (s t t' : Text) :
    at? (s ++ t') s.size = (at? (s ++ t) s.size).map fun hit =>
      { hit with accessor := { hit.accessor with path := pathFrom false (hit.typed ++ t') } } := by
  cases h : at? (s ++ t) s.size with
  | some hit => exact at?_append_of_at?_append t' h
  | none =>
    cases h' : at? (s ++ t') s.size with
    | none => rfl
    | some hit =>
      rw [at?_append_of_at?_append t h'] at h
      cases h

theorem at?_size_eq_map (s t : Text) :
    at? s s.size = (at? (s ++ t) s.size).map fun hit =>
      { hit with accessor := { hit.accessor with path := hit.typed } } := by
  have hcut := at?_append s t []
  rw [List.append_nil] at hcut
  rw [hcut]
  refine Option.map_congr fun hit hhit => ?_
  obtain ⟨-, -, -, -, hreads⟩ := exists_split_of_at?_append hhit
  rw [List.append_nil, hreads]

/-- A path that is read up to the end of the text ends there. -/
theorem stop_of_at?_size (h : at? s s.size = some hit) : hit.accessor.stop = s.size := by
  have hend : at? (s ++ []) s.size = some hit := by rw [List.append_nil, h]
  obtain ⟨front, hs, -, hstart, hreads⟩ := exists_split_of_at?_append hend
  have hself := hend.symm.trans (at?_append_of_at?_append [] hend)
  rw [List.append_nil, hreads] at hself
  have hpath : hit.accessor.path = hit.typed :=
    congrArg (fun found => found.accessor.path) (Option.some.inj hself)
  rw [stop, hpath, hstart, hs, ← Text.size_append]

end Accessor

namespace Completion

/-- **Completion depends only on the text before the cursor**, and so does the point query. Where
    the text is cut off at the cursor, both find what they found in the whole text, or nothing in
    both: the same form, starts and typed path, and so the same suggestions for the same span. Only
    the path of the accessor is cut off, to what is typed, and then it ends at the cursor. -/
theorem at?_eq_map_at?_append (s t : Text) (table : Table) (polls : Polls) :
    at? s s.size table polls = (at? (s ++ t) s.size table polls).map (fun c =>
        { c with accessor := { c.accessor with path := c.typed } }) ∧
      Accessor.at? s s.size = (Accessor.at? (s ++ t) s.size).map (fun hit =>
        { hit with accessor := { hit.accessor with path := hit.typed } }) ∧
      ∀ c, at? s s.size table polls = some c → c.accessor.stop = s.size := by
  have hpoint := Accessor.at?_size_eq_map s t
  refine ⟨?_, hpoint, ?_⟩
  · rw [at?, at?, hpoint, Option.map_map, Option.map_map]
    rfl
  · intro c hc
    obtain ⟨hit, hhit, rfl⟩ := Option.map_eq_some_iff.mp hc
    exact Accessor.stop_of_at?_size hhit

end Completion

end ThemeLens
