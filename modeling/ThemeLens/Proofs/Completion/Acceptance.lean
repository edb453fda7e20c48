import ThemeLens.Editor
import ThemeLens.Proofs.Accessor.PointQuery
import ThemeLens.Proofs.Completion.Slots
import ThemeLens.Proofs.DottedPath

/-!
# Accepting a completion

An accepted item replaces the segment typed so far. The cursor is then behind what was inserted,
and the editor may ask again, so the edited text has to be read the way the item promised: as the
same accessor, with the path of the suggestion typed (`Completion.at?_accept`).

Three things have to fit. The text up to the keyword is the same, and a pass takes at a keyword
whatever follows it (`Accessor.mem_scan_of_keyword`), so the accessor is found again. What is now
typed reads as a path on its own (`pathFrom_accepted`): the boundary ends in a dot or is empty, so
a name may follow it, and a dot may follow the name. And a path that is read goes on into whatever
stood behind the cursor, so that cannot take anything back.
-/

namespace ThemeLens

open Accessor (keyword pathFrom identAfter)

/-! ## 1. What is typed after accepting -/

namespace Suggestion

/-- What an editor puts in for the segment typed so far. -/
def inserted (s : Suggestion) : Text := s.segment ++ if s.isIntermediate then ['.'] else []

/-- The path typed once the suggestion is accepted. -/
def accepted (s : Suggestion) : Text := s.fullPath ++ if s.isIntermediate then ['.'] else []

theorem newText_ofSuggestion (range : Range) (index : Nat) (s : Suggestion) :
    (Editor.CompletionItem.ofSuggestion range index s).newText = s.inserted := by
  unfold Editor.CompletionItem.ofSuggestion inserted
  cases s.isIntermediate with
  | true => rfl
  | false => exact (List.append_nil _).symm

variable {typed : Text} {table : Table} {polls : Polls} {s : Suggestion}

theorem accepted_eq (h : s ∈ forPath typed table polls) :
    s.accepted = DottedPath.boundary typed ++ s.inserted := by
  obtain ⟨segment, -, -, rfl⟩ := mem_forPath_iff.mp h
  rw [accepted, inserted, ofSlot, List.append_assoc]

/-- **What is typed then reads as a path**, when the segment is a name. -/
theorem pathFrom_accepted (h : s ∈ forPath typed table polls)
    (htyped : pathFrom false typed = typed) (hname : ∀ c ∈ s.segment, isIdent c = true) :
    pathFrom false s.accepted = s.accepted := by
  obtain ⟨hboundary, hends⟩ := Accessor.pathFrom_boundary htyped
  have hne : s.segment ≠ [] := by
    obtain ⟨segment, hs, -, rfl⟩ := mem_forPath_iff.mp h
    exact hs.1
  rw [accepted_eq h, inserted]
  refine Accessor.pathFrom_append_eq_self_iff.mpr ⟨hboundary, ?_⟩
  rw [hends]
  refine Accessor.pathFrom_append_eq_self_iff.mpr ⟨Accessor.pathFrom_of_idents hname, ?_⟩
  rw [Accessor.identAfter_of_idents hne hname]
  split
  · rfl
  · rfl

end Suggestion

/-! ## 2. The edited text -/

namespace Completion

variable {text : Text} {offset : Nat} {table : Table} {polls : Polls} {c : Completion}

/-- A completion reads the text around the cursor. What it replaces is the part of the path behind
    its boundary, and what it suggests is for the path typed. -/
theorem exists_split_of_at? (hc : at? text offset table polls = some c) :
    ∃ front rest : Text, text = front ++ keyword ++ (c.typed ++ rest) ∧
      c.accessor ∈ Accessor.within text ⟨0, text.size⟩ ∧
      c.accessor.pathStart = (front ++ keyword).size ∧ pathFrom false c.typed = c.typed ∧
      c.replace = ⟨(front ++ keyword ++ DottedPath.boundary c.typed).size,
        (front ++ keyword ++ c.typed).size⟩ ∧
      c.suggestions = Suggestion.forPath c.typed table polls := by
  obtain ⟨hit, hhit, rfl⟩ := Option.map_eq_some_iff.mp hc
  obtain ⟨front, rest, htext, hin, hstart, hreads⟩ := Accessor.exists_split_of_at? hhit
  refine ⟨front, rest, htext, hin, hstart, hreads, ?_, rfl⟩
  have hsize := congrArg Text.size (DottedPath.boundary_append_partialSegment hit.typed)
  rw [Text.size_append] at hsize
  show Span.mk
      (hit.accessor.pathStart + hit.typed.size - (DottedPath.partialSegment hit.typed).size)
      (hit.accessor.pathStart + hit.typed.size) =
    ⟨(front ++ keyword ++ DottedPath.boundary hit.typed).size, (front ++ keyword ++ hit.typed).size⟩
  rw [Text.size_append, Text.size_append _ hit.typed, ← hstart, Span.mk.injEq]
  omega

theorem splice?_replace (front typed rest new : Text) :
    (front ++ keyword ++ (typed ++ rest)).splice?
        ⟨(front ++ keyword ++ DottedPath.boundary typed).size, (front ++ keyword ++ typed).size⟩ new =
      some (front ++ keyword ++ (DottedPath.boundary typed ++ new ++ rest)) := by
  have h := Text.splice?_append (front ++ keyword ++ DottedPath.boundary typed)
    (DottedPath.partialSegment typed) rest new
  rw [← Text.size_append, List.append_assoc (front ++ keyword),
    DottedPath.boundary_append_partialSegment] at h
  simpa only [List.append_assoc] using h

theorem getElem?_completionItems (text : Text) {i : Nat} {s : Suggestion} (hs : c.suggestions[i]? = some s) :
    ∃ item, (Editor.completionItems text c)[i]? = some item ∧ item.newText = s.inserted := by
  refine ⟨_, ?_, Suggestion.newText_ofSuggestion (text.rangeOf c.replace) i s⟩
  rw [Editor.completionItems, List.getElem?_mapIdx, hs]
  rfl

/-- **Accepting a completion lands on it.** The item's text can be put in for the span that it
    replaces, and at the place behind it the edited text has the same accessor again, with the
    path of the suggestion typed. So asking again there lists what follows the suggestion, and the
    path of a last segment is one of the table, with the value that was promised. -/
theorem at?_accept {i : Nat} {s : Suggestion} (hc : at? text offset table polls = some c)
    (hs : c.suggestions[i]? = some s) (hname : ∀ d ∈ s.segment, isIdent d = true) :
    ∃ item text' hit, (Editor.completionItems text c)[i]? = some item ∧
      text.splice? c.replace item.newText = some text' ∧
      Accessor.at? text' (c.replace.start + item.newText.size) = some hit ∧
      hit.accessor.form = c.accessor.form ∧ hit.accessor.start = c.accessor.start ∧
      hit.accessor.pathStart = c.accessor.pathStart ∧
      hit.typed = s.fullPath ++ (if s.isIntermediate then ['.'] else []) ∧
      (s.isIntermediate = true → ∀ polls',
        (at? text' (c.replace.start + item.newText.size) table polls').map (·.suggestions) =
          some (Suggestion.forPath (s.fullPath ++ ['.']) table polls')) ∧
      (s.isIntermediate = false → s.value.isSome = true ∧ table.get? hit.typed = s.value) := by
  obtain ⟨front, rest, rfl, hin, hstart, hreads, hreplace, hlist⟩ := exists_split_of_at? hc
  obtain ⟨item, hitem, hnew⟩ := getElem?_completionItems _ hs
  have hmem : s ∈ Suggestion.forPath c.typed table polls := by
    rw [← hlist]
    exact List.mem_of_getElem? hs
  -- the edit leaves the keyword where it is and puts the accepted path behind it
  have hedit := splice?_replace front c.typed rest s.inserted
  rw [← hreplace, ← Suggestion.accepted_eq hmem, ← hnew] at hedit
  have hplace : c.replace.start + item.newText.size = c.accessor.pathStart + s.accepted.size := by
    rw [hnew, hreplace, Suggestion.accepted_eq hmem, hstart]
    simp only [Text.size_append]
    omega
  -- so the accessor is found again, with a path that goes on from there
  have hagain := Accessor.at?_of_mem_within
    (Accessor.mem_within_of_keyword (s.accepted ++ rest) hin hstart) hstart rfl
    (Suggestion.pathFrom_accepted hmem hreads hname)
  refine ⟨item, _, _, hitem, hedit, hplace ▸ hagain, rfl, rfl, rfl, rfl, ?_, ?_⟩
  · intro hinter polls'
    have haccepted : s.accepted = s.fullPath ++ ['.'] := by
      rw [Suggestion.accepted, if_pos hinter]
    rw [hplace, at?, hagain, ← haccepted]
    rfl
  · intro hterminal
    have haccepted : s.accepted = s.fullPath := by
      rw [Suggestion.accepted, hterminal]
      exact List.append_nil _
    show s.value.isSome = true ∧ table.get? s.accepted = s.value
    rw [haccepted]
    exact Suggestion.get?_fullPath hmem hterminal

/-- In `(p)=>p.theme.a.bx`, with the cursor behind the `b`: accepting `btn` leaves the `x` where it
    was, now behind a dot. -/
theorem at?_accept_behindHead :
    let text : Text := ['(', 'p', ')', '=', '>', 'p', '.', 't', 'h', 'e', 'm', 'e', '.', 'a', '.',
      'b', 'x']
    let table : Table := ⟨[(['a', '.', 'b', 't', 'n', '.', 'c'], .scalar (.bool true))], by decide⟩
    ∃ c s item text' hit, at? text 16 table .never = some c ∧ c.suggestions[0]? = some s ∧
      s.segment = ['b', 't', 'n'] ∧ (∀ d ∈ s.segment, isIdent d = true) ∧
      (Editor.completionItems text c)[0]? = some item ∧
      text.splice? c.replace item.newText = some text' ∧
      Accessor.at? text' (c.replace.start + item.newText.size) = some hit ∧
      hit.accessor.form = .aliased ∧ hit.accessor.start = 0 ∧
      hit.typed = ['a', '.', 'b', 't', 'n', '.'] := by
  intro text table
  let s : Suggestion := ⟨['b', 't', 'n'], true, ['a', '.', 'b', 't', 'n'], none⟩
  let before : Accessor.Hit := ⟨⟨0, .aliased, 13, ['a', '.', 'b', 'x']⟩, ['a', '.', 'b']⟩
  let c : Completion := ⟨before.accessor, before.typed, ⟨15, 16⟩, [s]⟩
  have hbefore : Accessor.at? text 16 = some before := by decide +kernel
  have hc : at? text 16 table .never = some c := by
    rw [at?, hbefore]
    rfl
  have hs : c.suggestions[0]? = some s := rfl
  have hname : ∀ d ∈ s.segment, isIdent d = true := List.all_eq_true.mp (by decide)
  obtain ⟨item, text', hit, hitem, hedit, hhit, hform, hstart, -, htyped, -, -⟩ :=
    at?_accept hc hs hname
  exact ⟨c, s, item, text', hit, hc, hs, rfl, hname, hitem, hedit, hhit, hform, hstart, htyped⟩

end Completion

end ThemeLens
