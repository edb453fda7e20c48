import ThemeLens.Editor
import ThemeLens.Proofs.Accessor.Greedy
import ThemeLens.Proofs.Completion.Acceptance
import ThemeLens.Proofs.Hover.Labels
import ThemeLens.Proofs.Text.LineColumn

/-!
# Answers in lines and columns

An editor is sent lines and columns for the bytes that an answer is about, and it reads them back
against the same text. That loses nothing as long as the bytes begin and end at places of the text,
since a place survives the way to its position and back. So the question is whether an answer can
point into the middle of a character, and the reason that it cannot is the same for all three kinds:
each points at a piece of text that was read there, the segment being typed, the path hovered over,
the path that a label stands behind.

Labels come in the order of the text besides, because the pass over the text takes accessors in
order, and positions grow with offsets.
-/

namespace ThemeLens.Editor

open InlineLabel (labels_pairwise offset_of_forAccessor?)

variable {text : Text} {table : Table} {polls : Polls}

/-! ## 1. Suggestions -/

theorem range_of_mem_completionItems {c : Completion} {item : CompletionItem}
    (h : item ∈ completionItems text c) : item.range = text.rangeOf c.replace := by
  obtain ⟨i, hi, rfl⟩ := List.mem_mapIdx.mp h
  rfl

/-- **What an item replaces** is the segment typed so far. -/
theorem slice?_replace {offset : Nat} {c : Completion}
    (hc : Completion.at? text offset table polls = some c) :
    text.slice? c.replace = some (DottedPath.partialSegment c.typed) := by
  obtain ⟨front, rest, rfl, -, -, -, hreplace, -⟩ := Completion.exists_split_of_at? hc
  have htyped := DottedPath.boundary_append_partialSegment c.typed
  rw [hreplace]
  refine Text.slice?_eq_some_iff.mpr
    ⟨front ++ Accessor.keyword ++ DottedPath.boundary c.typed, rest, ?_, rfl, ?_⟩
  · rw [List.append_assoc (front ++ Accessor.keyword), htyped,
      List.append_assoc (front ++ Accessor.keyword)]
  · rw [← Text.size_append, List.append_assoc (front ++ Accessor.keyword), htyped]

/-! ## 2. Labels -/

theorem exists_of_mem_labels {window : Span} {style : InlineLabel.Style} {l : InlineLabel}
    (h : l ∈ InlineLabel.within text window table style polls) :
    ∃ a ∈ Accessor.within text window, InlineLabel.forAccessor? table style a = some l := by
  obtain ⟨a, ha, hl⟩ := List.mem_filterMap.mp h
  exact ⟨a, (Polls.servedFrom_isPrefix polls 0 _).subset ha, hl⟩

/-- A label stands behind a character, or at the start of the text. -/
theorem isPlace_offset {window : Span} {style : InlineLabel.Style} {l : InlineLabel}
    (h : l ∈ InlineLabel.within text window table style polls) : text.IsPlace l.offset := by
  obtain ⟨a, ha, hl⟩ := exists_of_mem_labels h
  rw [offset_of_forAccessor? hl]
  exact (Accessor.occurs_of_mem_scan ha).1.lies.stop_isPlace

/-! ## 3. Every kind of answer -/

/-- **What an editor is sent means the bytes that were found.** The range of every item of a
    completion is that of the segment typed so far, the range of a hover card that of the path
    hovered over, and hints are where their labels are, each further on in the text than the one
    before. -/
theorem answers_denote (text : Text) (table : Table) :
    (∀ offset polls c, Completion.at? text offset table polls = some c →
      text.slice? c.replace = some (DottedPath.partialSegment c.typed) ∧
        ∀ item ∈ completionItems text c, text.spanOf? item.range = some c.replace) ∧
    (∀ offset radius h, Hover.at? text offset table radius = some h →
      text.slice? h.span = some h.path ∧ text.spanOf? (hoverCard text h).range = some h.span) ∧
    (∀ window style polls, let labels := InlineLabel.within text window table style polls
      (inlayHints text labels).map (text.offsetAt ·.position) = labels.map (·.offset) ∧
        (inlayHints text labels).Pairwise (·.position < ·.position)) := by
  refine ⟨?_, ?_, ?_⟩
  · intro offset polls c hc
    have hslice := slice?_replace hc
    refine ⟨hslice, ?_⟩
    intro item hitem
    rw [range_of_mem_completionItems hitem]
    exact Text.spanOf?_rangeOf_of_slice? hslice
  · intro offset radius h hh
    have hslice := Hover.slice?_span hh
    exact ⟨hslice, Text.spanOf?_rangeOf_of_slice? hslice⟩
  · intro window style polls labels
    constructor
    · rw [inlayHints, List.map_map]
      refine List.map_congr_left ?_
      intro l hl
      exact Text.offsetAt_positionAt (isPlace_offset hl)
    · refine List.pairwise_map.mpr ?_
      refine (labels_pairwise text window table style polls).imp_of_mem ?_
      intro l l' hl hl' hlt
      exact Text.positionAt_lt_positionAt (isPlace_offset hl) (isPlace_offset hl') hlt

/-- In `é theme.a.b`, with the cursor at the end: the item replaces the `b`, the card is about
    `a.b`, and the one hint stands behind it, eleven characters and twelve bytes in. -/
theorem answers_denote_wideChar :
    let text : Text := ['é', ' ', 't', 'h', 'e', 'm', 'e', '.', 'a', '.', 'b']
    let table : Table := ⟨[(['a', '.', 'b'], .scalar (.bool true))], by decide⟩
    ∃ c h, Completion.at? text 12 table .never = some c ∧ c.replace = ⟨11, 12⟩ ∧
      (completionItems text c).length = 1 ∧
      (∀ item ∈ completionItems text c, text.spanOf? item.range = some ⟨11, 12⟩) ∧
      Hover.at? text 12 table 0 = some h ∧ h.path = ['a', '.', 'b'] ∧
      text.spanOf? (hoverCard text h).range = some ⟨9, 12⟩ ∧
      (inlayHints text (InlineLabel.within text ⟨0, 12⟩ table ⟨8, []⟩ .never)).map
        (text.offsetAt ·.position) = [12] := by
  intro text table
  let hit : Accessor.Hit := ⟨⟨3, .plain, 9, ['a', '.', 'b']⟩, ['a', '.', 'b']⟩
  have hhit : Accessor.at? text 12 = some hit := by decide +kernel
  have hin : Accessor.within text ⟨0, 12⟩ = [hit.accessor] := by decide +kernel
  obtain ⟨hitems, hcard, hhints⟩ := answers_denote text table
  obtain ⟨c, hc⟩ : ∃ c, Completion.at? text 12 table .never = some c ∧ c.replace = ⟨11, 12⟩ ∧
      (completionItems text c).length = 1 := by
    rw [Completion.at?, hhit]
    exact ⟨_, rfl, rfl, rfl⟩
  obtain ⟨h, hh⟩ : ∃ h, Hover.at? text 12 table 0 = some h ∧ h.path = ['a', '.', 'b'] ∧
      h.span = ⟨9, 12⟩ := by
    rw [Hover.at?, Hover.certain?, hhit]
    exact ⟨_, rfl, rfl, rfl⟩
  refine ⟨c, h, hc.1, hc.2.1, hc.2.2, ?_, hh.1, hh.2.1, ?_, ?_⟩
  · rw [← hc.2.1]
    exact (hitems 12 .never c hc.1).2
  · rw [← hh.2.2]
    exact (hcard 12 0 h hh.1).2
  · rw [(hhints ⟨0, 12⟩ ⟨8, []⟩ .never).1, InlineLabel.within, hin]
    rfl

end ThemeLens.Editor
