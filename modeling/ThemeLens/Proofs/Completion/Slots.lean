import ThemeLens.Completion
import ThemeLens.Proofs.OrderedMap
import ThemeLens.Proofs.Text.Nesting

/-!
# What the slots of a completion hold

Suggestions are gathered in slots, one for each segment, and a row of the table changes one slot
at most. What a slot holds in the end is a function of the rows alone (`slotAt`): whether one of
them goes on below the segment, and what the table has right at it. `Noted` says that the slots
noted so far are these, no more and no fewer; one row keeps it (`Noted.snoc`), so all rows do.

A row that does not concern a segment must leave its slot alone, and that is where dots matter: a
segment has none, so a path has one segment behind the boundary and no other
(`segment_unique`).
-/

namespace ThemeLens

namespace Suggestion

variable {boundary segment other : Text} {rows : List (Text × Value)} {row : Text × Value}
  {slots : OrderedMap Slot}

/-! ## 1. Rows and segments -/

/-- A text that can stand between two dots. -/
def IsSegment (t : Text) : Prop := t ≠ [] ∧ '.' ∉ t

/-- What follows a segment in a path: nothing, or a dot and more. -/
def IsTail (t : Text) : Prop := t = [] ∨ ∃ rest, t = '.' :: rest

theorem segment_unique {tail tail' : Text} (hs : IsSegment segment) (ho : IsSegment other)
    (ht : IsTail tail) (ht' : IsTail tail') (h : segment ++ tail = other ++ tail') :
    segment = other ∧ tail = tail' := by
  have hcut {s t : Text} (hs : IsSegment s) (ht : IsTail t) :
      Text.cut '.' (s ++ t) = (s, t.tail?) := by
    rcases ht with rfl | ⟨rest, rfl⟩
    · rw [List.append_nil, Text.cut_of_notMem hs.2]
      rfl
    · exact Text.cut_mark hs.2 rest
  have hfirst := hcut hs ht
  rw [h, hcut ho ht'] at hfirst
  obtain rfl : other = segment := congrArg Prod.fst hfirst
  exact ⟨rfl, List.append_cancel_left h⟩

/-- What a row is behind a boundary: the value of a segment, something further below it, or
    nothing at all. -/
inductive RowKind (boundary : Text) (row : Text × Value) : Prop
  | leaf {segment : Text} (hs : IsSegment segment) (h : row.1 = boundary ++ segment)
  | below {segment rest : Text} (hs : IsSegment segment)
      (h : row.1 = boundary ++ segment ++ '.' :: rest)
  | none (hnote : ∀ slots, note boundary slots row = slots)
      (h : ∀ segment tail, IsSegment segment → IsTail tail → row.1 ≠ boundary ++ segment ++ tail)

theorem strip?_append (s t : Text) : Text.strip? s (s ++ t) = some t :=
  Text.strip?_eq_some_iff.mpr rfl

theorem rowKind (boundary : Text) (row : Text × Value) : RowKind boundary row := by
  cases hstrip : Text.strip? boundary row.1 with
  | none =>
    refine .none (fun slots => by rw [note, hstrip]) fun segment tail _ _ h => ?_
    rw [h, List.append_assoc, strip?_append] at hstrip
    cases hstrip
  | some path =>
    have hpath := Text.strip?_eq_some_iff.mp hstrip
    have hnone {rest : Text} (hrest : IsTail rest) (h : path = rest) :
        RowKind boundary row := by
      refine .none (fun slots => ?_) fun segment tail hs ht h' => ?_
      · rw [note, hstrip, h]
        rcases hrest with rfl | ⟨rest, rfl⟩
        · rfl
        · rfl
      · rw [hpath, List.append_assoc] at h'
        have heq := List.append_cancel_left h'
        rw [h] at heq
        -- a path that begins with a dot or ends at the boundary has no segment there
        obtain ⟨c, s, rfl⟩ := List.exists_cons_of_ne_nil hs.1
        rcases hrest with rfl | ⟨rest, rfl⟩
        · cases heq
        · obtain ⟨rfl, -⟩ := List.cons_eq_cons.mp heq
          exact hs.2 List.mem_cons_self
    rcases Text.exists_mark_or_notMem '.' path with hdot | ⟨segment, rest, rfl, hdot⟩
    · by_cases hne : path = []
      · exact hnone (.inl rfl) hne
      · exact .leaf ⟨hne, hdot⟩ hpath
    · by_cases hne : segment = []
      · exact hnone (.inr ⟨rest, rfl⟩) (by rw [hne, List.nil_append])
      · exact .below ⟨hne, hdot⟩ (by rw [hpath, List.append_assoc])

theorem note_leaf (hs : IsSegment segment) (h : row.1 = boundary ++ segment) :
    note boundary slots row = slots.insert segment
      { (slots.get? segment).getD ⟨false, none⟩ with leaf := some row.2 } := by
  have hne : segment.isEmpty = false := by simpa using hs.1
  rw [note, h, strip?_append]
  simp only [Text.cut_of_notMem hs.2, hne, Bool.false_eq_true, if_false, Option.isSome_none]

theorem note_below {rest : Text} (hs : IsSegment segment)
    (h : row.1 = boundary ++ segment ++ '.' :: rest) :
    note boundary slots row = slots.insert segment
      { (slots.get? segment).getD ⟨false, none⟩ with deeper := true } := by
  have hne : segment.isEmpty = false := by simpa using hs.1
  rw [note, h, List.append_assoc, strip?_append]
  simp only [Text.cut_mark hs.2, hne, Bool.false_eq_true, if_false, Option.isSome_some, if_true]

/-! ## 2. The slot of a segment -/

/-- What rows say about a segment behind a boundary. -/
def slotAt (boundary : Text) (rows : List (Text × Value)) (segment : Text) : Slot where
  deeper := rows.any fun row => DottedPath.isBelow row.1 (boundary ++ segment)
  leaf := Entries.get? (boundary ++ segment) rows

/-- A slot that no row has touched. -/
def Slot.blank : Slot := ⟨false, none⟩

theorem slotAt_append (boundary : Text) (rows : List (Text × Value)) (row : Text × Value)
    (segment : Text) :
    slotAt boundary (rows ++ [row]) segment =
      ⟨(slotAt boundary rows segment).deeper || DottedPath.isBelow row.1 (boundary ++ segment),
        (slotAt boundary rows segment).leaf.or
          (Entries.get? (boundary ++ segment) [row])⟩ := by
  simp only [slotAt, Entries.get?_append, List.any_append, List.any_cons, List.any_nil,
    Bool.or_false]

theorem slotAt_append_leaf (hnew : row.1 ∉ rows.map (·.1)) (hrow : row.1 = boundary ++ segment) :
    slotAt boundary (rows ++ [row]) segment =
      { slotAt boundary rows segment with leaf := some row.2 } := by
  have hbelow : DottedPath.isBelow row.1 (boundary ++ segment) = false := by
    rw [Bool.eq_false_iff]
    intro hbelow
    obtain ⟨rest, hrest⟩ := DottedPath.isBelow_iff.mp hbelow
    have hlen := congrArg List.length (hrow.symm.trans hrest)
    simp at hlen
  have hleaf : (slotAt boundary rows segment).leaf = none :=
    Entries.get?_eq_none_iff.mpr (hrow ▸ hnew)
  rw [slotAt_append, hbelow, Bool.or_false, hleaf, Option.none_or, Entries.get?, if_pos hrow]

theorem slotAt_append_below {rest : Text} (hrow : row.1 = boundary ++ segment ++ '.' :: rest) :
    slotAt boundary (rows ++ [row]) segment =
      { slotAt boundary rows segment with deeper := true } := by
  have hbelow : DottedPath.isBelow row.1 (boundary ++ segment) = true :=
    DottedPath.isBelow_iff.mpr ⟨rest, hrow⟩
  have hat : row.1 ≠ boundary ++ segment := by
    intro hat
    have hlen := congrArg List.length (hrow.symm.trans hat)
    simp at hlen
  rw [slotAt_append, hbelow, Bool.or_true, Entries.get?, if_neg hat, Entries.get?, Option.or_none]

theorem slotAt_append_of_ne
    (h : ∀ tail, IsTail tail → row.1 ≠ boundary ++ segment ++ tail) :
    slotAt boundary (rows ++ [row]) segment = slotAt boundary rows segment := by
  have hat : row.1 ≠ boundary ++ segment := by
    have := h [] (.inl rfl)
    rwa [List.append_nil] at this
  have hbelow : DottedPath.isBelow row.1 (boundary ++ segment) = false := by
    rw [Bool.eq_false_iff]
    intro hbelow
    obtain ⟨rest, hrest⟩ := DottedPath.isBelow_iff.mp hbelow
    exact h _ (.inr ⟨rest, rfl⟩) hrest
  rw [slotAt_append, hbelow, Bool.or_false, Entries.get?, if_neg hat, Entries.get?, Option.or_none]

/-- A row changes what is said about its own segment only. -/
theorem slotAt_append_of_segment_ne {tail : Text} (hs : IsSegment segment) (ht : IsTail tail)
    (hrow : row.1 = boundary ++ segment ++ tail) (ho : IsSegment other) (hne : other ≠ segment) :
    slotAt boundary (rows ++ [row]) other = slotAt boundary rows other := by
  refine slotAt_append_of_ne fun tail' ht' h' => hne ?_
  rw [hrow, List.append_assoc, List.append_assoc] at h'
  exact (segment_unique hs ho ht ht' (List.append_cancel_left h')).1.symm

/-- The slots are those of the segments that the rows have behind the boundary. -/
structure Noted (boundary : Text) (rows : List (Text × Value)) (slots : OrderedMap Slot) :
    Prop where
  used : ∀ segment slot, slots.get? segment = some slot →
    IsSegment segment ∧ slot = slotAt boundary rows segment ∧ slot ≠ .blank
  unused : ∀ segment, IsSegment segment → slots.get? segment = none →
    slotAt boundary rows segment = .blank

theorem Noted.getD (h : Noted boundary rows slots) (hs : IsSegment segment) :
    (slots.get? segment).getD ⟨false, none⟩ = slotAt boundary rows segment := by
  cases hslot : slots.get? segment with
  | none => exact (h.unused segment hs hslot).symm
  | some slot => exact (h.used segment slot hslot).2.1

/-- A row changes the slot of its own segment to what the rows now say, and no other slot. -/
theorem Noted.insert {tail : Text} (h : Noted boundary rows slots) (hs : IsSegment segment)
    (ht : IsTail tail) (hrow : row.1 = boundary ++ segment ++ tail)
    (hblank : slotAt boundary (rows ++ [row]) segment ≠ .blank) :
    Noted boundary (rows ++ [row])
      (slots.insert segment (slotAt boundary (rows ++ [row]) segment)) where
  used := by
    intro other slot hslot
    by_cases heq : other = segment
    · subst heq
      rw [OrderedMap.get?_insert_self] at hslot
      cases hslot
      exact ⟨hs, rfl, hblank⟩
    · rw [OrderedMap.get?_insert_of_ne _ heq] at hslot
      obtain ⟨ho, hval, hne⟩ := h.used other slot hslot
      exact ⟨ho, hval.trans (slotAt_append_of_segment_ne hs ht hrow ho heq).symm, hne⟩
  unused := by
    intro other ho hslot
    by_cases heq : other = segment
    · subst heq
      rw [OrderedMap.get?_insert_self] at hslot
      cases hslot
    · rw [OrderedMap.get?_insert_of_ne _ heq] at hslot
      rw [slotAt_append_of_segment_ne hs ht hrow ho heq]
      exact h.unused other ho hslot

/-- A row without a segment behind the boundary changes nothing. -/
theorem Noted.skip (h : Noted boundary rows slots)
    (hrow : ∀ segment tail, IsSegment segment → IsTail tail → row.1 ≠ boundary ++ segment ++ tail) :
    Noted boundary (rows ++ [row]) slots where
  used := by
    intro segment slot hslot
    obtain ⟨hs, hval, hne⟩ := h.used segment slot hslot
    rw [slotAt_append_of_ne fun tail ht => hrow segment tail hs ht]
    exact ⟨hs, hval, hne⟩
  unused := by
    intro segment hs hslot
    rw [slotAt_append_of_ne fun tail ht => hrow segment tail hs ht]
    exact h.unused segment hs hslot

/-- **Noting a row** keeps the slots those of the rows noted. -/
theorem Noted.snoc (h : Noted boundary rows slots) (hnew : row.1 ∉ rows.map (·.1)) :
    Noted boundary (rows ++ [row]) (note boundary slots row) := by
  cases rowKind boundary row with
  | @leaf segment hs hrow =>
    have hslot := slotAt_append_leaf hnew hrow
    rw [note_leaf hs hrow, h.getD hs, ← hslot]
    refine h.insert hs (.inl rfl) (by rw [hrow, List.append_nil]) ?_
    rw [hslot]
    intro hblank
    cases congrArg Slot.leaf hblank
  | @below segment rest hs hrow =>
    have hslot : slotAt boundary (rows ++ [row]) segment = _ := slotAt_append_below hrow
    rw [note_below hs hrow, h.getD hs, ← hslot]
    refine h.insert hs (.inr ⟨rest, rfl⟩) hrow ?_
    rw [hslot]
    intro hblank
    cases congrArg Slot.deeper hblank
  | none hnote hrow =>
    rw [hnote]
    exact h.skip hrow

theorem noted_nil (boundary : Text) : Noted boundary [] ∅ where
  used := by
    intro segment slot hslot
    cases hslot
  unused := by
    intro segment _ _
    rfl

/-- All rows together leave exactly the slots of their segments. -/
theorem Noted.foldl {more : List (Text × Value)} (h : Noted boundary rows slots)
    (hnodup : ((rows ++ more).map (·.1)).Nodup) :
    Noted boundary (rows ++ more) (more.foldl (note boundary) slots) := by
  induction more generalizing rows slots with
  | nil => rwa [List.append_nil]
  | cons row more ih =>
    rw [List.append_cons] at hnodup ⊢
    refine ih (h.snoc ?_) hnodup
    rw [List.map_append, List.map_append, List.append_assoc] at hnodup
    intro hmem
    exact (List.nodup_append.mp hnodup).2.2 _ hmem _ (by simp) rfl

/-! ## 3. Suggestions -/

theorem served_isPrefix (polls : Polls) (table : Table) :
    polls.served table.entries <+: table.entries := Polls.servedFrom_isPrefix polls 0 table.entries

/-- **The suggestions for a path** are the used slots of the rows served. -/
theorem mem_forPath_iff {typed : Text} {table : Table} {polls : Polls} {s : Suggestion} :
    s ∈ forPath typed table polls ↔
      ∃ segment, IsSegment segment ∧
        slotAt (DottedPath.boundary typed) (polls.served table.entries) segment ≠ .blank ∧
        s = ofSlot (DottedPath.boundary typed) segment
          (slotAt (DottedPath.boundary typed) (polls.served table.entries) segment) := by
  unfold forPath
  generalize DottedPath.boundary typed = boundary
  have hnodup := ((served_isPrefix polls table).sublist.map (·.1)).nodup table.nodup
  have hnoted : Noted boundary (polls.served table.entries) _ := (noted_nil boundary).foldl hnodup
  simp only [List.mem_map]
  constructor
  · intro h
    obtain ⟨⟨segment, slot⟩, hmem, rfl⟩ := h
    obtain ⟨hs, rfl, hne⟩ := hnoted.used segment slot (OrderedMap.get?_eq_some_iff.mpr hmem)
    exact ⟨segment, hs, hne, rfl⟩
  · intro h
    obtain ⟨segment, hs, hne, rfl⟩ := h
    -- a slot that rows have touched cannot be missing
    cases hslot : OrderedMap.get? ((polls.served table.entries).foldl (note boundary) ∅) segment with
    | none => exact absurd (hnoted.unused segment hs hslot) hne
    | some slot =>
      obtain ⟨-, hval, -⟩ := hnoted.used segment slot hslot
      exact ⟨(segment, slot), OrderedMap.get?_eq_some_iff.mp hslot, by rw [hval]⟩

theorem get?_fullPath {typed : Text} {table : Table} {polls : Polls} {s : Suggestion}
    (h : s ∈ forPath typed table polls) (hterminal : s.isIntermediate = false) :
    s.value.isSome = true ∧ table.get? s.fullPath = s.value := by
  obtain ⟨segment, -, hne, rfl⟩ := mem_forPath_iff.mp h
  simp only [ofSlot] at hterminal ⊢
  simp only [hterminal, Bool.false_eq_true, if_false]
  cases hleaf : (slotAt (DottedPath.boundary typed) (polls.served table.entries) segment).leaf with
  | none =>
    refine absurd ?_ hne
    rw [Slot.blank, ← hterminal, ← hleaf]
  | some value => exact ⟨rfl, Entries.get?_of_isPrefix (served_isPrefix polls table) hleaf⟩

end Suggestion

end ThemeLens
