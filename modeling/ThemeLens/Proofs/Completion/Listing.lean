import Mathlib.Data.List.Perm.Basic
import ThemeLens.Proofs.Completion.Slots
import ThemeLens.Proofs.DottedPath

/-!
# The list of suggestions

What a completion lists can be said without slots and without a pass over the table: the segments
that some path has behind the boundary, each once, in the order of the first path that has it, each
with what the table says about it (`ListsNext`). No two lists are like that (`ListsNext.unique`),
so the description is the list.

`Slots` already says which slots a pass leaves behind; what is missing is their order. A pass keeps
it without looking: a slot that a row adds is the last one, and the row is the last one too
(`InOrder.insert`). A row that finds its slot there moves nothing, and it does not change which row
was the first.

The part typed behind the boundary is nowhere in the description. That nothing but the boundary
counts therefore comes down to what a boundary is (`DottedPath.boundary_append`).
-/

namespace ThemeLens

namespace Suggestion

open DottedPath (boundary isBelow isWithin firstWithin)

variable {front segment : Text} {rows : List (Text × Value)} {row : Text × Value} {slot : Slot}
  {slots : OrderedMap Slot} {table : Table} {list list' : List Suggestion}

/-! ## 1. The description -/

/-- The suggestions that a table calls for behind a boundary. -/
structure ListsNext (front : Text) (table : Table) (list : List Suggestion) : Prop where
  nodup : (list.map (·.segment)).Nodup
  segments : ∀ segment, segment ∈ list.map (·.segment) ↔
    IsSegment segment ∧ ∃ path ∈ table.keys, isWithin path (front ++ segment) = true
  order : list.Pairwise fun s s' =>
    firstWithin table.keys (front ++ s.segment) < firstWithin table.keys (front ++ s'.segment)
  fullPath : ∀ s ∈ list, s.fullPath = front ++ s.segment
  intermediate : ∀ s ∈ list,
    s.isIntermediate = true ↔ ∃ path ∈ table.keys, isBelow path s.fullPath = true
  value : ∀ s ∈ list, s.value = if s.isIntermediate then none else table.get? s.fullPath

/-- What the description says about the suggestion of a segment. -/
def next (front : Text) (table : Table) (segment : Text) : Suggestion :=
  let deeper := table.keys.any fun path => isBelow path (front ++ segment)
  ⟨segment, deeper, front ++ segment, if deeper then none else table.get? (front ++ segment)⟩

theorem ListsNext.eq_next {s : Suggestion} (h : ListsNext front table list) (hs : s ∈ list) :
    s = next front table s.segment := by
  have hpath := h.fullPath s hs
  have hdeeper : s.isIntermediate =
      table.keys.any fun path => isBelow path (front ++ s.segment) := by
    rw [Bool.eq_iff_iff, h.intermediate s hs, List.any_eq_true, hpath]
  calc s = ⟨s.segment, s.isIntermediate, s.fullPath, s.value⟩ := rfl
    _ = next front table s.segment := by
      rw [h.value s hs, hpath, hdeeper]
      rfl

/-- The segments are determined as a set, and the order leaves no choice of how to list them. -/
theorem ListsNext.segments_eq (h : ListsNext front table list) (h' : ListsNext front table list') :
    list.map (·.segment) = list'.map (·.segment) := by
  have horder {l : List Suggestion} (hl : ListsNext front table l) :
      (l.map (·.segment)).Pairwise fun segment other =>
        firstWithin table.keys (front ++ segment) < firstWithin table.keys (front ++ other) :=
    List.pairwise_map.mpr hl.order
  have hperm : (list.map (·.segment)).Perm (list'.map (·.segment)) :=
    (List.perm_ext_iff_of_nodup h.nodup h'.nodup).mpr fun segment =>
      (h.segments segment).trans (h'.segments segment).symm
  refine hperm.eq_of_pairwise ?_ (horder h) (horder h')
  intro segment other _ _ hlt hgt
  exact absurd hgt (Nat.lt_asymm hlt)

theorem ListsNext.unique (h : ListsNext front table list) (h' : ListsNext front table list') :
    list = list' := by
  have hnext {l : List Suggestion} (hl : ListsNext front table l) :
      l = (l.map (·.segment)).map (next front table) := by
    rw [List.map_map]
    exact (List.map_id l).symm.trans (List.map_congr_left fun s hs => hl.eq_next hs)
  rw [hnext h, hnext h', h.segments_eq h']

/-! ## 2. Slots in order -/

theorem slotAt_ne_blank_iff :
    slotAt front rows segment ≠ .blank ↔
      ∃ path ∈ rows.map (·.1), isWithin path (front ++ segment) = true := by
  have hblank : slotAt front rows segment = .blank ↔
      (∀ row ∈ rows, isBelow row.1 (front ++ segment) = false) ∧
        front ++ segment ∉ rows.map (·.1) := by
    rw [slotAt, Slot.blank, Slot.mk.injEq, Entries.get?_eq_none_iff, List.any_eq_false]
    simp only [Bool.not_eq_true]
  rw [not_iff_comm, hblank]
  constructor
  · intro hnone
    refine ⟨fun row hrow => ?_, fun hat => ?_⟩
    · rw [Bool.eq_false_iff]
      exact fun hbelow =>
        hnone ⟨row.1, List.mem_map_of_mem hrow, DottedPath.isWithin_iff.mpr (.inr hbelow)⟩
    · exact hnone ⟨_, hat, DottedPath.isWithin_iff.mpr (.inl rfl)⟩
  · rintro ⟨hbelow, hat⟩ ⟨path, hpath, hwithin⟩
    rcases DottedPath.isWithin_iff.mp hwithin with rfl | hin
    · exact hat hpath
    · obtain ⟨row, hrow, rfl⟩ := List.mem_map.mp hpath
      rw [hbelow row hrow] at hin
      cases hin

/-- The slots are those of the rows, in the order in which the rows first bring them. -/
structure InOrder (front : Text) (rows : List (Text × Value)) (slots : OrderedMap Slot) :
    Prop where
  noted : Noted front rows slots
  order : slots.keys.Pairwise fun segment other =>
    firstWithin (rows.map (·.1)) (front ++ segment) < firstWithin (rows.map (·.1)) (front ++ other)

theorem Noted.exists_row_of_mem_keys (h : Noted front rows slots) (hs : segment ∈ slots.keys) :
    ∃ path ∈ rows.map (·.1), isWithin path (front ++ segment) = true := by
  cases hslot : slots.get? segment with
  | none => exact absurd hs (Entries.get?_eq_none_iff.mp hslot)
  | some slot =>
    obtain ⟨-, rfl, hne⟩ := h.used segment slot hslot
    exact slotAt_ne_blank_iff.mp hne

/-- More rows leave the slots that are there in order. -/
theorem InOrder.order_append (h : InOrder front rows slots) (more : List (Text × Value)) :
    slots.keys.Pairwise fun segment other =>
      firstWithin ((rows ++ more).map (·.1)) (front ++ segment) <
        firstWithin ((rows ++ more).map (·.1)) (front ++ other) := by
  refine h.order.imp_of_mem fun hs ho hlt => ?_
  rw [List.map_append,
    (DottedPath.firstWithin_append _ (h.noted.exists_row_of_mem_keys hs)).1,
    (DottedPath.firstWithin_append _ (h.noted.exists_row_of_mem_keys ho)).1]
  exact hlt

/-- **A slot that a row adds is the last.** -/
theorem InOrder.insert (h : InOrder front rows slots) (hs : IsSegment segment)
    (hnoted : Noted front (rows ++ [row]) (slots.insert segment slot)) :
    InOrder front (rows ++ [row]) (slots.insert segment slot) where
  noted := hnoted
  order := by
    rw [OrderedMap.keys_insert]
    split
    · exact h.order_append [row]
    · rename_i hnew
      refine List.pairwise_append.mpr ⟨h.order_append [row], List.pairwise_singleton _ _, ?_⟩
      intro other ho last hlast
      rw [List.mem_singleton.mp hlast, List.map_append]
      -- no row had the segment yet, so the first one that does comes behind all of them
      have hblank := h.noted.unused segment hs (Entries.get?_eq_none_iff.mpr hnew)
      have hle := DottedPath.length_le_firstWithin_append ([row].map (·.1))
        (mt slotAt_ne_blank_iff.mpr (not_not_intro hblank))
      obtain ⟨heq, hlt⟩ := DottedPath.firstWithin_append ([row].map (·.1))
        (h.noted.exists_row_of_mem_keys ho)
      rw [heq]
      exact Nat.lt_of_lt_of_le hlt hle

theorem InOrder.snoc (h : InOrder front rows slots) (hnew : row.1 ∉ rows.map (·.1)) :
    InOrder front (rows ++ [row]) (note front slots row) := by
  have hnoted := h.noted.snoc hnew
  cases rowKind front row with
  | leaf hs hrow =>
    rw [note_leaf hs hrow] at hnoted ⊢
    exact h.insert hs hnoted
  | below hs hrow =>
    rw [note_below hs hrow] at hnoted ⊢
    exact h.insert hs hnoted
  | none hnote hrow =>
    rw [hnote] at hnoted ⊢
    exact ⟨hnoted, h.order_append [row]⟩

theorem InOrder.foldl {more : List (Text × Value)} (h : InOrder front rows slots)
    (hnodup : ((rows ++ more).map (·.1)).Nodup) :
    InOrder front (rows ++ more) (more.foldl (note front) slots) := by
  induction more generalizing rows slots with
  | nil => rwa [List.append_nil]
  | cons row more ih =>
    rw [List.append_cons] at hnodup ⊢
    refine ih (h.snoc ?_) hnodup
    rw [List.map_append, List.map_append, List.append_assoc] at hnodup
    intro hmem
    exact (List.nodup_append.mp hnodup).2.2 _ hmem _ (by simp) rfl

/-! ## 3. The list -/

theorem listsNext_forPath (typed : Text) (table : Table) :
    ListsNext (boundary typed) table (forPath typed table .never) := by
  have hserved : Polls.never.served table.entries = table.entries := Polls.served_never _
  have hmem {s : Suggestion} := @mem_forPath_iff typed table .never s
  rw [hserved] at hmem
  have hstart : InOrder (boundary typed) [] ∅ := ⟨noted_nil _, .nil⟩
  have hin : InOrder (boundary typed) table.entries (table.entries.foldl (note (boundary typed)) ∅) :=
    hstart.foldl table.nodup
  have hkeys : (forPath typed table .never).map (·.segment) =
      OrderedMap.keys (table.entries.foldl (note (boundary typed)) ∅) := by
    rw [forPath, hserved, List.map_map]
    rfl
  refine ⟨?_, fun segment => ?_, ?_, fun s hs => ?_, fun s hs => ?_, fun s hs => ?_⟩
  · rw [hkeys]
    exact OrderedMap.nodup _
  · rw [OrderedMap.keys, ← slotAt_ne_blank_iff, List.mem_map]
    constructor
    · rintro ⟨s, hs, rfl⟩
      obtain ⟨segment, hsegment, hne, rfl⟩ := hmem.mp hs
      exact ⟨hsegment, hne⟩
    · rintro ⟨hsegment, hne⟩
      exact ⟨_, hmem.mpr ⟨segment, hsegment, hne, rfl⟩, rfl⟩
  · have horder := hin.order
    rw [← hkeys, List.pairwise_map] at horder
    exact horder
  · obtain ⟨segment, -, -, rfl⟩ := hmem.mp hs
    rfl
  · obtain ⟨segment, -, -, rfl⟩ := hmem.mp hs
    simp only [ofSlot, slotAt, List.any_eq_true, OrderedMap.keys, List.mem_map,
      exists_exists_and_eq_and]
  · obtain ⟨segment, -, -, rfl⟩ := hmem.mp hs
    rfl

/-- A table of single segments is listed in full. -/
theorem length_forPath {table : Table} (h : ∀ key ∈ table.keys, IsSegment key) :
    (forPath [] table .never).length = table.size := by
  have hlists := listsNext_forPath [] table
  have hperm : ((forPath [] table .never).map (·.segment)).Perm table.keys := by
    refine (List.perm_ext_iff_of_nodup hlists.nodup table.nodup).mpr ?_
    intro segment
    rw [hlists.segments]
    constructor
    · rintro ⟨-, path, hpath, hwithin⟩
      rcases DottedPath.isWithin_iff.mp hwithin with rfl | hbelow
      · exact hpath
      · obtain ⟨rest, rfl⟩ := DottedPath.isBelow_iff.mp hbelow
        exact absurd (by simp) (h _ hpath).2
    · intro hkey
      exact ⟨h segment hkey, segment, hkey, DottedPath.isWithin_iff.mpr (.inl rfl)⟩
  have hlength := hperm.length_eq
  rwa [List.length_map, OrderedMap.keys, List.length_map] at hlength

/-- **What is listed for a path** is what the table calls for behind its boundary, and nothing else
    is: whatever is typed behind the boundary, the list is the same. -/
theorem eq_forPath_iff_listsNext (typed : Text) (table : Table) :
    ∃ front part, typed = front ++ part ∧ (front = [] ∨ ∃ t, front = t ++ ['.']) ∧ '.' ∉ part ∧
      (∀ list, list = forPath typed table .never ↔ ListsNext front table list) ∧
      ∀ part', '.' ∉ part' → forPath (front ++ part') table .never = forPath typed table .never := by
  have hfront := DottedPath.boundary_eq typed
  refine ⟨boundary typed, DottedPath.partialSegment typed,
    (DottedPath.boundary_append_partialSegment typed).symm, hfront,
    DottedPath.dot_not_mem_partialSegment typed, fun list => ⟨?_, fun h => ?_⟩, fun part' h => ?_⟩
  · rintro rfl
    exact listsNext_forPath typed table
  · exact h.unique (listsNext_forPath typed table)
  · have hlists := listsNext_forPath (boundary typed ++ part') table
    rw [DottedPath.boundary_append hfront h] at hlists
    exact hlists.unique (listsNext_forPath typed table)

end Suggestion

end ThemeLens
