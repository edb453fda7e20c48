import ThemeLens.Proofs.Cancellation
import ThemeLens.Proofs.Completion.Listing
import ThemeLens.Proofs.Theme.FlatTable

/-!
# Completion that is cancelled

A completion that is stopped on its way lists what the rows served so far call for. Rows that were
not served could have said more about a segment that is listed already: that the table goes on below
it, and then its value would not have been shown. In the table of a theme they never do. A path that
goes on below a segment and one that ends with it would clash, so what the first row of a segment
says about it, leaf or not, all later rows of the segment say again (`ofSlot_slotAt_append`).

New segments come behind those that are there. So a list that was stopped is the beginning of the
full one, suggestion by suggestion (`forPath_cutShort`).
-/

namespace ThemeLens.Suggestion

open DottedPath (boundary isBelow isWithin)

variable {front segment typed : Text} {rows more : List (Text × Value)} {slots : OrderedMap Slot}
  {table part : Table} {callableKey : Text} {polls : Polls}

/-! ## 1. Segments stay in their places -/

theorem keys_isPrefix_keys_note (front : Text) (slots : OrderedMap Slot) (row : Text × Value) :
    slots.keys <+: (note front slots row).keys := by
  cases rowKind front row with
  | leaf hs hrow =>
    rw [note_leaf hs hrow]
    exact slots.keys_isPrefix_keys_insert _ _
  | below hs hrow =>
    rw [note_below hs hrow]
    exact slots.keys_isPrefix_keys_insert _ _
  | none hnote _ => simp only [hnote, List.prefix_rfl]

theorem keys_isPrefix_keys_foldl (front : Text) (slots : OrderedMap Slot)
    (rows : List (Text × Value)) : slots.keys <+: (rows.foldl (note front) slots).keys := by
  induction rows generalizing slots with
  | nil => exact List.prefix_rfl
  | cons row rows ih => exact (keys_isPrefix_keys_note front slots row).trans (ih _)

/-! ## 2. What is said about a segment stays -/

theorem deeper_slotAt_of_mem {row : Text × Value} (hrow : row ∈ rows)
    (hbelow : isBelow row.1 (front ++ segment) = true) :
    (slotAt front rows segment).deeper = true :=
  List.any_eq_true.mpr ⟨row, hrow, hbelow⟩

/-- Nothing goes on below a leaf of a theme, whichever of its rows are looked at. -/
theorem deeper_slotAt_eq_false (hflat : table.IsFlat callableKey)
    (hleaf : front ++ segment ∈ table.keys) (hrows : rows ⊆ table.entries) :
    (slotAt front rows segment).deeper = false := by
  apply List.any_eq_false.mpr
  intro row hrow
  rw [hflat.isBelow_eq_false (List.mem_map_of_mem (hrows hrow)) hleaf]
  exact Bool.false_ne_true

theorem leaf_slotAt_append (more : List (Text × Value))
    (hleaf : front ++ segment ∈ rows.map (·.1)) :
    (slotAt front (rows ++ more) segment).leaf = (slotAt front rows segment).leaf := by
  simp only [slotAt, Entries.get?_append]
  cases hvalue : Entries.get? (front ++ segment) rows with
  | none => exact absurd hleaf (Entries.get?_eq_none_iff.mp hvalue)
  | some value => rfl

/-- **Of a segment that some row has, further rows of a theme say the same**, as far as a suggestion
    shows it. -/
theorem ofSlot_slotAt_append (hflat : table.IsFlat callableKey) (hrows : table.entries = rows ++ more)
    (hsegment : ∃ path ∈ rows.map (·.1), isWithin path (front ++ segment) = true) :
    ofSlot front segment (slotAt front rows segment) =
      ofSlot front segment (slotAt front table.entries segment) := by
  have hserved : rows ⊆ table.entries := by
    rw [hrows]
    exact List.subset_append_left rows more
  obtain ⟨path, hpath, hwithin⟩ := hsegment
  rcases DottedPath.isWithin_iff.mp hwithin with rfl | hbelow
  · -- a leaf: it stays one, and its value has been found
    have hkey : front ++ segment ∈ table.keys := List.map_subset _ hserved hpath
    have hleaf := leaf_slotAt_append more hpath
    rw [← hrows] at hleaf
    simp only [ofSlot, deeper_slotAt_eq_false hflat hkey hserved,
      deeper_slotAt_eq_false hflat hkey (List.Subset.refl _), hleaf]
  · -- a step further down: it stays one, and it shows no value
    obtain ⟨row, hrow, rfl⟩ := List.mem_map.mp hpath
    simp only [ofSlot, deeper_slotAt_of_mem hrow hbelow,
      deeper_slotAt_of_mem (hserved hrow) hbelow, if_true]

/-! ## 3. The list -/

theorem noted_entries (front : Text) (table : Table) :
    Noted front table.entries (table.entries.foldl (note front) ∅) :=
  (noted_nil front).foldl table.nodup

/-- A list of suggestions is read off the rows, segment by segment. -/
theorem forPath_eq_map (typed : Text) (table : Table) :
    forPath typed table .never =
      (OrderedMap.keys (table.entries.foldl (note (boundary typed)) ∅)).map fun segment =>
        ofSlot (boundary typed) segment (slotAt (boundary typed) table.entries segment) := by
  rw [forPath, Polls.served_never, OrderedMap.keys, List.map_map]
  apply List.map_congr_left
  rintro ⟨segment, slot⟩ hmem
  obtain ⟨-, hslot, -⟩ :=
    (noted_entries (boundary typed) table).used segment slot (OrderedMap.get?_eq_some_iff.mpr hmem)
  show ofSlot _ segment slot = ofSlot _ segment _
  rw [hslot]

/-- **The first rows of a theme list the first suggestions.** -/
theorem forPath_isPrefix (hflat : table.IsFlat callableKey) (hpart : part.entries <+: table.entries) :
    forPath typed part .never <+: forPath typed table .never := by
  obtain ⟨more, hmore⟩ := hpart
  have hsame : forPath typed part .never =
      (OrderedMap.keys (part.entries.foldl (note (boundary typed)) ∅)).map fun segment =>
        ofSlot (boundary typed) segment (slotAt (boundary typed) table.entries segment) := by
    rw [forPath_eq_map]
    apply List.map_congr_left
    intro segment hsegment
    exact ofSlot_slotAt_append hflat hmore.symm
      ((noted_entries _ part).exists_row_of_mem_keys hsegment)
  rw [hsame, forPath_eq_map typed table, ← hmore, List.foldl_append]
  exact (keys_isPrefix_keys_foldl _ _ more).map _

theorem forPath_eq_take (typed : Text) (table : Table) (polls : Polls) :
    forPath typed table polls = forPath typed (table.take (polls.granted table.size)) .never := by
  rw [forPath, forPath, Polls.served_never, Polls.served_eq_take]
  rfl

/-- **A cancelled completion lists what the rows served call for**, as many rows as polls say no, and
    for the table of a theme that is the beginning of the full list. -/
theorem forPath_cutShort {theme : Theme} (h : theme.flatten callableKey = .ok table) (typed : Text)
    (polls : Polls) :
    forPath typed table polls = forPath typed (table.take (polls.granted table.size)) .never ∧
      forPath typed table polls <+: forPath typed table .never := by
  have htake := forPath_eq_take typed table polls
  refine ⟨htake, ?_⟩
  rw [htake]
  exact forPath_isPrefix (Theme.isFlat_of_flatten h) (List.take_prefix _ _)

/-- A theme with the paths `a.b`, `c`, `a.d` and `e`, stopped after two of them: the first two
    segments are listed as in full, `a` as a step further down and `c` as a leaf. -/
theorem forPath_cutShort_afterTwo :
    let theme : Theme :=
      ⟨#[.composite ⟨[(['a'], 1), (['c'], 2), (['a', '.', 'd'], 2), (['e'], 2)], by decide⟩,
        .composite ⟨[(['b'], 2)], by decide⟩, .scalar (.bool true)], 0⟩
    let table : Table :=
      ⟨[(['a', '.', 'b'], .scalar (.bool true)), (['c'], .scalar (.bool true)),
        (['a', '.', 'd'], .scalar (.bool true)), (['e'], .scalar (.bool true))], by decide⟩
    theme.flatten ['s'] = .ok table ∧
      (forPath [] table (.after 2)).map (·.segment) = [['a'], ['c']] ∧
      (forPath [] table .never).map (·.segment) = [['a'], ['c'], ['e']] ∧
      forPath [] table (.after 2) <+: forPath [] table .never := by
  intro theme table
  have h : theme.flatten ['s'] = .ok table := by
    simp [Theme.flatten, Theme.visitAll, Theme.visit, theme, Theme.node?, Theme.emit]
    rfl
  obtain ⟨htake, hprefix⟩ := forPath_cutShort h [] (.after 2)
  refine ⟨h, ?_, rfl, hprefix⟩
  rw [htake]
  rfl

end ThemeLens.Suggestion
