import ThemeLens.Proofs.Accessor.Scan
import ThemeLens.Proofs.Text.Place

/-!
# The accessor under a cursor

The point query asks the range query about one line only, and only up to the cursor. It misses
nothing and sees nothing that is not there. What is left out above the line ends above it, and
what is left out behind the cursor begins behind it, so the accessors that touch the cursor are
those of the whole text (`filter_line_eq_touching`).

There is at most one of them, because between two accessors of a pass there is room for a keyword.
The choice of the longest, which the query makes, is therefore no choice (`at?_eq_some_iff`).
-/

namespace ThemeLens.Accessor

/-- The accessors of a text whose path covers an offset or ends there. -/
def touching (text : Text) (offset : Nat) : List Accessor :=
  (within text ⟨0, text.size⟩).filter (·.pathSpan.touches offset)

/-! ## 1. One line is enough -/

/-- **The line up to the cursor has every accessor that touches it.** -/
theorem filter_line_eq_touching (text : Text) (k : Cursor) (hk : k.text = text) :
    (within text ⟨k.lineStart, k.offset + 1⟩).filter (·.pathSpan.touches k.offset) =
      touching text k.offset := by
  obtain ⟨above, line, htext, hsize, hoffset, hlast⟩ := k.exists_lineStart
  rw [hk, List.append_assoc] at htext
  rw [Text.size_append] at hoffset
  have htotal := congrArg Text.size htext
  simp only [Text.size_append] at htotal
  -- first the whole text: what is found above the line does not touch the place
  obtain ⟨found, hcut, habove⟩ := scan_line ⟨0, text.size⟩ [] above (line ++ k.after) hlast
  have hnone : found.filter (·.pathSpan.touches k.offset) = [] := by
    rw [List.filter_eq_nil_iff]
    intro a ha htouch
    have hstop := (Span.touches_iff.mp htouch).2
    have hlt := habove a ha
    simp only [pathSpan] at hstop
    rw [Text.size_nil] at hlt
    omega
  have hwhole : touching text k.offset =
      (scan ⟨0, text.size⟩ 0 above.reverse (line ++ k.after)).filter
        (·.pathSpan.touches k.offset) := by
    rw [← htext, List.append_nil] at hcut
    rw [touching, within, hcut, List.filter_append, hnone, List.nil_append]
  -- then the line: its window is not open before it
  have hline : within text ⟨k.lineStart, k.offset + 1⟩ =
      scan ⟨k.lineStart, k.offset + 1⟩ 0 above.reverse (line ++ k.after) := by
    rw [within, htext, scan_before_window, List.append_nil]
    rw [Text.size_nil, Nat.zero_add]
    exact Nat.le_of_eq hsize
  rw [hwhole, hline]
  refine filter_scan_window ?_ (Nat.zero_le _) ?_
  · rw [Text.size_reverse]
    exact Nat.le_of_eq hsize.symm
  · intro a ha
    have hstart : a.pathStart ≤ k.offset := (Span.touches_iff.mp ha).1
    have hpos := keyword_size_pos
    refine ⟨?_, ?_⟩
    · show a.pathStart < k.offset + 1 + keyword.size
      omega
    · show a.pathStart < text.size + keyword.size
      omega

/-! ## 2. At most one accessor -/

theorem length_touching_le_one (text : Text) (offset : Nat) : (touching text offset).length ≤ 1 := by
  have hpair := (scan_pairwise ⟨0, text.size⟩ 0 [] text).filter (·.pathSpan.touches offset)
  change (touching text offset).Pairwise _ at hpair
  have hmem : ∀ a ∈ touching text offset, a.pathSpan.touches offset = true := fun a ha =>
    (List.mem_filter.mp ha).2
  match h : touching text offset with
  | [] => exact Nat.zero_le 1
  | [a] => exact Nat.le_refl 1
  | a :: a' :: rest =>
    -- the first ends at the place or behind it, the second begins behind the end of the first
    rw [h] at hpair hmem
    have hroom := (List.pairwise_cons.mp hpair).1 a' List.mem_cons_self
    have hstop := (Span.touches_iff.mp (hmem a List.mem_cons_self)).2
    have hstart :=
      (Span.touches_iff.mp (hmem a' (List.mem_cons_of_mem _ List.mem_cons_self))).1
    have hpos := keyword_size_pos
    simp only [pathSpan] at hstop hstart
    omega

theorem eq_of_mem_touching {text : Text} {o : Nat} {a a' : Accessor} (h : a ∈ touching text o)
    (h' : a' ∈ touching text o) : a = a' := by
  have hone := length_touching_le_one text o
  match hlist : touching text o with
  | [] =>
    rw [hlist] at h
    cases h
  | [only] =>
    rw [hlist, List.mem_singleton] at h h'
    rw [h, h']
  | first :: second :: rest =>
    rw [hlist] at hone
    simp at hone

theorem exists_split_of_mem_within {text : Text} {w : Span} {a : Accessor}
    (h : a ∈ within text w) :
    ∃ s rest : Text, text = s ++ keyword ++ rest ∧ a.pathStart = (s ++ keyword).size ∧
      a.path = pathFrom false rest ∧ opening? s.reverse = some (a.start, a.form) := by
  obtain ⟨s, t, rfl, hkey, -, -⟩ := exists_keyword_of_mem_scan h
  obtain ⟨rest, rfl, hpath, hopen, hstart⟩ := ofKeyword?_eq_some_iff.mp hkey
  rw [List.append_nil] at hopen
  refine ⟨s, rest, (List.append_assoc _ _ _).symm, ?_, hpath, hopen⟩
  rw [hstart, Cursor.offset, List.append_nil, Text.size_reverse, Text.size_append]

/-- The text behind a keyword begins with every beginning of the path that was read. -/
theorem slice?_of_isPrefix {text : Text} {w : Span} {a : Accessor} {p : Text}
    (ha : a ∈ within text w) (hp : p <+: a.path) :
    text.slice? ⟨a.pathStart, a.pathStart + p.size⟩ = some p := by
  obtain ⟨s, rest, htext, hstart, hpath, -⟩ := exists_split_of_mem_within ha
  obtain ⟨more, rfl⟩ := hp.trans (hpath ▸ pathFrom_isPrefix false rest)
  refine Text.slice?_eq_some_iff.mpr ⟨s ++ keyword, more, ?_, hstart.symm, rfl⟩
  rw [htext, List.append_assoc (s ++ keyword)]

theorem exists_typed_of_touches {text : Text} {w : Span} {a : Accessor} {k : Cursor}
    (h : a ∈ within text w) (hk : k.text = text) (htouch : a.pathSpan.touches k.offset = true) :
    ∃ typed, typed <+: a.path ∧ text.slice? ⟨a.pathStart, k.offset⟩ = some typed := by
  obtain ⟨s, rest, htext, hstart, hpath, -⟩ := exists_split_of_mem_within h
  obtain ⟨hge, hle⟩ := Span.touches_iff.mp htouch
  simp only [pathSpan] at hge
  simp only [pathSpan, stop] at hle
  have hoffset : k.offset = Text.size k.before.reverse := (Text.size_reverse k.before).symm
  have hsplit : s ++ keyword ++ rest = k.before.reverse ++ k.after := by
    rw [← htext, ← hk, Cursor.text]
  obtain ⟨typed, hbefore, hrest⟩ := Text.exists_between hsplit (by omega)
  have hsize : k.offset = a.pathStart + typed.size := by
    rw [hoffset, hbefore, Text.size_append, hstart]
  refine ⟨typed, ?_, ?_⟩
  · -- the path and the part before the place both begin what follows the keyword
    obtain ⟨more, hmore⟩ := pathFrom_isPrefix false rest
    rw [← hpath] at hmore
    obtain ⟨m, hm, -⟩ := Text.exists_between (hrest.symm.trans hmore.symm) (by omega)
    exact ⟨m, hm.symm⟩
  · refine Text.slice?_eq_some_iff.mpr ⟨s ++ keyword, k.after, ?_, hstart.symm, hsize.symm⟩
    rw [List.append_assoc, ← hrest, htext]

/-! ## 3. The point query -/

theorem at?_eq_some_iff {text : Text} {offset : Nat} {hit : Hit} :
    at? text offset = some hit ↔
      offset ≤ text.size ∧ hit.accessor ∈ touching text (text.seek offset).offset ∧
        text.slice? ⟨hit.accessor.pathStart, (text.seek offset).offset⟩ = some hit.typed := by
  have hk := text.text_seek offset
  unfold at?
  by_cases hout : text.size < offset
  · rw [if_pos hout]
    refine ⟨fun h => (by cases h), fun h => ?_⟩
    exact absurd h.1 (Nat.not_le_of_lt hout)
  rw [if_neg hout]
  simp only [filter_line_eq_touching text _ hk]
  generalize text.seek offset = k at hk
  have hone := length_touching_le_one text k.offset
  have hmem : ∀ a ∈ touching text k.offset, ∃ typed,
      text.slice? ⟨a.pathStart, k.offset⟩ = some typed ∧
        typedBefore text a.pathSpan k.offset = typed := by
    intro a ha
    obtain ⟨hin, htouch⟩ := List.mem_filter.mp ha
    obtain ⟨typed, -, hslice⟩ := exists_typed_of_touches hin hk htouch
    obtain ⟨hge, hle⟩ := Span.touches_iff.mp htouch
    refine ⟨typed, hslice, ?_⟩
    rw [typedBefore, Nat.max_eq_left hge, Nat.min_eq_left hle]
    simp only [pathSpan, hslice, Option.getD_some]
  match h : touching text k.offset with
  | [] =>
    refine ⟨fun hhit => (by cases hhit), fun hhit => ?_⟩
    cases hhit.2.1
  | a :: b :: rest =>
    rw [h] at hone
    simp at hone
  | [a] =>
    obtain ⟨typed, hslice, htyped⟩ := hmem a (h ▸ List.mem_cons_self)
    simp only [List.foldl_nil, htyped, Option.some.injEq, List.mem_singleton]
    constructor
    · rintro rfl
      exact ⟨Nat.le_of_not_lt hout, rfl, hslice⟩
    · intro h
      obtain ⟨-, hacc, htyped'⟩ := h
      rw [hacc, hslice] at htyped'
      cases hit
      cases hacc
      cases htyped'
      rfl

/-- A hit reads the text around the cursor: a keyword, the path up to the cursor, and the rest. -/
theorem exists_split_of_at? {text : Text} {offset : Nat} {hit : Hit}
    (h : at? text offset = some hit) :
    ∃ front rest : Text, text = front ++ keyword ++ (hit.typed ++ rest) ∧
      hit.accessor ∈ within text ⟨0, text.size⟩ ∧
      hit.accessor.pathStart = (front ++ keyword).size ∧
      pathFrom false hit.typed = hit.typed := by
  obtain ⟨-, hmem, hslice⟩ := at?_eq_some_iff.mp h
  obtain ⟨hin, htouch⟩ := List.mem_filter.mp hmem
  obtain ⟨front, after, htext, hstart, hpath, -⟩ := exists_split_of_mem_within hin
  obtain ⟨typed, ⟨more, hmore⟩, hslice'⟩ := exists_typed_of_touches hin (text.text_seek offset) htouch
  obtain rfl : hit.typed = typed := Option.some.inj (hslice.symm.trans hslice')
  obtain ⟨s, rest, htext', hs, -⟩ := Text.slice?_eq_some_iff.mp hslice
  rw [List.append_assoc] at htext'
  obtain ⟨rfl, hafter⟩ := Text.append_inj_of_size (htext'.symm.trans htext) (hs.trans hstart)
  refine ⟨front, rest, htext', hin, hstart, ?_⟩
  have hself := pathFrom_pathFrom false after
  rw [← hpath, ← hmore] at hself
  exact (pathFrom_append_eq_self_iff.mp hself).1

/-- The path of a hit goes on from what is typed of it, and the cursor stands between the two. -/
theorem exists_path_of_at? {text : Text} {offset : Nat} {hit : Hit}
    (hhit : at? text offset = some hit) :
    ∃ more, hit.accessor.path = hit.typed ++ more ∧
      pathFrom false (hit.typed ++ more) = hit.typed ++ more ∧
      (text.seek offset).offset = hit.accessor.pathStart + hit.typed.size := by
  obtain ⟨-, hmem, hslice⟩ := at?_eq_some_iff.mp hhit
  obtain ⟨hin, htouch⟩ := List.mem_filter.mp hmem
  obtain ⟨typed, hprefix, hslice'⟩ :=
    exists_typed_of_touches hin (text.text_seek offset) htouch
  obtain rfl : hit.typed = typed := Option.some.inj (hslice.symm.trans hslice')
  obtain ⟨more, hmore⟩ := hprefix
  obtain ⟨_, rest, -, -, hpath, -⟩ := exists_split_of_mem_within hin
  obtain ⟨_, _, -, -, hoffset⟩ := Text.slice?_eq_some_iff.mp hslice
  refine ⟨more, hmore.symm, ?_, hoffset.symm⟩
  rw [hmore, hpath, pathFrom_pathFrom]

/-- Conversely an accessor is hit wherever its path can be split. -/
theorem at?_of_mem_within {front typed rest : Text} {a : Accessor}
    (hin : a ∈ within (front ++ keyword ++ (typed ++ rest))
      ⟨0, (front ++ keyword ++ (typed ++ rest)).size⟩)
    (hstart : a.pathStart = (front ++ keyword).size)
    (hpath : a.path = pathFrom false (typed ++ rest)) (htyped : pathFrom false typed = typed) :
    at? (front ++ keyword ++ (typed ++ rest)) (a.pathStart + typed.size) = some ⟨a, typed⟩ := by
  have hseek : ((front ++ keyword ++ (typed ++ rest)).seek (a.pathStart + typed.size)).offset =
      a.pathStart + typed.size := by
    rw [← List.append_assoc, hstart, ← Text.size_append, Text.seek_append, Cursor.offset,
      Text.size_reverse]
  rw [pathFrom_append htyped] at hpath
  refine at?_eq_some_iff.mpr ⟨?_, List.mem_filter.mpr ⟨hin, ?_⟩, ?_⟩
  · rw [hstart]
    simp only [Text.size_append]
    omega
  · rw [hseek]
    refine Span.touches_iff.mpr ⟨Nat.le_add_right _ _, ?_⟩
    show a.pathStart + typed.size ≤ a.pathStart + a.path.size
    rw [hpath, Text.size_append]
    omega
  · rw [hseek]
    refine Text.slice?_eq_some_iff.mpr ⟨front ++ keyword, rest, ?_, hstart.symm, rfl⟩
    rw [List.append_assoc (front ++ keyword)]

/-- **Right behind its path an accessor is found**, with the whole path typed. -/
theorem at?_stop {text : Text} {a : Accessor} (ha : a ∈ within text ⟨0, text.size⟩) :
    at? text a.stop = some ⟨a, a.path⟩ := by
  obtain ⟨front, after, rfl, hstart, hpath, -⟩ := exists_split_of_mem_within ha
  have hself : pathFrom false a.path = a.path := by
    rw [hpath]
    exact pathFrom_pathFrom false after
  obtain ⟨rest, rfl⟩ : ∃ rest, after = a.path ++ rest := by
    obtain ⟨rest, hrest⟩ := pathFrom_isPrefix false after
    exact ⟨rest, by rw [hpath, hrest]⟩
  exact at?_of_mem_within ha hstart hpath hself

/-- The accessor of a hit is found again when other text follows its keyword. -/
theorem mem_within_of_keyword {front after : Text} {a : Accessor} (after' : Text)
    (h : a ∈ within (front ++ keyword ++ after) ⟨0, (front ++ keyword ++ after).size⟩)
    (hstart : a.pathStart = (front ++ keyword).size) :
    { a with path := pathFrom false after' } ∈
      within (front ++ keyword ++ after') ⟨0, (front ++ keyword ++ after').size⟩ := by
  have hpos := keyword_size_pos
  refine mem_scan_of_keyword after' ?_ h ?_
  · intro o ho
    have hin {t : Text} : Span.contains ⟨0, (front ++ keyword ++ t).size⟩ o = true := by
      refine Span.contains_iff.mpr ⟨Nat.zero_le o, ?_⟩
      rw [Text.size_nil] at ho
      show o < (front ++ keyword ++ t).size
      simp only [Text.size_append]
      omega
    rw [hin, hin]
  · rw [hstart, Text.size_append, Text.size_nil, Nat.zero_add]

/-- **The point query agrees with the range query** over the whole text: it finds an accessor
    exactly when one touches the place the offset is rounded down to, that one is the only one,
    and `typed` is what the text has between the start of its path and the place. -/
theorem at?_agrees_within (text : Text) (offset : Nat) :
    ∃ o, text.RoundsDown offset o ∧ (touching text o).length ≤ 1 ∧
      ((at? text offset).isSome = true ↔
        offset ≤ text.size ∧ ∃ a ∈ within text ⟨0, text.size⟩, a.pathSpan.touches o = true) ∧
      ∀ hit, at? text offset = some hit ↔
        offset ≤ text.size ∧ hit.accessor ∈ within text ⟨0, text.size⟩ ∧
          hit.accessor.pathSpan.touches o = true ∧
          text.slice? ⟨hit.accessor.pathStart, o⟩ = some hit.typed := by
  have hiff (hit : Hit) : at? text offset = some hit ↔
      offset ≤ text.size ∧ hit.accessor ∈ within text ⟨0, text.size⟩ ∧
        hit.accessor.pathSpan.touches (text.seek offset).offset = true ∧
        text.slice? ⟨hit.accessor.pathStart, (text.seek offset).offset⟩ = some hit.typed := by
    rw [at?_eq_some_iff, touching, List.mem_filter, and_assoc]
  refine ⟨_, text.roundsDown_seek offset, length_touching_le_one _ _, ?_, hiff⟩
  constructor
  · intro h
    obtain ⟨hit, hhit⟩ := Option.isSome_iff_exists.mp h
    obtain ⟨hle, hin, htouch, -⟩ := (hiff hit).mp hhit
    exact ⟨hle, hit.accessor, hin, htouch⟩
  · intro h
    obtain ⟨hle, a, hin, htouch⟩ := h
    obtain ⟨typed, -, hslice⟩ := exists_typed_of_touches hin (text.text_seek offset) htouch
    rw [(hiff ⟨a, typed⟩).mpr ⟨hle, hin, htouch, hslice⟩]
    rfl

end ThemeLens.Accessor
