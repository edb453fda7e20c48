import ThemeLens.Proofs.Accessor.Pattern
import ThemeLens.Proofs.Accessor.Scan
import ThemeLens.Proofs.Text.LineColumn

/-!
# Windows that open inside a path

Whether a keyword counts is known only to a pass that comes from the front: one inside the path of
an accessor already taken belongs to that path. A window that opens inside the path does not see
the keyword in front of it, so its pass has nothing to skip and takes the first keyword there is,
as in `theme.props.theme.x` behind the first dot. The accessors of the window are then not those
of the text that begin in it (`not_forall_within_eq_visible`).

This file says how far off they can be. A path that begins inside another one ends where that one
ends (`stop_eq_of_keyword_inside`), so after a single wrong accessor the pass is where it would have
been: the window shows what it should, with at most one accessor too many in front. Whether there
is one is a question about the cut path only (`Exposed`), and a window that opens with a line has
none (`within_eq_visible_of_line`).
-/

namespace ThemeLens.Accessor

variable {w : Span} {r : Nat} {b m s t text : Text} {c : Char} {a outer : Accessor}

/-! ## 1. Keywords, taken or not -/

/-- Where the keyword of an accessor begins. -/
def keywordAt (a : Accessor) : Nat := a.pathStart - keyword.size

/-- The accessor of a keyword of the text that goes on with `t` after `b`, whatever a pass makes of
    it. -/
def Occurs (b t : Text) (a : Accessor) : Prop :=
  ∃ s t', t = s ++ t' ∧ ofKeyword? ⟨s.reverse ++ b, t'⟩ = some a

/-- The accessors of the whole text whose keyword begins in the window. -/
def visible (text : Text) (w : Span) : List Accessor :=
  (within text ⟨0, text.size⟩).filter fun a => w.contains a.keywordAt

/-- A keyword of the window that the path of an accessor goes over, while the keyword of that
    accessor is in front of the window. -/
def Exposed (text : Text) (w : Span) (a : Accessor) : Prop :=
  Occurs [] text a ∧ w.contains a.keywordAt = true ∧
    ∃ outer ∈ within text ⟨0, text.size⟩, outer.keywordAt < w.start ∧ a.keywordAt < outer.stop

theorem keywordAt_of_ofKeyword? {k : Cursor} (h : ofKeyword? k = some a) :
    a.keywordAt = k.offset := by
  rw [keywordAt, pathStart_of_ofKeyword? h, Nat.add_sub_cancel]

theorem Occurs.keywordAt_bounds (h : Occurs b t a) :
    b.size ≤ a.keywordAt ∧ a.keywordAt < b.size + t.size := by
  obtain ⟨s, t', rfl, hkey⟩ := h
  obtain ⟨rest, hafter, -⟩ := ofKeyword?_eq_some_iff.mp hkey
  have hat := keywordAt_of_ofKeyword? hkey
  have hsize := congrArg Text.size hafter
  have hpos := keyword_size_pos
  simp only [Cursor.offset, Text.size_append, Text.size_reverse] at hat hsize ⊢
  omega

/-- The text is cut at the keyword of an accessor. -/
theorem Occurs.exists_split (h : Occurs [] text a) :
    ∃ s t, text = s ++ t ∧ ofKeyword? ⟨s.reverse, t⟩ = some a ∧ a.keywordAt = s.size := by
  obtain ⟨s, t, rfl, hkey⟩ := h
  rw [List.append_nil] at hkey
  refine ⟨s, t, rfl, hkey, ?_⟩
  rw [keywordAt_of_ofKeyword? hkey, Cursor.offset, Text.size_reverse]

theorem not_occurs_nil : ¬ Occurs b [] a := fun h => by
  have hbounds := h.keywordAt_bounds
  rw [Text.size_nil] at hbounds
  omega

theorem occurs_cons_iff :
    Occurs b (c :: t) a ↔ ofKeyword? ⟨b, c :: t⟩ = some a ∨ Occurs (c :: b) t a := by
  constructor
  · rintro ⟨s, t', hsplit, hkey⟩
    cases s with
    | nil => exact .inl (hsplit ▸ hkey)
    | cons d s =>
      obtain ⟨rfl, rfl⟩ := List.cons_eq_cons.mp hsplit
      exact .inr ⟨s, t', rfl, by simpa using hkey⟩
  · rintro (hkey | ⟨s, t', rfl, hkey⟩)
    · exact ⟨[], c :: t, rfl, hkey⟩
    · exact ⟨c :: s, t', rfl, by simpa using hkey⟩

theorem occurs_of_mem_scan (h : a ∈ scan w r b t) :
    Occurs b t a ∧ r ≤ a.keywordAt ∧ w.contains a.keywordAt = true := by
  obtain ⟨s, t', hsplit, hkey, hr, hwindow⟩ := exists_keyword_of_mem_scan h
  have hat := keywordAt_of_ofKeyword? hkey
  rw [Cursor.offset, Text.size_append, Text.size_reverse, Nat.add_comm] at hat
  rw [hat]
  exact ⟨⟨s, t', hsplit, hkey⟩, hr, hwindow⟩

/-! ## 2. A path inside a path -/

/-- A keyword is itself the beginning of a path, wherever it is met. -/
theorem pathFrom_keyword_append (afterIdent : Bool) (rest : Text) :
    pathFrom afterIdent (keyword ++ rest) = keyword ++ pathFrom false rest := by
  simp only [keyword, List.append_assoc, List.singleton_append]
  exact pathFrom_name_dot isName_themeName rest

/-- An accessor from its keyword on is what is read there as a path. -/
theorem pathFrom_of_ofKeyword? {k : Cursor} (h : ofKeyword? k = some a) :
    pathFrom false k.after = keyword ++ a.path := by
  obtain ⟨rest, hafter, hpath, -⟩ := ofKeyword?_eq_some_iff.mp h
  rw [hafter, pathFrom_keyword_append, hpath]

/-- Up to where the accessor ends, all of the text is read. -/
theorem pathFrom_of_inside (houter : ofKeyword? ⟨b, m ++ t⟩ = some outer)
    (h : b.size + m.size ≤ outer.stop) : pathFrom false m = m := by
  have hall := pathFrom_of_ofKeyword? houter
  have hstart := pathStart_of_ofKeyword? houter
  simp only [Cursor.offset] at hall hstart
  obtain ⟨behind, hbehind⟩ := pathFrom_isPrefix false (m ++ t)
  rw [hall] at hbehind
  rw [stop, hstart, Nat.add_assoc, ← Text.size_append keyword] at h
  obtain ⟨m', hm', -⟩ := Text.exists_between hbehind.symm (Nat.le_of_add_le_add_left h)
  have hboth : pathFrom false (m ++ m') = m ++ m' := by
    rw [← hm', ← hall, pathFrom_pathFrom]
  exact (pathFrom_append_eq_self_iff.mp hboth).1

/-- **A path that begins inside another one ends with it.** The outer path, read from its keyword
    on, runs through the inner keyword; behind both keywords the reader is in the same state. -/
theorem stop_eq_of_keyword_inside (houter : ofKeyword? ⟨b, m ++ t⟩ = some outer)
    (ha : ofKeyword? ⟨m.reverse ++ b, t⟩ = some a) (h : a.keywordAt < outer.stop) :
    a.stop = outer.stop := by
  have hat := keywordAt_of_ofKeyword? ha
  have hall := pathFrom_of_ofKeyword? houter
  have hstart := pathStart_of_ofKeyword? houter
  obtain ⟨rest, rfl, hpath, -, hstart'⟩ := ofKeyword?_eq_some_iff.mp ha
  simp only [Cursor.offset, Text.size_append, Text.size_reverse] at hat hall hstart hstart'
  have hthrough := pathFrom_of_inside houter (by omega)
  rw [pathFrom_append hthrough, pathFrom_keyword_append, ← hpath] at hall
  have hsize := congrArg Text.size hall
  simp only [Text.size_append] at hsize
  rw [stop, stop]
  omega

/-! ## 3. A pass that has nothing to skip -/

/-- A keyword in the window at which no accessor counts yet. -/
def Hidden (w : Span) (r : Nat) (b t : Text) (a : Accessor) : Prop :=
  Occurs b t a ∧ w.contains a.keywordAt = true ∧ a.keywordAt < r

/-- Where all hidden accessors end at the offset from which keywords count again, a pass that does
    not know the offset takes the first of them, and from there on what it should. -/
theorem scan_zero_cases (hstop : ∀ a, Hidden w r b t a → a.stop = r) :
    (scan w 0 b t = scan w r b t ∧ ∀ a, ¬ Hidden w r b t a) ∨
      ∃ first, scan w 0 b t = first :: scan w r b t ∧ Hidden w r b t first ∧
        ∀ a, Hidden w r b t a → first.keywordAt ≤ a.keywordAt := by
  induction t generalizing b with
  | nil => exact .inl ⟨rfl, fun a ha => not_occurs_nil ha.1⟩
  | cons c t ih =>
    by_cases hr : r ≤ b.size
    · refine .inl ⟨scan_resume (Nat.zero_le _) hr, fun a ha => ?_⟩
      have := ha.1.keywordAt_bounds
      have := ha.2.2
      omega
    have hskip : taken? w r ⟨b, c :: t⟩ = none := by
      rw [Option.eq_none_iff_forall_ne_some]
      intro a ha
      exact hr (taken?_eq_some_iff.mp ha).2.1
    rw [scan_cons_of_skipped hskip]
    cases htaken : taken? w 0 ⟨b, c :: t⟩ with
    | some first =>
      obtain ⟨hkey, -, hwindow⟩ := taken?_eq_some_iff.mp htaken
      have hat : first.keywordAt = b.size := keywordAt_of_ofKeyword? hkey
      have hfirst : Hidden w r b (c :: t) first :=
        ⟨occurs_cons_iff.mpr (.inl hkey), hat ▸ hwindow, by omega⟩
      refine .inr ⟨first, ?_, hfirst, fun a ha => hat ▸ ha.1.keywordAt_bounds.1⟩
      rw [scan_cons_of_taken htaken, hstop first hfirst]
    | none =>
      have hlater (a : Accessor) : Hidden w r b (c :: t) a ↔ Hidden w r (c :: b) t a := by
        unfold Hidden
        rw [occurs_cons_iff, or_and_right]
        refine or_iff_right fun h => ?_
        obtain ⟨hkey, hwindow, -⟩ := h
        rw [keywordAt_of_ofKeyword? hkey] at hwindow
        have hhere := taken?_eq_some_iff.mpr ⟨hkey, Nat.zero_le _, hwindow⟩
        rw [htaken] at hhere
        cases hhere
      simp only [hlater] at hstop ⊢
      rw [scan_cons_of_skipped htaken]
      exact ih hstop

/-! ## 4. The window and the whole text -/

/-- What the pass over the whole text takes in an open window, the pass with that window takes. -/
theorem filter_scan_contains (hopen : t = [] ∨ w.start ≤ b.size) :
    (scan ⟨0, b.size + t.size⟩ r b t).filter (fun a => w.contains a.keywordAt) = scan w r b t := by
  rcases hopen with rfl | hopen
  · rfl
  -- both passes see only accessors of the text, and those of the second are in the window
  let p (a : Accessor) : Bool := w.contains a.keywordAt && decide (a.keywordAt < b.size + t.size)
  have hleft : (scan ⟨0, b.size + t.size⟩ r b t).filter (fun a => w.contains a.keywordAt) =
      (scan ⟨0, b.size + t.size⟩ r b t).filter p := by
    refine List.filter_congr fun a ha => ?_
    have hbound := (occurs_of_mem_scan ha).1.keywordAt_bounds.2
    simp only [p, hbound, decide_true, Bool.and_true]
  have hright : (scan w r b t).filter p = scan w r b t := by
    refine List.filter_eq_self.mpr fun a ha => ?_
    obtain ⟨hocc, -, hwindow⟩ := occurs_of_mem_scan ha
    simp only [p, hwindow, hocc.keywordAt_bounds.2, decide_true, Bool.and_true]
  rw [hleft, ← hright]
  refine filter_scan_window (Nat.zero_le _) hopen fun a ha => ?_
  simp only [p, Bool.and_eq_true, decide_eq_true_eq, Span.contains_iff] at ha
  rw [keywordAt] at ha
  refine ⟨?_, ?_⟩
  · show a.pathStart < b.size + t.size + keyword.size
    omega
  · omega

section Cut

variable (hs : Text.RoundsUp (s ++ t) w.start s.size)

include hs

theorem isOpen_of_roundsUp : t = [] ∨ w.start ≤ Text.size s.reverse := by
  have hle := hs.le
  rw [Text.size_append] at hle
  rw [Text.size_reverse]
  rcases hle with hle | ⟨-, hsize⟩
  · exact .inr hle
  · exact .inl (Text.size_eq_zero_iff.mp (by omega))

theorem keywordAt_lt_of_roundsUp (h : ∃ s₁ s₂, s = s₁ ++ s₂ ∧ s₂ ≠ [] ∧
    ofKeyword? ⟨s₁.reverse ++ [], s₂ ++ t⟩ = some a) : a.keywordAt < w.start := by
  obtain ⟨s₁, s₂, rfl, hne, hkey⟩ := h
  rw [keywordAt_of_ofKeyword? hkey, Cursor.offset, List.append_nil, Text.size_reverse]
  by_contra hge
  have hback := hs.first s₁.size ⟨s₁, s₂ ++ t, List.append_assoc _ _ _, rfl⟩ (by omega)
  rw [Text.size_append] at hback
  exact hne (Text.size_eq_zero_iff.mp (by omega))

theorem occurs_of_contains (h : Occurs [] (s ++ t) a) (hwindow : w.contains a.keywordAt = true) :
    Occurs s.reverse t a := by
  obtain ⟨x, y, hsplit, hkey, hat⟩ := h.exists_split
  have hstart := (Span.contains_iff.mp hwindow).1
  obtain ⟨m, rfl, rfl⟩ := Text.exists_between hsplit (hs.first x.size ⟨x, y, hsplit, rfl⟩ (by omega))
  exact ⟨m, y, rfl, by simpa using hkey⟩

/-- The pass with the window only walks up to the cut. -/
theorem within_eq_scan_of_roundsUp : within (s ++ t) w = scan w 0 s.reverse t := by
  obtain ⟨found, r, hcut, hfound, hr, -⟩ := scan_append w 0 [] s t
  have hnone : found = [] := by
    refine List.eq_nil_iff_forall_not_mem.mpr fun a ha => ?_
    have hmem : a ∈ scan w 0 [] (s ++ t) := hcut ▸ List.mem_append_left _ ha
    have hstart := (Span.contains_iff.mp (occurs_of_mem_scan hmem).2.2).1
    have hlt := keywordAt_lt_of_roundsUp hs (hfound a ha)
    omega
  subst hnone
  obtain rfl : r = 0 := by simpa using hr
  rw [within, hcut, List.append_nil, List.nil_append]

/-- **A window cuts the pass over the text.** From the cut on, the pass with the window and the one
    over the whole text differ in one number, and what that number hides is what the window
    exposes. -/
theorem exists_cut_of_roundsUp :
    ∃ r, visible (s ++ t) w = scan w r s.reverse t ∧
      (∀ a, Exposed (s ++ t) w a ↔ Hidden w r s.reverse t a) ∧
      ∀ a, Hidden w r s.reverse t a → a.stop = r := by
  have hopen := isOpen_of_roundsUp hs
  obtain ⟨found, r, hcut, hfound, hr, -, hstops⟩ := scan_append ⟨0, (s ++ t).size⟩ 0 [] s t
  have hfront : ∀ a ∈ found, a.keywordAt < w.start := fun a ha =>
    keywordAt_lt_of_roundsUp hs (hfound a ha)
  rw [List.append_nil] at hcut
  refine ⟨r, ?_, fun a => ⟨fun h => ?_, fun h => ?_⟩, fun a h => ?_⟩
  · have hnone : found.filter (fun a => w.contains a.keywordAt) = [] := by
      refine List.filter_eq_nil_iff.mpr fun a ha hwindow => ?_
      have hstart := (Span.contains_iff.mp hwindow).1
      have hlt := hfront a ha
      omega
    rw [visible, within, hcut, List.filter_append, hnone, List.nil_append, Text.size_append,
      ← Text.size_reverse s]
    exact filter_scan_contains hopen
  · -- the accessor whose path is cut was taken before the cut, so the pass is not behind it yet
    obtain ⟨hocc, hwindow, outer, houter, hbefore, hinside⟩ := h
    refine ⟨occurs_of_contains hs hocc hwindow, hwindow, ?_⟩
    rw [within, hcut] at houter
    rcases List.mem_append.mp houter with houter | houter
    · exact Nat.lt_of_lt_of_le hinside (hstops outer houter)
    · have hocc' := (occurs_of_mem_scan houter).1
      rcases hopen with rfl | hopen
      · exact absurd hocc' not_occurs_nil
      · have := hocc'.keywordAt_bounds.1
        omega
  · obtain ⟨⟨m, y, rfl, hkey⟩, hwindow, hlt⟩ := h
    rcases hr with rfl | ⟨outer, houter, rfl⟩
    · exact absurd hlt (Nat.not_lt_zero _)
    · have hmem : outer ∈ within (s ++ (m ++ y)) ⟨0, (s ++ (m ++ y)).size⟩ := by
        rw [within, hcut]
        exact List.mem_append_left _ houter
      have hocc : Occurs [] (s ++ (m ++ y)) a :=
        ⟨s ++ m, y, (List.append_assoc _ _ _).symm, by simpa using hkey⟩
      exact ⟨hocc, hwindow, outer, hmem, hfront outer houter, hlt⟩
  · obtain ⟨⟨m, y, rfl, hkey⟩, -, hlt⟩ := h
    rcases hr with rfl | ⟨outer, houter, rfl⟩
    · exact absurd hlt (Nat.not_lt_zero _)
    · obtain ⟨s₁, s₂, rfl, -, houterKey⟩ := hfound outer houter
      rw [← List.append_assoc] at houterKey
      exact stop_eq_of_keyword_inside houterKey (by simpa using hkey) hlt

end Cut

theorem exists_cut (text : Text) (w : Span) :
    ∃ b t r, within text w = scan w 0 b t ∧ visible text w = scan w r b t ∧
      (∀ a, Exposed text w a ↔ Hidden w r b t a) ∧ ∀ a, Hidden w r b t a → a.stop = r := by
  obtain ⟨o, hs, -⟩ := Text.exists_roundsUp text w.start
  obtain ⟨s, t, rfl, rfl⟩ := hs.place
  obtain ⟨r, hrest⟩ := exists_cut_of_roundsUp hs
  exact ⟨s.reverse, t, r, within_eq_scan_of_roundsUp hs, hrest⟩

theorem within_eq_visible_of_not_exposed (h : ∀ a, ¬ Exposed text w a) :
    within text w = visible text w := by
  obtain ⟨b, t, r, hwithin, hvisible, hexposed, hstop⟩ := exists_cut text w
  simp only [hexposed] at h
  rw [hwithin, hvisible]
  rcases scan_zero_cases hstop with ⟨heq, -⟩ | ⟨first, -, hfirst, -⟩
  · exact heq
  · exact absurd hfirst (h first)

theorem exists_first_of_exposed (h : Exposed text w a) :
    ∃ first, within text w = first :: visible text w ∧ Exposed text w first ∧
      ∀ a, Exposed text w a → first.keywordAt ≤ a.keywordAt := by
  obtain ⟨b, t, r, hwithin, hvisible, hexposed, hstop⟩ := exists_cut text w
  simp only [hexposed] at h ⊢
  rw [hwithin, hvisible]
  rcases scan_zero_cases hstop with ⟨-, hnone⟩ | hsome
  · exact absurd h (hnone a)
  · exact hsome

/-- **A window shows its accessors, and at most one keyword of a cut path in front of them.** There
    is one too many if and only if a path of the text goes over a keyword of the window from in
    front of it, and then it is the first such keyword. -/
theorem within_eq_visible_or_exposed (text : Text) (w : Span) :
    (within text w = visible text w ∧ ∀ a, ¬ Exposed text w a) ∨
      ∃ first, within text w = first :: visible text w ∧ Exposed text w first ∧
        ∀ a, Exposed text w a → first.keywordAt ≤ a.keywordAt := by
  by_cases h : ∃ a, Exposed text w a
  · obtain ⟨a, ha⟩ := h
    exact .inr (exists_first_of_exposed ha)
  · have hnone : ∀ a, ¬ Exposed text w a := fun a ha => h ⟨a, ha⟩
    exact .inl ⟨within_eq_visible_of_not_exposed hnone, hnone⟩

/-- Behind the first dot of `theme.props.theme.x` the window shows `props.theme.x`, while nothing of
    the text begins there. -/
theorem within_eq_visible_or_exposed_behindDot :
    ∃ first, within "theme.props.theme.x".toList ⟨6, 19⟩ = [first] ∧ first.form = .ofProps ∧
      Exposed "theme.props.theme.x".toList ⟨6, 19⟩ first := by
  have hwithin : within "theme.props.theme.x".toList ⟨6, 19⟩ = [⟨6, .ofProps, 18, ['x']⟩] := by
    decide +kernel
  have hvisible : visible "theme.props.theme.x".toList ⟨6, 19⟩ = [] := by decide +kernel
  rcases within_eq_visible_or_exposed "theme.props.theme.x".toList ⟨6, 19⟩ with
    ⟨heq, -⟩ | ⟨first, heq, hexposed, -⟩
  · rw [hwithin, hvisible] at heq
    cases heq
  · rw [hwithin, hvisible] at heq
    cases heq
    exact ⟨_, hwithin, rfl, hexposed⟩

theorem not_forall_within_eq_visible : ¬ ∀ text w, within text w = visible text w := by
  intro h
  have hcut := h "theme.props.theme.x".toList ⟨6, 19⟩
  revert hcut
  decide +kernel

/-- A window that opens with a line cuts no path. -/
theorem within_eq_visible_of_line {above line : Text} {stop : Nat}
    (hlast : ∀ c, above.getLast? = some c → c = '\n') :
    within (above ++ line) ⟨above.size, stop⟩ = visible (above ++ line) ⟨above.size, stop⟩ := by
  refine within_eq_visible_of_not_exposed fun a h => ?_
  obtain ⟨-, hwindow, outer, houter, hbefore, hinside⟩ := h
  have hstart := (Span.contains_iff.mp hwindow).1
  obtain ⟨found, hcut, habove⟩ := scan_line ⟨0, (above ++ line).size⟩ [] above line hlast
  rw [within, hcut] at houter
  rcases List.mem_append.mp houter with houter | houter
  · have := habove outer houter
    simp only [Text.size_nil] at this hstart
    omega
  · have := (occurs_of_mem_scan houter).1.keywordAt_bounds.1
    simp only [Text.size_append, Text.size_reverse] at this hbefore
    omega

end ThemeLens.Accessor
