import Mathlib.Data.List.Pairwise
import ThemeLens.Proofs.Accessor.Derivation
import ThemeLens.Proofs.Accessor.Window

/-!
# The pass as a greedy selection

What the range query answers can be said without the pass and the number it carries. Go through the
places where the name of the theme stands in the window, in the order of the text; whenever there is
an accessor at a place, take it, unless the path taken last goes over the place (`pick`). That is
this file: the pass is this selection (`within_eq_greedy`), and so it never skips a keyword for any
other reason.

The name, and not the keyword with its dot, decides which places are visited, and the window is cut
at the end of the text. Both are looser than what the pass looks at, and neither matters, since a
place with an accessor has the dot and lies in the text.

The selection can also be read off its own result: an accessor is in it exactly when none of the
others, taken in front of it, goes over its keyword (`mem_within_iff`).
-/

namespace ThemeLens

/-- The places of the text that goes on with the argument after `before`, in order. -/
def Text.placesFrom (before : Text) : Text → List Cursor
  | [] => [⟨before, []⟩]
  | c :: t => ⟨before, c :: t⟩ :: placesFrom (c :: before) t

theorem Head.Ends.isPrefix {before outside : Text} {param : Param}
    (h : Ends before outside param) : outside <+: before := by
  cases h with
  | intro _ _ _ _ _ => simp only [List.append_assoc, List.prefix_append]

namespace Accessor

variable {w : Span} {r n : Nat} {b t before text : Text} {a a' : Accessor} {taken : List Accessor}
  {k : Cursor}

/-- Does the name of the theme stand at a place of the window, in a text of `n` bytes? -/
def isNamed (w : Span) (n : Nat) (k : Cursor) : Bool :=
  themeName.isPrefixOf k.after && Span.contains ⟨w.start, min w.stop n⟩ k.offset

/-- Takes the accessor at a place, unless the path taken last goes over the place. -/
def pick (taken : List Accessor) (k : Cursor) : List Accessor :=
  match ofKeyword? k with
  | some a => if ∀ last ∈ taken.getLast?, last.stop ≤ k.offset then taken ++ [a] else taken
  | none => taken

/-- The accessors taken when the places of a window with the name of the theme are gone through in
    text order. -/
def greedy (text : Text) (w : Span) : List Accessor :=
  ((Text.placesFrom [] text).filter (isNamed w text.size)).foldl pick []

/-! ## 1. The selection and the pass -/

/-- Where keywords count again, after these have been taken. -/
def resumeAfter (taken : List Accessor) : Nat := (taken.getLast?.map stop).getD 0

theorem resumeAfter_le_iff :
    resumeAfter taken ≤ n ↔ ∀ last ∈ taken.getLast?, last.stop ≤ n := by
  unfold resumeAfter
  cases taken.getLast? with
  | none => simp
  | some last => simp

theorem resumeAfter_concat (taken : List Accessor) (a : Accessor) :
    resumeAfter (taken ++ [a]) = a.stop := by
  simp [resumeAfter]

theorem isPrefixOf_of_ofKeyword? (h : ofKeyword? k = some a) :
    themeName.isPrefixOf k.after = true := by
  obtain ⟨rest, hafter, -⟩ := ofKeyword?_eq_some_iff.mp h
  rw [hafter, keyword, List.append_assoc, List.isPrefixOf_iff_prefix]
  exact List.prefix_append _ _

/-- **At each place the selection does what the pass does.** -/
theorem pick_eq_append_taken? (hk : k.offset < n) :
    (if isNamed w n k = true then pick taken k else taken) =
      taken ++ (taken? w (resumeAfter taken) k).toList := by
  have hwindow : Span.contains ⟨w.start, min w.stop n⟩ k.offset = w.contains k.offset := by
    simp [Span.contains, hk]
  rw [isNamed, hwindow]
  cases hkey : ofKeyword? k with
  | none => simp [pick, taken?, hkey]
  | some a =>
    rw [isPrefixOf_of_ofKeyword? hkey, Bool.true_and]
    by_cases hin : w.contains k.offset = true
    · simp only [hin, if_true, pick, taken?, hkey, ← resumeAfter_le_iff, Bool.and_true]
      by_cases hresume : resumeAfter taken ≤ k.offset
      · simp [hresume, Option.filter]
      · simp [hresume]
    · simp [taken?, hkey, hin]

/-- The selection goes on as the pass does, whatever has been taken so far. -/
theorem foldl_pick_eq_append_scan (w : Span) (taken : List Accessor) (b t : Text) :
    ((Text.placesFrom b t).filter (isNamed w (b.size + Text.size t))).foldl pick taken =
      taken ++ scan w (resumeAfter taken) b t := by
  rw [List.foldl_filter]
  induction t generalizing taken b with
  | nil => simp [Text.placesFrom, isNamed, themeName, scan]
  | cons c t ih =>
    have hsize : b.size + Text.size (c :: t) = Text.size (c :: b) + Text.size t := by
      simp only [Text.size_cons]
      omega
    have hk : Cursor.offset ⟨b, c :: t⟩ < b.size + Text.size (c :: t) := by
      show b.size < _
      have hpos := c.utf8Size_pos
      rw [Text.size_cons]
      omega
    rw [Text.placesFrom, List.foldl_cons, pick_eq_append_taken? hk, hsize, ih]
    cases htaken : taken? w (resumeAfter taken) ⟨b, c :: t⟩ with
    | none => rw [scan_cons_of_skipped htaken, Option.toList_none, List.append_nil]
    | some a =>
      rw [scan_cons_of_taken htaken, Option.toList_some, resumeAfter_concat, List.append_assoc,
        List.singleton_append]

/-! ## 2. What is taken -/

/-- The accessor lies in the text as its spans say. -/
structure Lies (text : Text) (a : Accessor) : Prop where
  start_isPlace : text.IsPlace a.span.start
  start_le : a.span.start ≤ a.pathSpan.start
  pathStart_isPlace : text.IsPlace a.pathSpan.start
  pathStart_le : a.pathSpan.start ≤ a.pathSpan.stop
  stop_eq : a.pathSpan.stop = a.span.stop
  stop_isPlace : text.IsPlace a.span.stop
  stop_le : a.span.stop ≤ text.size
  slice_path : text.slice? a.pathSpan = some a.path
  slice_keyword : text.slice? ⟨a.keywordAt, a.pathSpan.start⟩ = some keyword

/-- An accessor starts at a place in front of its keyword. -/
theorem Opens.exists_split {start : Nat} {form : Form} (h : Opens before start form) :
    ∃ outside inside, before = outside ++ inside ∧ outside.size = start := by
  cases h with
  | plain _ _ => exact ⟨before, [], (List.append_nil before).symm, rfl⟩
  | destructured _ hhead _ =>
    obtain ⟨inside, hinside⟩ := hhead.isPrefix
    exact ⟨_, inside, hinside.symm, rfl⟩
  | ofProps hbefore _ => exact ⟨_, propsName ++ ['.'], by rw [hbefore, List.append_assoc], rfl⟩
  | @aliased _ _ param hbefore _ _ hhead =>
    obtain ⟨inside, rfl⟩ := hhead.isPrefix
    exact ⟨_, inside ++ (param ++ ['.']), by simp only [hbefore, List.append_assoc], rfl⟩

/-- The text around an accessor: what is in front of it, what it has in front of its keyword, the
    keyword, the path, and the rest. -/
theorem Occurs.exists_parts (h : Occurs [] text a) :
    ∃ outside inside rest, text = outside ++ inside ++ keyword ++ a.path ++ rest ∧
      a.start = outside.size ∧ a.keywordAt = (outside ++ inside).size ∧
      a.pathStart = (outside ++ inside ++ keyword).size := by
  obtain ⟨s, t, rfl, hkey, hat⟩ := h.exists_split
  obtain ⟨after, rfl, hpath, hopen, hstart⟩ := ofKeyword?_eq_some_iff.mp hkey
  obtain ⟨outside, inside, rfl, hsize⟩ := (opening?_eq_some_iff.mp hopen).exists_split
  obtain ⟨rest, hrest⟩ := pathFrom_isPrefix false after
  refine ⟨outside, inside, rest, ?_, hsize.symm, hat, ?_⟩
  · rw [hpath, List.append_assoc _ _ rest, hrest, List.append_assoc _ keyword]
  · rw [hstart, Cursor.offset, Text.size_reverse, ← Text.size_append]

theorem Occurs.lies (h : Occurs [] text a) : Lies text a := by
  obtain ⟨outside, inside, rest, htext, hstart, hkeyword, hpath⟩ := h.exists_parts
  have hstop : text.IsPlace a.stop := by
    refine ⟨outside ++ inside ++ keyword ++ a.path, rest, htext, ?_⟩
    rw [stop, hpath, ← Text.size_append]
  constructor
  case start_isPlace => exact ⟨outside, _, by simpa only [List.append_assoc] using htext, hstart.symm⟩
  case start_le =>
    show a.start ≤ a.pathStart
    rw [hstart, hpath, List.append_assoc, Text.size_append]
    exact Nat.le_add_right _ _
  case pathStart_isPlace => exact ⟨_, a.path ++ rest, by rw [htext, List.append_assoc], hpath.symm⟩
  case pathStart_le => exact Nat.le_add_right _ _
  case stop_eq => rfl
  case stop_isPlace => exact hstop
  case stop_le => exact hstop.le_size
  case slice_path => exact Text.slice?_eq_some_iff.mpr ⟨_, rest, htext, hpath.symm, rfl⟩
  case slice_keyword =>
    apply Text.slice?_eq_some_iff.mpr
    refine ⟨outside ++ inside, a.path ++ rest, by rw [htext, List.append_assoc _ a.path],
      hkeyword.symm, ?_⟩
    rw [hkeyword, ← Text.size_append]
    exact hpath.symm

/-- Of two accessors of a pass, one ends in front of the keyword of the other. -/
theorem stop_le_of_mem_within (ha : a ∈ within text w) (ha' : a' ∈ within text w)
    (hlt : a.keywordAt < a'.keywordAt) : a.stop ≤ a'.keywordAt := by
  have hpair : (within text w).Pairwise fun a a' =>
      a.stop + keyword.size ≤ a'.pathStart ∨ a'.stop + keyword.size ≤ a.pathStart :=
    (scan_pairwise w 0 [] text).imp Or.inl
  have hsymm : Std.Symm fun a a' : Accessor =>
      a.stop + keyword.size ≤ a'.pathStart ∨ a'.stop + keyword.size ≤ a.pathStart :=
    ⟨fun _ _ h => h.symm⟩
  have hne : a ≠ a' := by
    rintro rfl
    exact Nat.lt_irrefl _ hlt
  rcases hpair.forall ha ha' hne with hroom | hroom
  · exact Nat.le_sub_of_add_le hroom
  · -- the other way round the keywords would be, too
    rw [keywordAt, keywordAt] at hlt
    rw [stop] at hroom
    omega

/-- **An accessor is taken unless one taken in front of it goes over its keyword.** -/
theorem mem_within_iff :
    a ∈ within text w ↔ Occurs [] text a ∧ w.contains a.keywordAt = true ∧
      ∀ first ∈ within text w, first.keywordAt < a.keywordAt → first.stop ≤ a.keywordAt := by
  constructor
  · intro h
    obtain ⟨hocc, -, hwindow⟩ := occurs_of_mem_scan h
    exact ⟨hocc, hwindow, fun first hfirst hlt => stop_le_of_mem_within hfirst h hlt⟩
  · intro h
    obtain ⟨hocc, hwindow, hfree⟩ := h
    obtain ⟨s, t, rfl, hkey, hat⟩ := hocc.exists_split
    obtain ⟨found, r, hcut, hfound, hr, -⟩ := scan_append w 0 [] s t
    rw [List.append_nil] at hcut
    have hresume : r ≤ a.keywordAt := by
      rcases hr with rfl | ⟨first, hfirst, rfl⟩
      · exact Nat.zero_le _
      · -- the one taken last in front of the place has its keyword in `s`
        obtain ⟨s₁, s₂, rfl, hne, hfirstKey⟩ := hfound first hfirst
        apply hfree first
        · rw [within, hcut]
          exact List.mem_append_left _ hfirst
        · rw [keywordAt_of_ofKeyword? hfirstKey, hat]
          have hpos := mt Text.size_eq_zero_iff.mp hne
          simp only [Cursor.offset, List.append_nil, Text.size_reverse, Text.size_append]
          omega
    rw [within, hcut]
    apply List.mem_append_right
    have htaken : taken? w r ⟨s.reverse, t⟩ = some a := by
      rw [hat, ← Text.size_reverse] at hresume hwindow
      exact taken?_eq_some_iff.mpr ⟨hkey, hresume, hwindow⟩
    exact (mem_scan_here_iff (pathStart_of_ofKeyword? hkey)).mpr htaken

/-- **The range query is the greedy selection of the accessors of its window**, whatever the text
    and the bounds of the window. Each of them lies in the text as its spans say, and the paths are
    apart, in text order. -/
theorem within_eq_greedy (text : Text) (w : Span) :
    within text w = greedy text w ∧ (∀ a ∈ within text w, Lies text a) ∧
      (within text w).Pairwise fun a a' => a.pathSpan.stop < a'.pathSpan.start := by
  refine ⟨?_, ?_, ?_⟩
  · have hpass := foldl_pick_eq_append_scan w [] [] text
    rw [Text.size_nil, Nat.zero_add] at hpass
    exact hpass.symm
  · intro a ha
    exact (occurs_of_mem_scan ha).1.lies
  · refine (scan_pairwise w 0 [] text).imp ?_
    intro a a' hroom
    have hpos := keyword_size_pos
    show a.stop < a'.pathStart
    omega

/-- In `é theme.a.theme.b theme.c`, with a window that begins inside the first character and goes on
    behind the text, two accessors are taken. The name inside the first path is passed over. -/
theorem within_eq_greedy_wideChar :
    let text : Text := "é theme.a.theme.b theme.c".toList
    let first : Accessor := ⟨3, .plain, 9, "a.theme.b".toList⟩
    let second : Accessor := ⟨19, .plain, 25, ['c']⟩
    within text ⟨1, 100⟩ = [first, second] ∧ Lies text first ∧ Lies text second ∧
      first.pathSpan.stop < second.pathSpan.start := by
  intro text first second
  obtain ⟨hgreedy, hlies, hapart⟩ := within_eq_greedy text ⟨1, 100⟩
  have htaken : greedy text ⟨1, 100⟩ = [first, second] := by decide +kernel
  rw [hgreedy, htaken] at hlies hapart
  refine ⟨hgreedy.trans htaken, hlies first ?_, hlies second ?_, ?_⟩
  · exact List.mem_cons_self
  · exact List.mem_cons_of_mem _ List.mem_cons_self
  · exact List.rel_of_pairwise_cons hapart List.mem_cons_self

end Accessor

end ThemeLens
