import ThemeLens.Accessor.Query
import ThemeLens.Proofs.Accessor.Path
import ThemeLens.Proofs.Text.Place

/-!
# One pass over a text

The pass over a text carries one number, the offset from which a keyword counts again, and at
each place it either takes the accessor there or steps over one character. Everything known about
its result comes from that one step (`taken?`): what it takes really is an accessor of the text
(`exists_keyword_of_mem_scan`), it takes them in order and never one inside another
(`scan_pairwise`), and it can be cut at any place into two passes that know of each other only
that number (`scan_append`).

The rest says what the pass does not depend on. A number that is already behind the place changes
nothing, nor does a window that ends beyond what is asked for. What follows a keyword decides the
path behind it and nothing else (`mem_scan_of_keyword`), and no path goes on to another line, so
each line is read afresh (`scan_line`). This is how a pass over a part of a text, or over an edited
text, is compared with a pass over all of it: cut, drop the part before, and compare the two from
the same place on.
-/

namespace ThemeLens.Accessor

variable {w w' : Span} {r r' : Nat} {b s t : Text} {c : Char} {a : Accessor}

/-! ## 1. One step -/

/-- The accessor that the pass takes at a place, if it takes one there. -/
def taken? (w : Span) (r : Nat) (k : Cursor) : Option Accessor :=
  (ofKeyword? k).filter fun _ => decide (r ≤ k.offset) && w.contains k.offset

theorem taken?_eq_some_iff {k : Cursor} :
    taken? w r k = some a ↔ ofKeyword? k = some a ∧ r ≤ k.offset ∧ w.contains k.offset = true := by
  unfold taken?
  rw [Option.filter_eq_some_iff]
  simp

theorem scan_cons_of_taken (h : taken? w r ⟨b, c :: t⟩ = some a) :
    scan w r b (c :: t) = a :: scan w a.stop (c :: b) t := by
  unfold taken? at h
  rw [scan, h]

theorem scan_cons_of_skipped (h : taken? w r ⟨b, c :: t⟩ = none) :
    scan w r b (c :: t) = scan w r (c :: b) t := by
  unfold taken? at h
  rw [scan, h]

theorem pathStart_of_ofKeyword? {k : Cursor} (h : ofKeyword? k = some a) :
    a.pathStart = k.offset + keyword.size := by
  obtain ⟨_, _, _, _, hstart⟩ := ofKeyword?_eq_some_iff.mp h
  exact hstart

theorem lt_stop_of_taken (h : taken? w r ⟨b, t⟩ = some a) :
    r < a.stop ∧ b.size + keyword.size ≤ a.stop := by
  obtain ⟨hkey, hr, -⟩ := taken?_eq_some_iff.mp h
  have hstart := pathStart_of_ofKeyword? hkey
  have hpos := keyword_size_pos
  simp only [Cursor.offset] at hstart hr
  rw [stop]
  omega

/-! ## 2. What a pass takes -/

/-- An accessor of the result is the accessor of a keyword of the text, in the window and not
    skipped. -/
theorem exists_keyword_of_mem_scan (h : a ∈ scan w r b t) :
    ∃ s t' : Text, t = s ++ t' ∧ ofKeyword? ⟨s.reverse ++ b, t'⟩ = some a ∧
      r ≤ b.size + s.size ∧ w.contains (b.size + s.size) = true := by
  induction t generalizing r b with
  | nil => cases h
  | cons c t ih =>
    -- whatever happens at this place, the rest of the pass starts one character further on
    have hlater {r' : Nat} (hr : r ≤ r') (h' : a ∈ scan w r' (c :: b) t) :
        ∃ s t' : Text, c :: t = s ++ t' ∧ ofKeyword? ⟨s.reverse ++ b, t'⟩ = some a ∧
          r ≤ b.size + s.size ∧ w.contains (b.size + s.size) = true := by
      obtain ⟨s, t', rfl, hkey, hresume, hwindow⟩ := ih h'
      have hsize : Text.size (c :: b) + s.size = b.size + Text.size (c :: s) := by
        simp only [Text.size_cons]
        omega
      rw [hsize] at hresume hwindow
      exact ⟨c :: s, t', rfl, by simpa using hkey, Nat.le_trans hr hresume, hwindow⟩
    cases htaken : taken? w r ⟨b, c :: t⟩ with
    | none =>
      rw [scan_cons_of_skipped htaken] at h
      exact hlater (Nat.le_refl r) h
    | some first =>
      rw [scan_cons_of_taken htaken] at h
      rcases List.mem_cons.mp h with rfl | h
      · obtain ⟨hkey, hr, hwindow⟩ := taken?_eq_some_iff.mp htaken
        exact ⟨[], c :: t, rfl, hkey, hr, hwindow⟩
      · exact hlater (Nat.le_of_lt (lt_stop_of_taken htaken).1) h

theorem le_pathStart_of_mem_scan (h : a ∈ scan w r b t) :
    r + keyword.size ≤ a.pathStart ∧ b.size + keyword.size ≤ a.pathStart := by
  obtain ⟨s, t', -, hkey, hr, -⟩ := exists_keyword_of_mem_scan h
  have hstart := pathStart_of_ofKeyword? hkey
  simp only [Cursor.offset, Text.size_append, Text.size_reverse] at hstart
  omega

/-- **A pass takes accessors in order**, and there is room for a keyword between two of them. -/
theorem scan_pairwise (w : Span) (r : Nat) (b t : Text) :
    (scan w r b t).Pairwise fun a a' => a.stop + keyword.size ≤ a'.pathStart := by
  induction t generalizing r b with
  | nil => exact .nil
  | cons c t ih =>
    cases htaken : taken? w r ⟨b, c :: t⟩ with
    | none =>
      rw [scan_cons_of_skipped htaken]
      exact ih r (c :: b)
    | some first =>
      rw [scan_cons_of_taken htaken]
      exact .cons (fun a' ha' => (le_pathStart_of_mem_scan ha').1) (ih first.stop (c :: b))

/-! ## 3. Cutting a pass -/

/-- **A pass over `s ++ t` is a pass over each part.** The first leaves behind where keywords count
    again, and what it takes are accessors of keywords that begin in `s`, read in the whole text:
    their paths may go on into `t`. -/
theorem scan_append (w : Span) (r : Nat) (b s t : Text) :
    ∃ found r', scan w r b (s ++ t) = found ++ scan w r' (s.reverse ++ b) t ∧
      (∀ a ∈ found, ∃ s₁ s₂, s = s₁ ++ s₂ ∧ s₂ ≠ [] ∧
        ofKeyword? ⟨s₁.reverse ++ b, s₂ ++ t⟩ = some a) ∧
      (r' = r ∨ ∃ a ∈ found, r' = a.stop) ∧ r ≤ r' ∧ ∀ a ∈ found, a.stop ≤ r' := by
  induction s generalizing r b with
  | nil =>
    refine ⟨[], r, rfl, ?_, .inl rfl, Nat.le_refl r, ?_⟩
    · intro a ha
      cases ha
    · intro a ha
      cases ha
  | cons c s ih =>
    have hlater {found : List Accessor}
        (h : ∀ a ∈ found, ∃ s₁ s₂, s = s₁ ++ s₂ ∧ s₂ ≠ [] ∧
          ofKeyword? ⟨s₁.reverse ++ c :: b, s₂ ++ t⟩ = some a) :
        ∀ a ∈ found, ∃ s₁ s₂, c :: s = s₁ ++ s₂ ∧ s₂ ≠ [] ∧
          ofKeyword? ⟨s₁.reverse ++ b, s₂ ++ t⟩ = some a := by
      intro a ha
      obtain ⟨s₁, s₂, rfl, hne, hkey⟩ := h a ha
      exact ⟨c :: s₁, s₂, rfl, hne, by simpa using hkey⟩
    cases htaken : taken? w r ⟨b, c :: (s ++ t)⟩ with
    | none =>
      obtain ⟨found, r', heq, hfound, hr', hbounds⟩ := ih r (c :: b)
      refine ⟨found, r', ?_, hlater hfound, hr', hbounds⟩
      rw [List.cons_append, scan_cons_of_skipped htaken, heq, List.reverse_cons, List.append_assoc]
      rfl
    | some first =>
      obtain ⟨found, r', heq, hfound, hr', hle, hstops⟩ := ih first.stop (c :: b)
      have hgrows := (lt_stop_of_taken htaken).1
      refine ⟨first :: found, r', ?_, ?_, .inr ?_, by omega, List.forall_mem_cons.mpr ⟨hle, hstops⟩⟩
      · rw [List.cons_append, scan_cons_of_taken htaken, heq, List.reverse_cons, List.append_assoc]
        rfl
      · intro a ha
        rcases List.mem_cons.mp ha with rfl | ha
        · exact ⟨[], c :: s, rfl, by simp, (taken?_eq_some_iff.mp htaken).1⟩
        · exact hlater hfound a ha
      · rcases hr' with rfl | ⟨a, ha, rfl⟩
        · exact ⟨first, List.mem_cons_self, rfl⟩
        · exact ⟨a, List.mem_cons_of_mem _ ha, rfl⟩

/-- In front of its window a pass only walks. -/
theorem scan_before_window (h : b.size + s.size ≤ w.start) :
    scan w r b (s ++ t) = scan w r (s.reverse ++ b) t := by
  induction s generalizing b with
  | nil => rfl
  | cons c s ih =>
    rw [Text.size_cons] at h
    have hpos := c.utf8Size_pos
    have hskip : taken? w r ⟨b, c :: (s ++ t)⟩ = none := by
      rw [Option.eq_none_iff_forall_ne_some]
      intro a ha
      have hin := Span.contains_iff.mp (taken?_eq_some_iff.mp ha).2.2
      simp only [Cursor.offset] at hin
      omega
    rw [List.cons_append, scan_cons_of_skipped hskip, ih (by rw [Text.size_cons]; omega)]
    simp

/-! ## 4. What a pass does not depend on -/

/-- It does not matter from where keywords count again once the pass is beyond it. -/
theorem scan_resume (h : r ≤ b.size) (h' : r' ≤ b.size) : scan w r b t = scan w r' b t := by
  induction t generalizing b with
  | nil => rfl
  | cons c t ih =>
    have hstep : taken? w r ⟨b, c :: t⟩ = taken? w r' ⟨b, c :: t⟩ := by
      simp only [taken?, Cursor.offset, h, h']
    cases htaken : taken? w r ⟨b, c :: t⟩ with
    | none =>
      rw [scan_cons_of_skipped htaken, scan_cons_of_skipped (hstep ▸ htaken)]
      exact ih (Nat.le_trans h (Nat.le_add_left _ _)) (Nat.le_trans h' (Nat.le_add_left _ _))
    | some first => rw [scan_cons_of_taken htaken, scan_cons_of_taken (hstep ▸ htaken)]

/-- Two windows that are both open agree on all accessors that begin before either closes. -/
theorem filter_scan_window {p : Accessor → Bool} (hw : w.start ≤ b.size) (hw' : w'.start ≤ b.size)
    (hp : ∀ a, p a = true → a.pathStart < w.stop + keyword.size ∧
      a.pathStart < w'.stop + keyword.size) :
    (scan w r b t).filter p = (scan w' r b t).filter p := by
  induction t generalizing r b with
  | nil => rfl
  | cons c t ih =>
    by_cases hopen : b.size < w.stop ∧ b.size < w'.stop
    · have hstep : taken? w r ⟨b, c :: t⟩ = taken? w' r ⟨b, c :: t⟩ := by
        simp only [taken?, Span.contains, Cursor.offset, hw, hw', hopen.1, hopen.2]
      have hnext (r : Nat) := ih (r := r) (b := c :: b) (Nat.le_trans hw (Nat.le_add_left _ _))
        (Nat.le_trans hw' (Nat.le_add_left _ _))
      cases htaken : taken? w r ⟨b, c :: t⟩ with
      | none => rw [scan_cons_of_skipped htaken, scan_cons_of_skipped (hstep ▸ htaken), hnext]
      | some first =>
        rw [scan_cons_of_taken htaken, scan_cons_of_taken (hstep ▸ htaken), List.filter_cons,
          List.filter_cons, hnext]
    · -- one window is closed, so nothing that either pass still takes has `p`
      have hnone (v : Span) : (scan v r b (c :: t)).filter p = [] := by
        rw [List.filter_eq_nil_iff]
        intro a ha hpa
        have hstart := (le_pathStart_of_mem_scan ha).2
        have := hp a hpa
        omega
      rw [hnone, hnone]

/-! ## 5. What follows a keyword -/

/-- Where a path stops inside a text it stops whatever follows the text. -/
theorem pathFrom_append_of_lt {afterIdent : Bool} (t' : Text)
    (h : (pathFrom afterIdent (s ++ t)).size < s.size) :
    pathFrom afterIdent (s ++ t') = pathFrom afterIdent (s ++ t) := by
  induction s generalizing afterIdent with
  | nil =>
    rw [Text.size_nil] at h
    omega
  | cons c s ih =>
    by_cases hc : isIdent c = true ∨ c = '.' ∧ afterIdent = true
    · rw [List.cons_append, pathFrom_cons_of_reads _ hc, Text.size_cons, Text.size_cons] at h
      rw [List.cons_append, List.cons_append, pathFrom_cons_of_reads _ hc,
        pathFrom_cons_of_reads _ hc, ih (by omega)]
    · rw [List.cons_append, List.cons_append, pathFrom_cons_of_stops _ hc,
        pathFrom_cons_of_stops _ hc]

/-- A keyword at the front of what ends in another keyword does not reach beyond that. -/
theorem exists_strip_keyword {rest : Text} (h : s ++ keyword ++ t = keyword ++ rest) :
    ∃ s', rest = s' ++ t ∧ s'.size = s.size ∧ s ++ keyword = keyword ++ s' := by
  obtain ⟨s', hs', hrest⟩ := Text.exists_between h.symm (by rw [Text.size_append]; omega)
  have hsize := congrArg Text.size hs'
  rw [Text.size_append, Text.size_append] at hsize
  exact ⟨s', hrest, by omega, hs'⟩

/-- A place at which the pass takes nothing stays one, whatever follows a later keyword. -/
theorem taken?_eq_none_of_keyword (t' : Text) (hw : w'.contains b.size = w.contains b.size)
    (h : taken? w r ⟨b, s ++ keyword ++ t⟩ = none) :
    taken? w' r ⟨b, s ++ keyword ++ t'⟩ = none := by
  rw [Option.eq_none_iff_forall_ne_some] at h ⊢
  intro a ha
  obtain ⟨hkey, hresume, hwindow⟩ := taken?_eq_some_iff.mp ha
  obtain ⟨rest, hafter, -, hopen, hstart⟩ := ofKeyword?_eq_some_iff.mp hkey
  obtain ⟨s', -, -, hs'⟩ := exists_strip_keyword hafter
  refine h { a with path := pathFrom false (s' ++ t) }
    (taken?_eq_some_iff.mpr ⟨ofKeyword?_eq_some_iff.mpr ?_, hresume, hw ▸ hwindow⟩)
  exact ⟨s' ++ t, by rw [hs', List.append_assoc], rfl, hopen, hstart⟩

/-- So does an accessor that the pass takes, if it ends in front of the later keyword. -/
theorem taken?_eq_some_of_keyword (t' : Text) (hw : w'.contains b.size = w.contains b.size)
    (h : taken? w r ⟨b, s ++ keyword ++ t⟩ = some a) (hstop : a.stop ≤ b.size + s.size) :
    taken? w' r ⟨b, s ++ keyword ++ t'⟩ = some a := by
  obtain ⟨hkey, hresume, hwindow⟩ := taken?_eq_some_iff.mp h
  obtain ⟨rest, hafter, hpath, hopen, hstart⟩ := ofKeyword?_eq_some_iff.mp hkey
  obtain ⟨s', rfl, hsize, hs'⟩ := exists_strip_keyword hafter
  refine taken?_eq_some_iff.mpr ⟨ofKeyword?_eq_some_iff.mpr ?_, hresume, hw.trans hwindow⟩
  refine ⟨s' ++ t', by rw [hs', List.append_assoc], ?_, hopen, hstart⟩
  -- the path stops before what follows the first keyword reaches the later one
  have hpos := keyword_size_pos
  simp only [Cursor.offset] at hstart
  rw [stop] at hstop
  rw [pathFrom_append_of_lt t' (t := t), hpath]
  rw [← hpath, hsize]
  omega

/-- Whether the keyword at a place is taken is decided there. -/
theorem mem_scan_here_iff (hstart : a.pathStart = b.size + keyword.size) :
    a ∈ scan w r b t ↔ taken? w r ⟨b, t⟩ = some a := by
  cases t with
  | nil =>
    refine ⟨fun h => (by cases h), fun h => ?_⟩
    obtain ⟨rest, hafter, -⟩ := ofKeyword?_eq_some_iff.mp (taken?_eq_some_iff.mp h).1
    cases hafter
  | cons c t =>
    have hlater (r' : Nat) : a ∉ scan w r' (c :: b) t := by
      intro hmem
      have hle := (le_pathStart_of_mem_scan hmem).2
      have hc := c.utf8Size_pos
      rw [Text.size_cons] at hle
      omega
    cases htaken : taken? w r ⟨b, c :: t⟩ with
    | none =>
      rw [scan_cons_of_skipped htaken]
      exact ⟨fun h => absurd h (hlater r), fun h => (by cases h)⟩
    | some first =>
      rw [scan_cons_of_taken htaken, List.mem_cons]
      constructor
      · intro h
        rcases h with rfl | h
        · rfl
        · exact absurd h (hlater first.stop)
      · intro h
        cases h
        exact .inl rfl

/-- **What a pass takes at a keyword, it takes whatever follows the keyword**; only the path is read
    anew. The pass goes from keyword to keyword, and each earlier one it skips or takes in both
    texts alike: an accessor that ended beyond the later keyword would have hidden it. -/
theorem mem_scan_of_keyword (t' : Text)
    (hw : ∀ o, o ≤ b.size + s.size → w'.contains o = w.contains o)
    (h : a ∈ scan w r b (s ++ keyword ++ t))
    (hstart : a.pathStart = b.size + s.size + keyword.size) :
    { a with path := pathFrom false t' } ∈ scan w' r b (s ++ keyword ++ t') := by
  have hhere := hw b.size (Nat.le_add_right _ _)
  induction s generalizing r b with
  | nil =>
    rw [Text.size_nil, Nat.add_zero] at hstart
    obtain ⟨hkey, hresume, hwindow⟩ := taken?_eq_some_iff.mp ((mem_scan_here_iff hstart).mp h)
    obtain ⟨_, _, _, hopen, hat⟩ := ofKeyword?_eq_some_iff.mp hkey
    have hkey' : ofKeyword? ⟨b, keyword ++ t'⟩ = some { a with path := pathFrom false t' } :=
      ofKeyword?_eq_some_iff.mpr ⟨t', rfl, rfl, hopen, hat⟩
    have htaken' := taken?_eq_some_iff.mpr ⟨hkey', hresume, hhere.trans hwindow⟩
    exact (mem_scan_here_iff (by exact hstart)).mpr htaken'
  | cons c s ih =>
    have hc := c.utf8Size_pos
    have hsize : b.size + Text.size (c :: s) = Text.size (c :: b) + Text.size s := by
      simp only [Text.size_cons]
      omega
    rw [hsize] at hw hstart
    have hnext := hw (Text.size (c :: b)) (Nat.le_add_right _ _)
    cases htaken : taken? w r ⟨b, c :: s ++ keyword ++ t⟩ with
    | none =>
      have hskip := taken?_eq_none_of_keyword t' hhere htaken
      rw [List.cons_append, List.cons_append] at h htaken hskip ⊢
      rw [scan_cons_of_skipped htaken] at h
      rw [scan_cons_of_skipped hskip]
      exact ih hw h hstart hnext
    | some first =>
      have hfirst := pathStart_of_ofKeyword? (taken?_eq_some_iff.mp htaken).1
      have hkept := taken?_eq_some_of_keyword t' hhere htaken
      rw [List.cons_append, List.cons_append] at h htaken hkept ⊢
      rw [scan_cons_of_taken htaken] at h
      rcases List.mem_cons.mp h with rfl | h
      · -- the accessor at the first character is not the one at the keyword behind it
        simp only [Cursor.offset] at hfirst
        rw [Text.size_cons] at hstart
        omega
      · -- what is taken first ends in front of the keyword, or the keyword would be skipped
        have hroom := (le_pathStart_of_mem_scan h).1
        rw [scan_cons_of_taken (hkept (by omega))]
        exact List.mem_cons_of_mem _ (ih hw h hstart hnext)

/-! ## 6. Lines -/

theorem isRun_of_mem_pathFrom {afterIdent : Bool} (h : c ∈ pathFrom afterIdent t) :
    isRun c = true := by
  induction t generalizing afterIdent with
  | nil => cases h
  | cons d t ih =>
    rw [pathFrom] at h
    split at h
    · rename_i hident
      rcases List.mem_cons.mp h with rfl | h
      · rw [isRun, hident, Bool.true_or]
      · exact ih h
    · split at h
      · rename_i hdot
        rcases List.mem_cons.mp h with rfl | h
        · rw [isRun, (Bool.and_eq_true_iff.mp hdot).1, Bool.or_true]
        · exact ih h
      · cases h

theorem isPrefix_of_notMem {p : Text} (h : p <+: s ++ c :: t) (hc : c ∉ p) : p <+: s := by
  obtain ⟨rest, hrest⟩ := h
  rcases List.append_eq_append_iff.mp hrest with ⟨m, hs, -⟩ | ⟨m, hp, ht⟩
  · exact ⟨m, hs.symm⟩
  · cases m with
    | nil => exact ⟨[], by rw [hp, List.append_nil, List.append_nil]⟩
    | cons d m =>
      obtain ⟨rfl, -⟩ := List.cons_eq_cons.mp ht
      exact absurd (hp ▸ List.mem_append_right s List.mem_cons_self) hc

/-- **An accessor ends on the line of its keyword.** -/
theorem stop_le_of_lineFeed (h : ofKeyword? ⟨b, s ++ '\n' :: t⟩ = some a) :
    a.stop ≤ b.size + s.size := by
  obtain ⟨rest, hafter, hpath, -, hstart⟩ := ofKeyword?_eq_some_iff.mp h
  have hfeed : '\n' ∉ keyword ++ a.path := by
    rw [List.mem_append, not_or]
    refine ⟨by decide, fun hmem => ?_⟩
    rw [hpath] at hmem
    exact absurd (isRun_of_mem_pathFrom hmem) (by decide)
  have hread : keyword ++ a.path <+: s ++ '\n' :: t := by
    rw [show s ++ '\n' :: t = keyword ++ rest from hafter, hpath]
    exact (List.prefix_append_right_inj keyword).mpr (pathFrom_isPrefix false rest)
  obtain ⟨m, hm⟩ := isPrefix_of_notMem hread hfeed
  have hsize := congrArg Text.size hm
  simp only [Text.size_append] at hsize
  simp only [Cursor.offset] at hstart
  rw [stop]
  omega

/-- **A pass starts afresh with each line.** What it takes above the line ends above it. -/
theorem scan_line (w : Span) (b above t : Text)
    (hlast : ∀ c, above.getLast? = some c → c = '\n') :
    ∃ found, scan w 0 b (above ++ t) = found ++ scan w 0 (above.reverse ++ b) t ∧
      ∀ a ∈ found, a.stop < b.size + above.size := by
  obtain ⟨found, r, hcut, hfound, hr, -⟩ := scan_append w 0 b above t
  have hstop : ∀ a ∈ found, a.stop < b.size + above.size := by
    intro a ha
    obtain ⟨s₁, s₂, rfl, hne, hkey⟩ := hfound a ha
    -- the last character behind the keyword is the line feed that ends the lines above
    rcases List.eq_nil_or_concat s₂ with rfl | ⟨s, c, rfl⟩
    · exact absurd rfl hne
    rw [List.concat_eq_append] at hlast hkey ⊢
    obtain rfl : c = '\n' := by
      apply hlast
      rw [← List.append_assoc, List.getLast?_concat]
    rw [List.append_assoc] at hkey
    have hle := stop_le_of_lineFeed hkey
    have hpos : 0 < Text.size ['\n'] := by decide
    simp only [Text.size_append, Text.size_reverse] at hle ⊢
    omega
  have hr' : r ≤ Text.size (above.reverse ++ b) := by
    rw [Text.size_append, Text.size_reverse, Nat.add_comm]
    rcases hr with rfl | ⟨a, ha, rfl⟩
    · exact Nat.zero_le _
    · exact Nat.le_of_lt (hstop a ha)
  refine ⟨found, ?_, hstop⟩
  rw [hcut, scan_resume hr' (Nat.zero_le _)]

end ThemeLens.Accessor
