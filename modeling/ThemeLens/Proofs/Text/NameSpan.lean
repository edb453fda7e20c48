import ThemeLens.Proofs.Accessor.Path
import ThemeLens.Proofs.Text.Around

/-!
# One name for all its places

The dotted name at a place is read outwards from the place, and dots at the ends of what was read are
taken off again. Which name it is does not depend on where in it the reading began. This file says why:
the name is a span of the text that can be described without the place (`IsNameAround`), made of
identifiers and dots, with an identifier at both ends, and with nothing but dots in the way of a longer
one. The place only has to touch it.

So the reading finds a span exactly when there is one like that, and it finds the same one from every
offset that touches it (`nameSpan?_eq_some_iff_isNameAround`).
-/

namespace ThemeLens

namespace Text

variable {t name more rest front dots back : Text} {o : Nat} {s : Span}

/-- Identifiers with dots between them, at least one. Several dots may stand together. -/
structure IsDotted (name : Text) : Prop where
  run : ∀ c ∈ name, isRun c = true
  starts : ∃ c, name.head? = some c ∧ isIdent c = true
  ends : ∃ c, name.getLast? = some c ∧ isIdent c = true

/-- The span of a dotted name that `o` is in, or at one of its ends, and that no run of identifier
    characters and dots continues as far as another identifier. -/
structure IsNameAround (t : Text) (o : Nat) (s : Span) : Prop where
  dotted : ∃ name, t.slice? s = some name ∧ IsDotted name
  touches : s.touches o = true
  left : ∀ start more, t.slice? ⟨start, s.start⟩ = some more → (∀ c ∈ more, isRun c = true) →
    ∀ c, more.head? = some c → isIdent c = false
  right : ∀ stop more, t.slice? ⟨s.stop, stop⟩ = some more → (∀ c ∈ more, isRun c = true) →
    ∀ c, more.getLast? = some c → isIdent c = false

/-- The span of the dotted name at an offset. -/
def nameSpan? (t : Text) (offset : Nat) : Option Span := (t.seek offset).dottedRun?.map Excerpt.span

/-! ## 1. Dots in the way -/

theorem isIdent_eq_false_iff {c : Char} (hrun : isRun c = true) : isIdent c = false ↔ c = '.' := by
  constructor
  · intro hident
    rw [isRun, hident, Bool.false_or] at hrun
    exact beq_iff_eq.mp hrun
  · rintro rfl
    exact Accessor.isIdent_dot

/-- A run that begins where dots do ends with them. -/
theorem eq_dot_of_run (h : dots ++ back = more ++ rest) (hdots : ∀ c ∈ dots, c = '.')
    (hback : ∀ c, back.head? = some c → isRun c = false) (hmore : ∀ c ∈ more, isRun c = true) :
    ∀ c ∈ more, c = '.' := by
  rcases List.append_eq_append_iff.mp h with ⟨beyond, rfl, hrest⟩ | ⟨dots', rfl, -⟩
  · -- what is left of the run would begin what is behind the dots
    cases beyond with
    | nil =>
      rw [List.append_nil]
      exact hdots
    | cons c beyond =>
      have hc := hback c (by rw [hrest]; rfl)
      rw [hmore c (List.mem_append_right _ List.mem_cons_self)] at hc
      cases hc
  · intro c hc
    exact hdots c (List.mem_append_left _ hc)

theorem IsDottedName.isNameAround {e : Excerpt} (h : t.IsDottedName o e) :
    IsNameAround t o e.span := by
  obtain ⟨⟨front, dots, dots', back, rfl, hstart, hrun, hdots, hfront, hback⟩, hne, hhead, hlast,
    htouches⟩ := h
  have hname : ∀ c ∈ e.text, isRun c = true := by
    intro c hc
    exact hrun c (List.mem_append_left _ (List.mem_append_right _ hc))
  refine ⟨⟨e.text, ?_, hname, ?_, ?_⟩, htouches, ?_, ?_⟩
  · exact slice?_eq_some_iff.mpr ⟨front ++ dots, dots' ++ back, rfl, hstart, rfl⟩
  · refine ⟨e.text.head hne, List.head?_eq_some_head hne, ?_⟩
    rw [← Bool.not_eq_false, isIdent_eq_false_iff (hname _ (List.head_mem hne))]
    intro hdot
    exact hhead (by rw [List.head?_eq_some_head hne, hdot])
  · refine ⟨e.text.getLast hne, List.getLast?_eq_some_getLast hne, ?_⟩
    rw [← Bool.not_eq_false, isIdent_eq_false_iff (hname _ (List.getLast_mem hne))]
    intro hdot
    exact hlast (by rw [List.getLast?_eq_some_getLast hne, hdot])
  · intro start more hslice hmore c hc
    obtain ⟨a, a', htext, hsize, hstop⟩ := slice?_eq_some_iff.mp hslice
    have hbefore : front ++ dots = a ++ more := by
      rw [List.append_assoc] at htext
      refine (append_inj_of_size htext ?_).1
      rw [hstart, size_append, hsize]
      exact hstop.symm
    have hreverse := congrArg List.reverse hbefore
    rw [List.reverse_append, List.reverse_append] at hreverse
    have hdot := eq_dot_of_run hreverse
      (fun c hc => hdots c (List.mem_append_left _ (List.mem_reverse.mp hc)))
      (fun c hc => hfront c (by rwa [List.head?_reverse] at hc))
      (fun c hc => hmore c (List.mem_reverse.mp hc))
      c (List.mem_reverse.mpr (List.mem_of_mem_head? hc))
    rw [hdot]
    exact Accessor.isIdent_dot
  · intro stop more hslice hmore c hc
    obtain ⟨a, a', htext, hsize, -⟩ := slice?_eq_some_iff.mp hslice
    have hafter : dots' ++ back = more ++ a' := by
      rw [List.append_assoc a] at htext
      refine (append_inj_of_size htext ?_).2
      rw [hsize, size_append, hstart]
      rfl
    have hdot := eq_dot_of_run hafter (fun c hc => hdots c (List.mem_append_right _ hc)) hback hmore
      c (List.mem_of_mem_getLast? hc)
    rw [hdot]
    exact Accessor.isIdent_dot

/-- The run that a text begins with goes as far as it can. -/
theorem exists_run_start (t : Text) : ∃ run back, t = run ++ back ∧ (∀ c ∈ run, isRun c = true) ∧
    ∀ c, back.head? = some c → isRun c = false :=
  ⟨t.takeWhile isRun, t.dropWhile isRun, List.takeWhile_append_dropWhile.symm,
    fun _ => List.mem_takeWhile_imp, head?_dropWhile isRun t⟩

theorem exists_run_end (t : Text) : ∃ front run, t = front ++ run ∧ (∀ c ∈ run, isRun c = true) ∧
    ∀ c, front.getLast? = some c → isRun c = false := by
  obtain ⟨run, back, ht, hrun, hback⟩ := exists_run_start t.reverse
  refine ⟨back.reverse, run.reverse, ?_, fun c hc => hrun c (List.mem_reverse.mp hc), ?_⟩
  · rw [← List.reverse_append, ← ht, List.reverse_reverse]
  · intro c hc
    rw [List.getLast?_reverse] at hc
    exact hback c hc

theorem IsDotted.ne_dot (h : IsDotted name) :
    name ≠ [] ∧ name.head? ≠ some '.' ∧ name.getLast? ≠ some '.' := by
  obtain ⟨-, ⟨c, hc, hident⟩, ⟨d, hd, hident'⟩⟩ := h
  refine ⟨?_, ?_, ?_⟩
  · rintro rfl
    cases hc
  · rw [hc]
    rintro ⟨⟩
    exact absurd hident (by decide)
  · rw [hd]
    rintro ⟨⟩
    exact absurd hident' (by decide)

theorem IsNameAround.exists_isDottedName (h : IsNameAround t o s) :
    ∃ e, t.IsDottedName o e ∧ e.span = s := by
  obtain ⟨⟨name, hslice, hname⟩, htouches, hleft, hright⟩ := h
  obtain ⟨start, stop⟩ := s
  obtain ⟨a, b, htext, hstart, rfl⟩ := slice?_eq_some_iff.mp hslice
  obtain ⟨front, dots, rfl, hrun, hfront⟩ := exists_run_end a
  obtain ⟨dots', back, rfl, hrun', hback⟩ := exists_run_start b
  -- an identifier among the dots would be the far end of a longer name
  have hdots : ∀ c ∈ dots, c = '.' := by
    intro c hc
    obtain ⟨far, near, rfl⟩ := List.append_of_mem hc
    have hmore : ∀ d ∈ c :: near, isRun d = true := fun d hd =>
      hrun d (List.mem_append_right _ hd)
    have hcut : t.slice? ⟨Text.size (front ++ far), start⟩ = some (c :: near) := by
      refine slice?_eq_some_iff.mpr ⟨front ++ far, name ++ (dots' ++ back), ?_, rfl, ?_⟩
      · rw [htext]
        simp
      · rw [← hstart, ← size_append, List.append_assoc]
    exact (isIdent_eq_false_iff (hrun c hc)).mp (hleft _ _ hcut hmore c rfl)
  have hdots' : ∀ c ∈ dots', c = '.' := by
    intro c hc
    obtain ⟨near, far, rfl⟩ := List.append_of_mem hc
    have hmore : ∀ d ∈ near ++ [c], isRun d = true := by
      intro d hd
      refine hrun' d ?_
      rw [List.append_cons]
      exact List.mem_append_left _ hd
    have hcut : t.slice? ⟨start + name.size, start + name.size + Text.size (near ++ [c])⟩ =
        some (near ++ [c]) := by
      refine slice?_eq_some_iff.mpr ⟨front ++ dots ++ name, far ++ back, ?_, ?_, rfl⟩
      · rw [htext]
        simp
      · rw [size_append, hstart]
    exact (isIdent_eq_false_iff (hrun' c hc)).mp (hright _ _ hcut hmore c (by simp))
  obtain ⟨hne, hhead, hlast⟩ := hname.ne_dot
  refine ⟨⟨start, name⟩, ⟨⟨front, dots, dots', back, htext, hstart, ?_, ?_, hfront, hback⟩, hne,
    hhead, hlast, htouches⟩, rfl⟩
  · intro c hc
    simp only [List.mem_append] at hc
    rcases hc with (hc | hc) | hc
    · exact hrun c hc
    · exact hname.run c hc
    · exact hrun' c hc
  · intro c hc
    rcases List.mem_append.mp hc with hc | hc
    · exact hdots c hc
    · exact hdots' c hc

theorem isNameAround_iff :
    IsNameAround t o s ↔ ∃ e, t.IsDottedName o e ∧ e.span = s := by
  constructor
  · exact IsNameAround.exists_isDottedName
  · rintro ⟨e, he, rfl⟩
    exact he.isNameAround

/-! ## 2. The reading -/

theorem nameSpan?_eq_some_iff {offset : Nat} :
    t.nameSpan? offset = some s ↔ IsNameAround t (t.seek offset).offset s := by
  rw [isNameAround_iff, nameSpan?, Option.map_eq_some_iff]
  have hread {e : Excerpt} := @Cursor.dottedRun?_eq_some_iff (t.seek offset) e
  rw [text_seek] at hread
  simp only [hread]

/-- An offset that touches a name is rounded down to a place that touches it. -/
theorem IsNameAround.touches_seek (h : IsNameAround t o s) {offset : Nat}
    (htouches : s.touches offset = true) : s.touches (t.seek offset).offset = true := by
  obtain ⟨name, hslice, -⟩ := h.dotted
  obtain ⟨a, b, htext, hstart, -⟩ := slice?_eq_some_iff.mp hslice
  obtain ⟨hle, hge⟩ := Span.touches_iff.mp htouches
  have hround := roundsDown_seek t offset
  rw [List.append_assoc] at htext
  refine Span.touches_iff.mpr ⟨?_, Nat.le_trans hround.le hge⟩
  rw [← hstart] at hle ⊢
  exact hround.last a _ htext hle

/-- **The name found at an offset** is the one around the place that the offset is rounded down to.
    None is found only if there is none, and every offset that touches the name finds the same one. -/
theorem nameSpan?_eq_some_iff_isNameAround (t : Text) (offset : Nat) :
    ∃ o, t.RoundsDown offset o ∧
      (∀ s, t.nameSpan? offset = some s ↔ IsNameAround t o s) ∧
      (t.nameSpan? offset = none ↔ ¬ ∃ s, IsNameAround t o s) ∧
      ∀ s, t.nameSpan? offset = some s →
        ∀ offset', s.touches offset' = true → t.nameSpan? offset' = some s := by
  refine ⟨_, t.roundsDown_seek offset, fun s => nameSpan?_eq_some_iff, ?_, ?_⟩
  · rw [Option.eq_none_iff_forall_ne_some, not_exists]
    simp only [ne_eq, nameSpan?_eq_some_iff]
  · intro s hs offset' htouches
    have haround := nameSpan?_eq_some_iff.mp hs
    have hthere := haround.touches_seek htouches
    exact nameSpan?_eq_some_iff.mpr ⟨haround.dotted, hthere, haround.left, haround.right⟩

/-- In `.a..b. é` the name goes from the `a` to the `b`, also when looked for between the two dots or
    from its end. From inside the last character there is none. -/
theorem nameSpan?_eq_some_iff_isNameAround_twoDots :
    let text : Text := ['.', 'a', '.', '.', 'b', '.', ' ', 'é']
    text.nameSpan? 3 = some ⟨1, 5⟩ ∧ IsNameAround text 3 ⟨1, 5⟩ ∧ Span.touches ⟨1, 5⟩ 5 = true ∧
      text.nameSpan? 5 = some ⟨1, 5⟩ ∧ text.RoundsDown 8 7 ∧ ¬ ∃ s, IsNameAround text 7 s := by
  intro text
  obtain ⟨o, ho, hiff, -, hsame⟩ := nameSpan?_eq_some_iff_isNameAround text 3
  obtain rfl : o = 3 := ho.unique (text.roundsDown_seek 3)
  have hfound : text.nameSpan? 3 = some ⟨1, 5⟩ := by decide
  have htouches : Span.touches ⟨1, 5⟩ 5 = true := by decide
  obtain ⟨o, ho, -, hnone, -⟩ := nameSpan?_eq_some_iff_isNameAround text 8
  obtain rfl : o = 7 := ho.unique (text.roundsDown_seek 8)
  have hmissing : text.nameSpan? 8 = none := by decide
  exact ⟨hfound, (hiff _).mp hfound, htouches, hsame _ hfound 5 htouches, ho, hnone.mp hmissing⟩

end Text

end ThemeLens
