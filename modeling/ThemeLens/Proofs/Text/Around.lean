import Mathlib.Data.List.DropRight
import ThemeLens.Proofs.Text.LineColumn
import ThemeLens.Proofs.Text.Nesting
import ThemeLens.Proofs.Text.Place
import ThemeLens.Text.Around

/-!
# The name at a place, the lines near it

Both readings of the surroundings go from the place outwards, one character after the other. What they
find can be said without the place being the middle of it. A dotted name is a piece of the text between
other characters (`IsDottedName`), and the lines near a place are some of the lines of the text, counted
from the first one (`linesNear`). This file shows that the outward readings find these.

The lines of a text are its pieces between line feeds, as `List.splitOn` gives them. A place cuts one of
them in two (`splitOn_append`): what is read backwards ends with the first part, what is read forwards
begins with the second.
-/

namespace ThemeLens

namespace Text

/-! ## 1. The pieces of a text -/

theorem exists_splitOn_eq_concat (mark : Char) (t : Text) :
    ∃ before x, t.splitOn mark = before ++ [x] := by
  obtain hnil | ⟨before, x, h⟩ := List.eq_nil_or_concat (t.splitOn mark)
  · exact absurd hnil (List.splitOn_ne_nil mark t)
  · exact ⟨before, x, by rw [h, List.concat_eq_append]⟩

/-- Two texts put together share the piece where they meet. -/
theorem splitOn_append {mark : Char} {s t x y : Text} {before after : List Text}
    (hs : s.splitOn mark = before ++ [x]) (ht : t.splitOn mark = y :: after) :
    (s ++ t).splitOn mark = before ++ (x ++ y) :: after := by
  induction s generalizing before x with
  | nil =>
    rw [List.splitOn_nil] at hs
    obtain ⟨rfl, rfl⟩ : before = [] ∧ x = [] := by
      cases before <;> simp_all
    simpa using ht
  | cons c s ih =>
    obtain ⟨before', x', hpieces⟩ := exists_splitOn_eq_concat mark s
    rw [List.splitOn_cons_eq_if_modifyHead, hpieces] at hs
    rw [List.cons_append, List.splitOn_cons_eq_if_modifyHead, ih hpieces]
    by_cases hc : (c == mark) = true
    · rw [if_pos hc] at hs ⊢
      rw [← List.cons_append] at hs
      obtain ⟨rfl, hx⟩ := List.append_inj' hs rfl
      cases hx
      rfl
    · rw [if_neg hc] at hs ⊢
      -- the character belongs to the first piece, which may be the last one as well
      cases before' with
      | nil =>
        change [] ++ [c :: x'] = before ++ [x] at hs
        obtain ⟨rfl, hx⟩ := List.append_inj' hs rfl
        cases hx
        rfl
      | cons first before' =>
        change ((c :: first) :: before') ++ [x'] = before ++ [x] at hs
        obtain ⟨rfl, hx⟩ := List.append_inj' hs rfl
        cases hx
        rfl

theorem length_splitOn (mark : Char) (t : Text) : (t.splitOn mark).length = t.count mark + 1 := by
  induction t with
  | nil => simp
  | cons c t ih =>
    rw [List.splitOn_cons_eq_if_modifyHead, List.count_cons]
    split
    · simp_all
    · simp_all

theorem intercalate_append (sep x y : Text) (before after : List Text) :
    sep.intercalate (before ++ (x ++ y) :: after) =
      sep.intercalate (before ++ [x]) ++ sep.intercalate (y :: after) := by
  induction before with
  | nil => cases after <;> simp [List.intercalate_cons_cons]
  | cons first before ih =>
    cases before with
    | nil => cases after <;> simp [List.intercalate_cons_cons]
    | cons second before =>
      simp only [List.cons_append, List.intercalate_cons_cons] at ih ⊢
      rw [ih]
      simp only [List.append_assoc]

theorem intercalate_concat (sep x : Text) {pieces : List Text} (hne : pieces ≠ []) :
    sep.intercalate (pieces ++ [x]) = sep.intercalate pieces ++ sep ++ x := by
  obtain ⟨before, y, rfl⟩ := (List.eq_nil_or_concat pieces).resolve_left hne
  have h := intercalate_append sep y [] before [x]
  rw [List.append_nil] at h
  rw [List.concat_eq_append, List.append_assoc, List.singleton_append, h]
  simp [List.intercalate_cons_cons]

/-- The line of the place at `o` with as many as `radius` lines above it and below it. -/
def linesNear (t : Text) (o radius : Nat) : Text :=
  let line := (t.positionAt o).line
  ['\n'].intercalate ((t.splitOn '\n').extract (line - radius) (line + radius + 1))

end Text

/-! ## 2. Lines -/

open Text (dropWhile_stretch head?_dropWhile intercalate_append intercalate_concat length_splitOn
  splitOn_append takeWhile_stretch)

namespace Cursor

theorem takeLines_append (radius : Nat) {line : Text} (h : '\n' ∉ line) (rest : Text) :
    takeLines radius (line ++ rest) = line ++ takeLines radius rest := by
  induction line with
  | nil => rfl
  | cons c line ih =>
    rw [List.mem_cons, not_or] at h
    rw [List.cons_append, takeLines.eq_def]
    simp [Ne.symm h.1, ih h.2]

theorem takeLines_of_notMem (radius : Nat) {t : Text} (h : '\n' ∉ t) : takeLines radius t = t := by
  have hall := takeLines_append radius h []
  simpa [takeLines] using hall

theorem takeLines_zero {line : Text} (h : '\n' ∉ line) (rest : Text) :
    takeLines 0 (line ++ '\n' :: rest) = line := by
  simp [takeLines_append 0 h, takeLines]

theorem takeLines_succ (radius : Nat) {line : Text} (h : '\n' ∉ line) (rest : Text) :
    takeLines (radius + 1) (line ++ '\n' :: rest) = line ++ '\n' :: takeLines radius rest := by
  simp [takeLines_append (radius + 1) h, takeLines]

/-- Line by line: on the last line of a text any number of lines is enough, and each line feed takes
    one. -/
theorem linewise {motive : Nat → Text → Prop}
    (whole : ∀ radius line, '\n' ∉ line → motive radius line)
    (last : ∀ line rest, '\n' ∉ line → motive 0 (line ++ '\n' :: rest))
    (further : ∀ radius line rest, '\n' ∉ line → motive radius rest →
      motive (radius + 1) (line ++ '\n' :: rest)) (radius : Nat) (t : Text) : motive radius t := by
  induction radius generalizing t with
  | zero =>
    rcases Text.exists_mark_or_notMem '\n' t with h | ⟨line, rest, rfl, h⟩
    · exact whole 0 t h
    · exact last line rest h
  | succ radius ih =>
    rcases Text.exists_mark_or_notMem '\n' t with h | ⟨line, rest, rfl, h⟩
    · exact whole (radius + 1) t h
    · exact further radius line rest h (ih rest)

/-- Read forwards are the first lines. -/
theorem takeLines_eq (radius : Nat) (t : Text) :
    takeLines radius t = ['\n'].intercalate ((t.splitOn '\n').take (radius + 1)) := by
  induction radius, t using linewise with
  | whole radius line h =>
    rw [takeLines_of_notMem _ h, List.splitOn_eq_singleton h]
    simp
  | last line rest h =>
    rw [takeLines_zero h, List.splitOn_append_cons_self_of_not_mem h]
    simp
  | further radius line rest h ih =>
    have hne : (rest.splitOn '\n').take (radius + 1) ≠ [] := by
      simp [List.splitOn_ne_nil]
    rw [takeLines_succ radius h, List.splitOn_append_cons_self_of_not_mem h, List.take_succ_cons,
      List.intercalate_cons_of_ne_nil hne, ih]
    simp

theorem reverse_splitOn {line : Text} (h : '\n' ∉ line) (rest : Text) :
    (line ++ '\n' :: rest).reverse.splitOn '\n' = rest.reverse.splitOn '\n' ++ [line.reverse] := by
  have hrev : '\n' ∉ line.reverse := by simpa using h
  rw [List.reverse_append, List.reverse_cons, List.append_assoc, List.singleton_append,
    List.splitOn_append_cons_self, List.splitOn_eq_singleton hrev]

theorem count_line {line : Text} (h : '\n' ∉ line) (rest : Text) :
    (line ++ '\n' :: rest).count '\n' = rest.count '\n' + 1 := by
  rw [List.count_append, List.count_eq_zero.mpr h, List.count_cons_self, Nat.zero_add]

/-- Read backwards are the last lines. -/
theorem reverse_takeLines (radius : Nat) (b : Text) :
    (takeLines radius b).reverse =
      ['\n'].intercalate ((b.reverse.splitOn '\n').drop (b.count '\n' - radius)) := by
  induction radius, b using linewise with
  | whole radius line h =>
    have hrev : '\n' ∉ line.reverse := by simpa using h
    rw [takeLines_of_notMem _ h, List.splitOn_eq_singleton hrev, List.count_eq_zero.mpr h]
    simp
  | last line rest h =>
    have hlast : (line ++ '\n' :: rest).count '\n' = (rest.reverse.splitOn '\n').length := by
      rw [length_splitOn, List.count_reverse, count_line h]
    rw [takeLines_zero h, Nat.sub_zero, hlast, reverse_splitOn h, List.drop_left]
    simp
  | further radius line rest h ih =>
    have hlt : rest.count '\n' - radius < (rest.reverse.splitOn '\n').length := by
      rw [length_splitOn, List.count_reverse]
      omega
    have hne : (rest.reverse.splitOn '\n').drop (rest.count '\n' - radius) ≠ [] := by
      simpa using hlt
    rw [takeLines_succ radius h, count_line h, Nat.add_sub_add_right, reverse_splitOn h,
      List.drop_append_of_le_length (Nat.le_of_lt hlt), intercalate_concat _ _ hne, ← ih]
    simp

theorem line_positionAt_offset (k : Cursor) :
    (k.text.positionAt k.offset).line = k.before.count '\n' := by
  have h := Text.positionAt_append k.before.reverse k.after
  rw [Text.size_reverse] at h
  rw [text, offset, h, Position.line_advance, List.count_reverse, Nat.zero_add]

/-- **The lines near a place** are so many lines of the text, whole ones. -/
theorem text_lines (k : Cursor) (radius : Nat) :
    (k.lines radius).text = k.text.linesNear k.offset radius := by
  obtain ⟨above, x, hbefore⟩ : ∃ above x, k.before.reverse.splitOn '\n' = above ++ [x] :=
    Text.exists_splitOn_eq_concat '\n' _
  obtain ⟨y, below, hafter⟩ := List.exists_cons_of_ne_nil (List.splitOn_ne_nil '\n' k.after)
  have hline : k.before.count '\n' = above.length := by
    have h := length_splitOn '\n' k.before.reverse
    rw [hbefore, List.count_reverse, List.length_append, List.length_singleton] at h
    omega
  have hcount : above.length + radius + 1 - (above.length - radius) =
      (above.drop (above.length - radius)).length + (radius + 1) := by
    rw [List.length_drop]
    omega
  show (takeLines radius k.before).reverse ++ takeLines radius k.after = _
  rw [Text.linesNear, line_positionAt_offset, text, splitOn_append hbefore hafter,
    reverse_takeLines, takeLines_eq, hbefore, hafter, hline, List.extract_eq_take_drop,
    List.drop_append_of_le_length (Nat.sub_le _ _), List.drop_append_of_le_length (Nat.sub_le _ _),
    hcount, List.take_length_add_append, List.take_succ_cons, List.take_succ_cons]
  exact (intercalate_append _ _ _ _ _).symm

/-- Reading further goes on behind whole lines. -/
theorem exists_takeLines_append {radius radius' : Nat} (h : radius ≤ radius') (t : Text) :
    ∃ rest, takeLines radius' t = takeLines radius t ++ rest ∧
      ∀ c, rest.head? = some c → c = '\n' := by
  induction radius, t using linewise generalizing radius' with
  | whole radius line hline =>
    rw [takeLines_of_notMem _ hline, takeLines_of_notMem _ hline]
    exact ⟨[], by simp⟩
  | last line rest hline =>
    rw [takeLines_zero hline, takeLines_append radius' hline]
    refine ⟨_, rfl, ?_⟩
    cases radius' <;> simp [takeLines]
  | further radius line rest hline ih =>
    obtain ⟨radius', rfl⟩ : ∃ r, radius' = r + 1 := ⟨radius' - 1, by omega⟩
    obtain ⟨more, hmore, hhead⟩ := ih (Nat.le_of_succ_le_succ h)
    rw [takeLines_succ _ hline, takeLines_succ _ hline, hmore]
    exact ⟨more, by simp, hhead⟩

/-- More lines are the same lines with others above and below. -/
theorem exists_text_lines_append {radius radius' : Nat} (h : radius ≤ radius') (k : Cursor) :
    ∃ above below, (k.lines radius').text = above ++ (k.lines radius).text ++ below ∧
      ∀ c, above.getLast? = some c → c = '\n' := by
  obtain ⟨above, habove, hfeed⟩ := exists_takeLines_append h k.before
  obtain ⟨below, hbelow, -⟩ := exists_takeLines_append h k.after
  refine ⟨above.reverse, below, ?_, ?_⟩
  · show (takeLines radius' k.before).reverse ++ takeLines radius' k.after = _
    rw [habove, hbelow, List.reverse_append]
    simp [lines]
  · intro c hc
    rw [List.getLast?_reverse] at hc
    exact hfeed c hc

end Cursor

/-! ## 3. Dotted names -/

/-- `e` is the dotted name at the place `o` of a text: a stretch of identifier characters and dots
    that goes as far as it can, without the dots at its ends, and `o` is in what is left. -/
structure Text.IsDottedName (t : Text) (o : Nat) (e : Excerpt) : Prop where
  run : ∃ front dots dots' back, t = front ++ dots ++ e.text ++ (dots' ++ back) ∧
    Text.size (front ++ dots) = e.start ∧ (∀ c ∈ dots ++ e.text ++ dots', isRun c = true) ∧
    (∀ c ∈ dots ++ dots', c = '.') ∧ (∀ c, front.getLast? = some c → isRun c = false) ∧
    ∀ c, back.head? = some c → isRun c = false
  named : e.text ≠ []
  starts : e.text.head? ≠ some '.'
  ends : e.text.getLast? ≠ some '.'
  touches : e.span.touches o = true

/-- A stretch that is more than dots, without the dots at its ends. -/
theorem Text.undotted_iff {run dots name : Text} (hne : name ≠ []) :
    run.takeWhile (· == '.') = dots ∧ (run.drop dots.length).rdropWhile (· == '.') = name ↔
      (∃ dots', run = dots ++ name ++ dots' ∧ ∀ c ∈ dots ++ dots', c = '.') ∧
        name.head? ≠ some '.' ∧ name.getLast? ≠ some '.' := by
  constructor
  · rintro ⟨hfront, hname⟩
    have hrun := List.takeWhile_append_dropWhile (p := (· == '.')) (l := run)
    have hhead := head?_dropWhile (· == '.') run
    rw [hfront] at hrun
    rw [← hrun, List.drop_left] at hname
    have hdotted := List.rdropWhile_append_rtakeWhile (p := (· == '.')) (l := run.dropWhile (· == '.'))
    rw [hname] at hdotted
    refine ⟨⟨(run.dropWhile (· == '.')).rtakeWhile (· == '.'), ?_, ?_⟩, ?_, ?_⟩
    · rw [List.append_assoc, hdotted, hrun]
    · intro c hc
      rcases List.mem_append.mp hc with hc | hc
      · rw [← hfront] at hc
        simpa using List.mem_takeWhile_imp hc
      · simpa using List.mem_rtakeWhile_imp hc
    · intro hdot
      rw [← hdotted, List.head?_append_of_ne_nil _ hne] at hhead
      simpa using hhead '.' hdot
    · intro hdot
      rw [← hname, List.rdropWhile, List.getLast?_reverse] at hdot
      simpa using head?_dropWhile _ _ _ hdot
  · rintro ⟨⟨dots', rfl, hdots⟩, hhead, hlast⟩
    have hfront : (dots ++ name ++ dots').takeWhile (· == '.') = dots := by
      rw [List.append_assoc]
      refine takeWhile_stretch ?_ ?_
      · intro c hc
        simpa using hdots c (List.mem_append_left _ hc)
      · intro c hc
        rw [List.head?_append_of_ne_nil _ hne] at hc
        rw [beq_eq_false_iff_ne]
        rintro rfl
        exact hhead hc
    refine ⟨hfront, ?_⟩
    rw [List.append_assoc, List.drop_left, List.rdropWhile, List.reverse_append,
      dropWhile_stretch, List.reverse_reverse]
    · intro c hc
      simpa using hdots c (List.mem_append_right _ (List.mem_reverse.mp hc))
    · intro c hc
      rw [List.head?_reverse] at hc
      rw [beq_eq_false_iff_ne]
      rintro rfl
      exact hlast hc

namespace Cursor

theorem dottedRun?_stretch {left outside right beyond : Text} {e : Excerpt}
    (hleft : ∀ c ∈ left, isRun c = true) (houtside : ∀ c, outside.head? = some c → isRun c = false)
    (hright : ∀ c ∈ right, isRun c = true) (hbeyond : ∀ c, beyond.head? = some c → isRun c = false) :
    dottedRun? ⟨left ++ outside, right ++ beyond⟩ = some e ↔
      e.text ≠ [] ∧ e.span.touches (Text.size (left ++ outside)) = true ∧
        ∃ dots, (left.reverse ++ right).takeWhile (· == '.') = dots ∧
          ((left.reverse ++ right).drop dots.length).rdropWhile (· == '.') = e.text ∧
          e.start = Text.size outside + Text.size dots := by
  have hstart : Text.size (left ++ outside) - Text.size left = Text.size outside := by
    rw [Text.size_append, Nat.add_sub_cancel_left]
  unfold dottedRun? offset
  dsimp only
  rw [takeWhile_stretch hleft houtside, takeWhile_stretch hright hbeyond, hstart,
    Option.ite_none_right_eq_some]
  constructor
  · rintro ⟨hfound, heq⟩
    cases heq
    rw [Bool.and_eq_true, Bool.not_eq_true', List.isEmpty_eq_false_iff] at hfound
    exact ⟨hfound.1, hfound.2, _, rfl, rfl, rfl⟩
  · rintro ⟨hne, htouches, _, rfl, htext, hstart⟩
    obtain ⟨start, name⟩ := e
    cases hstart
    cases htext
    rw [Bool.and_eq_true, Bool.not_eq_true', List.isEmpty_eq_false_iff]
    exact ⟨⟨hne, htouches⟩, rfl⟩

/-- **The dotted name at a place** is what the outward reading finds, if there is one. -/
theorem dottedRun?_eq_some_iff {k : Cursor} {e : Excerpt} :
    k.dottedRun? = some e ↔ k.text.IsDottedName k.offset e := by
  constructor
  · obtain ⟨before, after⟩ := k
    intro h
    have hbefore := List.takeWhile_append_dropWhile (p := isRun) (l := before)
    have hafter := List.takeWhile_append_dropWhile (p := isRun) (l := after)
    have hleft (c : Char) (hc : c ∈ before.takeWhile isRun) := List.mem_takeWhile_imp hc
    have hright (c : Char) (hc : c ∈ after.takeWhile isRun) := List.mem_takeWhile_imp hc
    have houtside := head?_dropWhile isRun before
    have hbeyond := head?_dropWhile isRun after
    generalize before.takeWhile isRun = left, before.dropWhile isRun = outside at *
    generalize after.takeWhile isRun = right, after.dropWhile isRun = beyond at *
    subst hbefore hafter
    obtain ⟨hne, htouches, dots, hdots, hname, hstart⟩ :=
      (dottedRun?_stretch hleft houtside hright hbeyond).mp h
    obtain ⟨⟨dots', hrun, hdots⟩, hhead, hlast⟩ := (Text.undotted_iff hne).mp ⟨hdots, hname⟩
    refine ⟨⟨outside.reverse, dots, dots', beyond, ?_, ?_, ?_, hdots, ?_, hbeyond⟩, hne, hhead, hlast,
      htouches⟩
    · calc (left ++ outside).reverse ++ (right ++ beyond)
          = outside.reverse ++ (left.reverse ++ right) ++ beyond := by simp
        _ = outside.reverse ++ dots ++ e.text ++ (dots' ++ beyond) := by rw [hrun]; simp
    · rw [hstart, Text.size_append, Text.size_reverse]
    · intro c hc
      rw [← hrun, List.mem_append, List.mem_reverse] at hc
      exact hc.elim (hleft c) (hright c)
    · intro c hc
      rw [List.getLast?_reverse] at hc
      exact houtside c hc
  · intro h
    obtain ⟨⟨front, dots, dots', back, htext, hstart, hrun, hdots, hfront, hback⟩, hne, hhead, hlast,
      htouches⟩ := h
    -- the place cuts the name in two
    obtain ⟨name, name', hname, hbefore, hafter⟩ : ∃ name name', e.text = name ++ name' ∧
        k.before = (dots ++ name).reverse ++ front.reverse ∧ k.after = name' ++ dots' ++ back := by
      obtain ⟨hle, hge⟩ := Span.touches_iff.mp htouches
      have hplace : k.before.reverse ++ k.after = front ++ dots ++ (e.text ++ (dots' ++ back)) := by
        rw [← List.append_assoc, ← htext, text]
      have hoffset : Text.size k.before.reverse = k.offset := Text.size_reverse _
      obtain ⟨name, hbefore, hrest⟩ := Text.exists_between hplace.symm (by
        rw [hstart, hoffset]
        exact hle)
      obtain ⟨name', hname, hafter⟩ := Text.exists_between hrest.symm (by
        have hsize := congrArg Text.size hbefore
        rw [hoffset, Text.size_append, hstart] at hsize
        have hstop : k.offset ≤ e.start + e.text.size := hge
        omega)
      refine ⟨name, name', hname, ?_, ?_⟩
      · rw [← List.reverse_reverse k.before, hbefore]
        simp
      · rw [hafter, List.append_assoc]
    obtain ⟨before, after⟩ := k
    cases hbefore
    cases hafter
    refine (dottedRun?_stretch ?_ ?_ ?_ hback).mpr ?_
    · intro c hc
      rw [List.mem_reverse] at hc
      refine hrun c ?_
      rw [hname]
      simp only [List.mem_append] at hc ⊢
      tauto
    · intro c hc
      rw [List.head?_reverse] at hc
      exact hfront c hc
    · intro c hc
      refine hrun c ?_
      rw [hname]
      simp only [List.mem_append] at hc ⊢
      tauto
    · have hsplit : (dots ++ name).reverse.reverse ++ (name' ++ dots') = dots ++ e.text ++ dots' := by
        rw [hname]
        simp
      obtain ⟨hdots, htrim⟩ := (Text.undotted_iff hne).mpr ⟨⟨dots', hsplit, hdots⟩, hhead, hlast⟩
      refine ⟨hne, htouches, dots, hdots, htrim, ?_⟩
      rw [← hstart, Text.size_append, Text.size_reverse]

theorem slice?_dottedRun {k : Cursor} {run : Excerpt} (h : k.dottedRun? = some run) :
    k.text.slice? run.span = some run.text := by
  obtain ⟨front, dots, dots', back, htext, hstart, -⟩ := (dottedRun?_eq_some_iff.mp h).run
  exact Text.slice?_eq_some_iff.mpr ⟨front ++ dots, dots' ++ back, htext, hstart, rfl⟩

end Cursor

end ThemeLens
