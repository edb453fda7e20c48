import Mathlib.Data.List.Infix
import ThemeLens.Proofs.Hover.Labels
import ThemeLens.Proofs.Text.Around

/-!
# What an inferred hover is about

A bare dotted name is taken for a path of the theme if the lines around it look like styled CSS. Both
are found by searches, and both are said here without one: the name as a piece of the text
(`Text.IsDottedName`), the look of the lines by what they have somewhere (`LooksStyled`). A hover is
inferred exactly when no certain one is at hand and the two hold (`at?_inferred_iff`).

A tag counts where no identifier goes on, and at the start of the lines that are looked at nothing is
in front. That could make a tag out of the end of a word, if the lines were not whole. As they are,
whatever stands above them ends in a line feed, and with more lines a tag is still one. So to look
further never loses a hover.
-/

namespace ThemeLens

/-! ## 1. Tags -/

namespace StyledTag

/-- A text that begins with a tag: `styled` with a member or with arguments, or one of the helpers with
    a template or with arguments. -/
inductive Begins : Text → Prop
  | member {c : Char} (hc : isIdent c = true) (rest : Text) :
      Begins ("styled".toList ++ '.' :: c :: rest)
  | arguments (rest : Text) : Begins ("styled".toList ++ '(' :: rest)
  | helper {name : Text} (hname : name ∈ helpers) {c : Char} (hc : c = '\x60' ∨ c = '(')
      (rest : Text) : Begins (name ++ c :: rest)

/-- There is a tag somewhere with no identifier character in front. -/
def Occurs (t : Text) : Prop :=
  ∃ front back, t = front ++ back ∧ (∀ c, front.getLast? = some c → isIdent c = false) ∧ Begins back

theorem startsWith_iff {t : Text} : startsWith t = true ↔ Begins t := by
  unfold startsWith
  rw [Bool.or_eq_true, List.any_eq_true]
  simp only [Option.any_eq_true, Text.strip?_eq_some_iff]
  constructor
  · rintro (⟨rest, rfl, hrest⟩ | ⟨name, hname, rest, rfl, hrest⟩)
    · unfold followsFactory at hrest
      split at hrest
      · exact .member hrest _
      · exact .arguments _
      · cases hrest
    · unfold followsHelper at hrest
      split at hrest
      · exact .helper hname (by simpa using hrest) _
      · cases hrest
  · intro h
    cases h with
    | member hc rest => exact .inl ⟨_, rfl, hc⟩
    | arguments rest => exact .inl ⟨_, rfl, rfl⟩
    | helper hname hc rest => exact .inr ⟨_, hname, _, rfl, by simpa [followsHelper] using hc⟩

theorem not_begins_nil : ¬ Begins [] := by
  rw [← startsWith_iff]
  decide

/-- The search from a place on, which knows of what is before it only whether that ends in an
    identifier. -/
theorem occursFrom_iff {inIdent : Bool} {t : Text} :
    occursFrom inIdent t = true ↔
      ∃ front back, t = front ++ back ∧ (front = [] → inIdent = false) ∧
        (∀ c, front.getLast? = some c → isIdent c = false) ∧ Begins back := by
  induction t generalizing inIdent with
  | nil =>
    simp only [occursFrom, Bool.false_eq_true, false_iff]
    rintro ⟨front, back, hnil, -, -, hbegins⟩
    obtain ⟨-, rfl⟩ := List.append_eq_nil_iff.mp hnil.symm
    exact not_begins_nil hbegins
  | cons c t ih =>
    rw [occursFrom, Bool.or_eq_true, Bool.and_eq_true, Bool.not_eq_true', ih, startsWith_iff]
    constructor
    · rintro (⟨hident, hbegins⟩ | ⟨front, back, rfl, hnil, hlast, hbegins⟩)
      · exact ⟨[], c :: t, rfl, fun _ => hident, by simp, hbegins⟩
      · refine ⟨c :: front, back, rfl, by simp, ?_, hbegins⟩
        cases front with
        | nil => simpa using hnil rfl
        | cons d front => simpa using hlast
    · rintro ⟨front, back, hsplit, hnil, hlast, hbegins⟩
      cases front with
      | nil =>
        obtain rfl : c :: t = back := hsplit
        exact .inl ⟨hnil rfl, hbegins⟩
      | cons d front =>
        cases hsplit
        refine .inr ⟨front, back, rfl, ?_, ?_, hbegins⟩
        · rintro rfl
          exact hlast c rfl
        · intro e he
          refine hlast e ?_
          rw [List.getLast?_cons, he]
          rfl

theorem occurs_iff {t : Text} : occurs t = true ↔ Occurs t := by
  rw [occurs, occursFrom_iff]
  simp [Occurs]

theorem Begins.append {t : Text} (h : Begins t) (more : Text) : Begins (t ++ more) := by
  cases h with
  | member hc rest =>
    rw [List.append_assoc]
    exact .member hc _
  | arguments rest =>
    rw [List.append_assoc]
    exact .arguments _
  | helper hname hc rest =>
    rw [List.append_assoc]
    exact .helper hname hc _

/-- A tag stays one below other lines. -/
theorem Occurs.surround {t above : Text} (h : Occurs t)
    (habove : ∀ c, above.getLast? = some c → c = '\n') (below : Text) :
    Occurs (above ++ t ++ below) := by
  obtain ⟨front, back, rfl, hlast, hbegins⟩ := h
  refine ⟨above ++ front, back ++ below, by simp, ?_, hbegins.append below⟩
  intro c hc
  rw [List.getLast?_append, Option.or_eq_some_iff] at hc
  rcases hc with hc | ⟨-, hc⟩
  · exact hlast c hc
  · rw [habove c hc]
    decide

end StyledTag

namespace Hover

variable {text : Text} {table : Table} {offset radius radius' : Nat} {h : Hover}

/-! ## 2. Inferred hovers -/

/-- There are a placeholder and a tag in the lines. -/
def LooksStyled (lines : Text) : Prop := ['$', '\x7b'] <:+: lines ∧ StyledTag.Occurs lines

theorem looksStyled_iff {lines : Text} : looksStyled lines = true ↔ LooksStyled lines := by
  rw [looksStyled, Bool.and_eq_true, Text.hasPart_iff, StyledTag.occurs_iff, LooksStyled]

/-- With more lines around them, lines look styled as before. -/
theorem LooksStyled.mono {k : Cursor} (h : LooksStyled (k.lines radius).text)
    (hle : radius ≤ radius') : LooksStyled (k.lines radius').text := by
  obtain ⟨above, below, hlines, habove⟩ := Cursor.exists_text_lines_append hle k
  obtain ⟨hplaceholder, htag⟩ := h
  rw [hlines]
  exact ⟨hplaceholder.trans (List.infix_append above _ below), htag.surround habove below⟩

/-- What `h` is, as the hover on a bare name of the text that the table has. -/
def Guessed (text : Text) (table : Table) (o radius : Nat) (h : Hover) : Prop :=
  ∃ run value, text.IsDottedName o run ∧ table.get? run.text = some value ∧
    LooksStyled (text.linesNear o radius) ∧ h = ⟨run.text, value, .inferred, run.span⟩

theorem guessed?_eq_some_iff :
    guessed? text offset table radius = some h ↔
      Guessed text table (text.seek offset).offset radius h := by
  have hname (run : Excerpt) := Cursor.dottedRun?_eq_some_iff (k := text.seek offset) (e := run)
  have hlines := Cursor.text_lines (text.seek offset) radius
  rw [Text.text_seek] at hlines
  simp only [Text.text_seek] at hname
  unfold guessed? Guessed
  simp only [Option.bind_eq_some_iff, Option.ite_none_right_eq_some, looksStyled_iff, hname, hlines,
    Option.some.injEq]
  constructor
  · rintro ⟨run, hrun, value, hvalue, hstyled, rfl⟩
    exact ⟨run, value, hrun, hvalue, hstyled, rfl⟩
  · rintro ⟨run, value, hrun, hvalue, hstyled, rfl⟩
    exact ⟨run, hrun, value, hvalue, hstyled, rfl⟩

theorem guessed?_mono (hle : radius ≤ radius') (hh : guessed? text offset table radius = some h) :
    guessed? text offset table radius' = some h := by
  unfold guessed? at hh ⊢
  simp only [Option.bind_eq_some_iff, Option.ite_none_right_eq_some, looksStyled_iff] at hh ⊢
  obtain ⟨run, hrun, value, hvalue, hstyled, heq⟩ := hh
  exact ⟨run, hrun, value, hvalue, hstyled.mono hle, heq⟩

theorem at?_eq_some_inferred_iff :
    at? text offset table radius = some h ∧ h.confidence = .inferred ↔
      (¬ ∃ h', at? text offset table radius = some h' ∧ h'.confidence = .high) ∧
        guessed? text offset table radius = some h := by
  constructor
  · rintro ⟨hat, hinferred⟩
    refine ⟨?_, ?_⟩
    · rintro ⟨h', hat', hhigh⟩
      obtain rfl : h = h' := Option.some.inj (hat.symm.trans hat')
      rw [hinferred] at hhigh
      cases hhigh
    · rcases Option.or_eq_some_iff.mp hat with hcertain | ⟨-, hguessed⟩
      · have hhigh : at? text offset table radius = some h ∧ h.confidence = .high :=
          at?_eq_some_high_iff.mpr hcertain
        rw [hinferred] at hhigh
        cases hhigh.2
      · exact hguessed
  · rintro ⟨hnone, hguessed⟩
    have hcertain : certain? text offset table = none := by
      rw [Option.eq_none_iff_forall_ne_some]
      intro h' hh'
      exact hnone ⟨h', at?_eq_some_high_iff.mpr hh'⟩
    refine ⟨Option.or_eq_some_iff.mpr (.inr ⟨hcertain, hguessed⟩), ?_⟩
    obtain ⟨_, _, -, -, -, rfl⟩ := guessed?_eq_some_iff.mp hguessed
    rfl

/-- **Inferred hovers are exact.** At the last place up to an offset, a hover is inferred exactly when
    none is certain, the dotted name there is a path of the table, and the lines near it look styled; it
    then gives that name, its value and its bytes. And what a hover says with some lines looked at it says
    with more. -/
theorem at?_inferred_iff (text : Text) (table : Table) (offset : Nat) :
    ∃ o, text.RoundsDown offset o ∧
      (∀ radius h, at? text offset table radius = some h ∧ h.confidence = .inferred ↔
        (¬ ∃ h', at? text offset table radius = some h' ∧ h'.confidence = .high) ∧
          ∃ run value, text.IsDottedName o run ∧ table.get? run.text = some value ∧
            LooksStyled (text.linesNear o radius) ∧ h = ⟨run.text, value, .inferred, run.span⟩) ∧
      ∀ radius radius' h, radius ≤ radius' → at? text offset table radius = some h →
        at? text offset table radius' = some h := by
  refine ⟨_, text.roundsDown_seek offset, ?_, ?_⟩
  · intro radius h
    rw [at?_eq_some_inferred_iff, guessed?_eq_some_iff, Guessed]
  · intro radius radius' h hle hat
    rcases Option.or_eq_some_iff.mp hat with hcertain | ⟨hcertain, hguessed⟩
    · exact Option.or_eq_some_iff.mpr (.inl hcertain)
    · exact Option.or_eq_some_iff.mpr (.inr ⟨hcertain, guessed?_mono hle hguessed⟩)

/-- The lines above and below `a.b` look styled together, and the one of `a.b` does not. -/
theorem at?_inferred_iff_twoLines :
    let text : Text := ['c', 's', 's', '\x60', '\n', 'a', '.', 'b', '\n', '$', '\x7b']
    let table : Table := ⟨[(['a', '.', 'b'], .scalar (.bool true))], by decide⟩
    let h : Hover := ⟨['a', '.', 'b'], .scalar (.bool true), .inferred, ⟨5, 8⟩⟩
    at? text 6 table 0 = none ∧ at? text 6 table 1 = some h ∧ at? text 6 table 2 = some h := by
  intro text table h
  have hcertain : certain? text 6 table = none := by
    have hhit : Accessor.at? text 6 = none := by decide +kernel
    simp only [certain?, hhit, Option.bind_none]
  have hrun : (text.seek 6).dottedRun? = some ⟨5, ['a', '.', 'b']⟩ := by decide +kernel
  have hplain : looksStyled ((text.seek 6).lines 0).text = false := by decide +kernel
  have hstyled : looksStyled ((text.seek 6).lines 1).text = true := by decide +kernel
  have hnone : at? text 6 table 0 = none := by
    simp only [at?, hcertain, guessed?, hrun, hplain, Option.bind_some]
    rfl
  have hsome : at? text 6 table 1 = some h := by
    simp only [at?, hcertain, guessed?, hrun, hstyled, Option.bind_some]
    rfl
  obtain ⟨o, -, -, hmono⟩ := at?_inferred_iff text table 6
  exact ⟨hnone, hsome, hmono 1 2 h (by decide) hsome⟩

end Hover

end ThemeLens
