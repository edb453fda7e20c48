import ThemeLens.Proofs.Hover.Span
import ThemeLens.Proofs.InlineLabel

/-!
# Labels against hovers

A label stands right behind the path of an accessor and shows its value; a hover on the last
character of the path, or right behind it, shows a value too. They come about in different ways. The
label is made in one pass over the whole text, with the path as it was read. The hover finds the
accessor again from the cursor, takes as much of the path as the cursor reaches into and drops the
dot at its end, and if that leads nowhere it guesses.

They agree all the same (`mem_within_iff_hover`), because the cursor behind a path has the whole path
before it (`Accessor.at?_stop`), so nothing is cut but a dot at the end. That dot is the one
difference: a path that is still being typed, `theme.a.`, is labelled only by a table that has the
path with its dot, while the hover is about `a`.
-/

namespace ThemeLens

/-! ## 1. The cursor behind a path -/

namespace Hover

variable {text path : Text} {offset radius : Nat} {table : Table} {value : Value} {h : Hover}
  {a : Accessor}

/-- With all of a path typed, only the dot at its end is left out. -/
theorem pathThrough_length (path : Text) :
    pathThrough path path.length = path.rdropWhile (· == '.') := by
  simp only [pathThrough, List.take_length, List.drop_length, List.takeWhile_nil, List.append_nil]
  rfl

theorem at?_eq_some_high_iff :
    at? text offset table radius = some h ∧ h.confidence = .high ↔
      certain? text offset table = some h := by
  constructor
  · intro ⟨hh, hhigh⟩
    rcases Option.or_eq_some_iff.mp hh with hcertain | ⟨-, hguessed⟩
    · exact hcertain
    · -- a guess says that it is one
      obtain ⟨run, -, hvalue⟩ := Option.bind_eq_some_iff.mp hguessed
      obtain ⟨value, -, hstyled⟩ := Option.bind_eq_some_iff.mp hvalue
      obtain ⟨-, rfl⟩ := (Option.ite_none_right_eq_some.mp hstyled).imp_right Option.some.inj
      cases hhigh
  · intro hh
    refine ⟨Option.or_eq_some_iff.mpr (.inl hh), ?_⟩
    obtain ⟨hit, -, hvalue⟩ := Option.bind_eq_some_iff.mp hh
    obtain ⟨value, -, rfl⟩ := Option.map_eq_some_iff.mp hvalue
    rfl

/-- **What a hover says right behind a path**: the value that the table has for it, without a dot at
    its end. -/
theorem certain?_stop (ha : a ∈ Accessor.within text ⟨0, text.size⟩) (table : Table) :
    certain? text a.stop table =
      let path : Text := a.path.rdropWhile (· == '.')
      (table.get? path).map fun value =>
        ⟨path, value, .high, ⟨a.pathStart, a.pathStart + path.size⟩⟩ := by
  rw [certain?, Accessor.at?_stop ha, Option.bind_some]
  simp only [pathThrough_length]

theorem of_certain?_stop (ha : a ∈ Accessor.within text ⟨0, text.size⟩)
    (hh : certain? text a.stop table = some h) :
    h.path = a.path.rdropWhile (· == '.') ∧ table.get? h.path = some h.value ∧
      h.span = ⟨a.pathStart, a.pathStart + h.path.size⟩ := by
  rw [certain?_stop ha] at hh
  obtain ⟨value, hvalue, rfl⟩ := Option.map_eq_some_iff.mp hh
  exact ⟨rfl, hvalue, rfl⟩

end Hover

/-! ## 2. Labels -/

namespace InlineLabel

variable {text path : Text} {offset : Nat} {table : Table} {style : Style} {a : Accessor}
  {l : InlineLabel} {value : Value}

/-- There is a label at a place with a path and a value when an accessor ends there with the path,
    the table has the value for it, and the value fits in a line. -/
theorem exists_mem_within_iff {window : Span} :
    (∃ l ∈ within text window table style .never,
        l.offset = offset ∧ l.path = path ∧ .scalar l.value = value) ↔
      table.get? path = some value ∧ value.isScalar = true ∧
        ∃ a ∈ Accessor.within text window, a.stop = offset ∧ a.path = path := by
  rw [within, Polls.served_never]
  simp only [List.mem_filterMap]
  constructor
  · rintro ⟨l, ⟨a, ha, hl⟩, rfl, rfl, rfl⟩
    obtain ⟨hvalue, hl⟩ := forAccessor?_eq_some_iff.mp hl
    rw [hl]
    exact ⟨hvalue, rfl, a, ha, rfl, rfl⟩
  · rintro ⟨hvalue, hscalar, a, ha, rfl, rfl⟩
    cases value with
    | scalar s =>
      let l : InlineLabel := ⟨a.stop, style.lead ++ display style.width s, a.path, s⟩
      exact ⟨l, ⟨a, ha, forAccessor?_eq_some_iff.mpr ⟨hvalue, rfl⟩⟩, rfl, rfl, rfl⟩
    | list _ => cases hscalar
    | function _ => cases hscalar

/-- **Labels agree with hovers.** A label, unless its path ends in a dot, is at a place exactly when
    the hover there is certain and has the same path and value, the value fits in a line, and the
    place is where an accessor with that path ends. What the hover points at then ends there too. -/
theorem mem_within_iff_hover (text : Text) (table : Table) (settings : Settings) (offset : Nat) :
    (∀ path value,
      (∃ l ∈ within text ⟨0, text.size⟩ table settings.labelStyle .never,
          l.offset = offset ∧ l.path = path ∧ .scalar l.value = value) ∧
          path.getLast? ≠ some '.' ↔
        (∃ h, Hover.at? text offset table settings.hoverLineWindow = some h ∧
          h.confidence = .high ∧ h.path = path ∧ h.value = value) ∧ value.isScalar = true ∧
          ∃ a ∈ Accessor.within text ⟨0, text.size⟩, a.stop = offset ∧ a.path = path) ∧
    ∀ h, Hover.at? text offset table settings.hoverLineWindow = some h → h.confidence = .high →
      (∃ a ∈ Accessor.within text ⟨0, text.size⟩, a.stop = offset ∧ a.path = h.path) →
      h.span.stop = offset := by
  refine ⟨?_, ?_⟩
  · intro path value
    rw [exists_mem_within_iff]
    constructor
    · rintro ⟨⟨hvalue, hscalar, a, ha, rfl, rfl⟩, hdot⟩
      have hcertain := Hover.certain?_stop ha table
      simp only [DottedPath.rdropWhile_dot_eq_self_iff.mpr hdot, hvalue, Option.map_some] at hcertain
      obtain ⟨hat, hhigh⟩ := Hover.at?_eq_some_high_iff.mpr hcertain
      exact ⟨⟨_, hat, hhigh, rfl, rfl⟩, hscalar, a, ha, rfl, rfl⟩
    · rintro ⟨⟨h, hat, hhigh, rfl, rfl⟩, hscalar, a, ha, rfl, hpath⟩
      have hcertain := Hover.at?_eq_some_high_iff.mp ⟨hat, hhigh⟩
      obtain ⟨htrimmed, hvalue, -⟩ := Hover.of_certain?_stop ha hcertain
      rw [hpath] at htrimmed
      exact ⟨⟨hvalue, hscalar, a, ha, rfl, hpath⟩,
        DottedPath.rdropWhile_dot_eq_self_iff.mp htrimmed.symm⟩
  · rintro h hat hhigh ⟨a, ha, rfl, hpath⟩
    have hcertain := Hover.at?_eq_some_high_iff.mp ⟨hat, hhigh⟩
    obtain ⟨-, -, hspan⟩ := Hover.of_certain?_stop ha hcertain
    rw [hspan, ← hpath]
    rfl

/-- Behind `é theme.a.b` there is a label, so there is a hover, and its span ends with the label. -/
theorem mem_within_iff_hover_wideChar :
    let text : Text := ['é', ' ', 't', 'h', 'e', 'm', 'e', '.', 'a', '.', 'b']
    let table : Table := ⟨[(['a', '.', 'b'], .scalar (.bool true))], by decide⟩
    (∃ l ∈ within text ⟨0, text.size⟩ table Settings.default.labelStyle .never,
      l.offset = 12 ∧ l.path = ['a', '.', 'b'] ∧ .scalar l.value = Value.scalar (.bool true)) ∧
    ∃ h, Hover.at? text 12 table Settings.default.hoverLineWindow = some h ∧
      h.confidence = .high ∧ h.path = ['a', '.', 'b'] ∧ h.value = .scalar (.bool true) ∧
      h.span.stop = 12 := by
  intro text table
  let a : Accessor := ⟨3, .plain, 9, ['a', '.', 'b']⟩
  have ha : a ∈ Accessor.within text ⟨0, text.size⟩ := by decide +kernel
  have hlabel : ∃ l ∈ within text ⟨0, text.size⟩ table Settings.default.labelStyle .never,
      l.offset = 12 ∧ l.path = ['a', '.', 'b'] ∧ .scalar l.value = Value.scalar (.bool true) :=
    exists_mem_within_iff.mpr ⟨rfl, rfl, a, ha, rfl, rfl⟩
  obtain ⟨hagree, hspan⟩ := mem_within_iff_hover text table Settings.default 12
  obtain ⟨⟨h, hat, hhigh, hpath, hvalue⟩, -, -⟩ := (hagree _ _).mp ⟨hlabel, by decide⟩
  exact ⟨hlabel, h, hat, hhigh, hpath, hvalue,
    hspan h hat hhigh ⟨a, ha, rfl, hpath.symm⟩⟩

end InlineLabel

end ThemeLens
