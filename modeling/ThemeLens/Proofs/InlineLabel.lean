import Mathlib.Data.List.Forall2
import ThemeLens.Proofs.Accessor.Scan
import ThemeLens.Proofs.Cancellation
import ThemeLens.Settings

/-!
# Labels and what they are labels of

The labels of a window are made in one go, from an accessor to a label or to nothing. Here they are
taken apart again: which accessors get a label, and what each label says. The accessors that count
are the first ones, as many as polls say no; of these the ones whose path has a value that fits in a
line; and their labels come in the same order, one for each (`eq_within_iff`).

A poll is spent on every accessor, also on one that gets no label, so where a scan is stopped does
not depend on the table. That is why a scan that is stopped earlier has a beginning of the labels of
one that is stopped later: it has a beginning of the accessors, and the rest happens to each of them
alone.
-/

namespace ThemeLens.InlineLabel

variable {text shown : Text} {width : Nat} {window : Span} {table : Table} {settings : Settings}
  {style : Style} {polls polls' : Polls} {a : Accessor} {l : InlineLabel} {value : Scalar}

/-- What a label shows of a value, with at most `width` characters of a string. -/
inductive Displays (width : Nat) : Scalar → Text → Prop
  | whole {s : Text} : s.length ≤ width → Displays width (.string s) s
  | cut {first rest : Text} : first.length = width → rest ≠ [] →
      Displays width (.string (first ++ rest)) (first ++ ellipsis)
  | number (n : Json.Num) : Displays width (.number n) n.text
  | bool (b : Bool) : Displays width (.bool b) (Scalar.bool b).text

/-- A label right behind the path of an accessor, with the value that the table has for it. -/
structure IsLabelOf (table : Table) (settings : Settings) (a : Accessor) (l : InlineLabel) :
    Prop where
  offset_eq : l.offset = a.stop
  path_eq : l.path = a.path
  get?_path : table.get? a.path = some (.scalar l.value)
  exists_shown : ∃ shown, Displays settings.maxLabelWidth l.value shown ∧
    l.label = settings.labelLead ++ shown

/-- Does the table have a value for the path that fits in a line? -/
def isLabelled (table : Table) (a : Accessor) : Bool := (table.get? a.path).any Value.isScalar

/-! ## 1. The label of an accessor -/

theorem displays_iff : Displays width value shown ↔ shown = display width value := by
  constructor
  · intro h
    cases h with
    | whole hle => exact (if_pos hle).symm
    | @cut first rest hwidth hrest =>
      have hlong : ¬ (first ++ rest).length ≤ width := by
        have hpos := List.length_pos_iff.mpr hrest
        rw [List.length_append]
        omega
      rw [display, shorten, if_neg hlong, ← hwidth, List.take_left]
    | number _ => rfl
    | bool _ => rfl
  · rintro rfl
    cases value with
    | string s =>
      rw [display, shorten]
      split
      · exact .whole ‹_›
      · have hlong : width < s.length := Nat.lt_of_not_le ‹_›
        have hcut := Displays.cut (List.length_take_of_le (Nat.le_of_lt hlong))
          (mt List.drop_eq_nil_iff.mp (Nat.not_le_of_lt hlong))
        rwa [List.take_append_drop] at hcut
    | number n => exact .number n
    | bool b => exact .bool b

theorem forAccessor?_eq_some_iff :
    forAccessor? table style a = some l ↔
      table.get? a.path = some (.scalar l.value) ∧
        l = ⟨a.stop, style.lead ++ display style.width l.value, a.path, l.value⟩ := by
  unfold forAccessor?
  constructor
  · intro h
    split at h
    · cases h
      exact ⟨‹_›, rfl⟩
    · cases h
  · rintro ⟨hvalue, hl⟩
    rw [hvalue, hl]

theorem offset_of_forAccessor? (h : forAccessor? table style a = some l) : l.offset = a.stop := by
  rw [(forAccessor?_eq_some_iff.mp h).2]

theorem isSome_forAccessor? (table : Table) (style : Style) (a : Accessor) :
    (forAccessor? table style a).isSome = isLabelled table a := by
  unfold forAccessor? isLabelled
  match table.get? a.path with
  | some (.scalar _) => rfl
  | some (.list _) => rfl
  | some (.function _) => rfl
  | none => rfl

/-- **A label is made as it is described.** -/
theorem isLabelOf_iff :
    IsLabelOf table settings a l ↔ forAccessor? table settings.labelStyle a = some l := by
  rw [forAccessor?_eq_some_iff]
  constructor
  · rintro ⟨hoffset, hpath, hvalue, shown, hshown, hlabel⟩
    refine ⟨hvalue, ?_⟩
    rw [displays_iff.mp hshown] at hlabel
    show l = ⟨a.stop, settings.labelLead ++ display settings.maxLabelWidth l.value, a.path, l.value⟩
    rw [← hlabel, ← hoffset, ← hpath]
  · rintro ⟨hvalue, hl⟩
    refine ⟨?_, ?_, hvalue, _, displays_iff.mpr rfl, ?_⟩
    all_goals rw [hl]
    rfl

/-! ## 2. The labels of a window -/

theorem eq_filterMap_iff {α β : Type} {f : α → Option β} {items : List α} {made : List β} :
    made = items.filterMap f ↔
      List.Forall₂ (fun item x => f item = some x) (items.filter fun item => (f item).isSome)
        made := by
  have hsome : Function.Injective (List.map (some : β → Option β)) :=
    List.map_injective_iff.mpr fun _ _ => Option.some.inj
  rw [← hsome.eq_iff, List.map_filterMap_some_eq_filter_map_isSome, List.filter_map, eq_comm,
    ← List.forall₂_eq_eq_eq, List.forall₂_map_left_iff, List.forall₂_map_right_iff]
  rfl

theorem labels_pairwise (text : Text) (window : Span) (table : Table) (style : Style)
    (polls : Polls) :
    (within text window table style polls).Pairwise (·.offset < ·.offset) := by
  have hserved := (Accessor.scan_pairwise window 0 [] text).sublist
    (Polls.servedFrom_isPrefix polls 0 _).sublist
  refine hserved.filterMap _ ?_
  intro a a' hroom l hl l' hl'
  have hpos := Accessor.keyword_size_pos
  rw [offset_of_forAccessor? hl, offset_of_forAccessor? hl', Accessor.stop, Accessor.stop]
  rw [Accessor.stop] at hroom
  omega

theorem within_isPrefix_within
    (h : polls.granted (Accessor.within text window).length ≤
      polls'.granted (Accessor.within text window).length) :
    within text window table style polls <+: within text window table style polls' :=
  (Polls.served_isPrefix_served h).filterMap _

theorem within_isPrefix_never (polls : Polls) :
    within text window table style polls <+: within text window table style .never := by
  rw [within, within, Polls.served_never]
  exact (Polls.servedFrom_isPrefix polls 0 _).filterMap _

/-- **What the labels of a window are**: those of the accessors served that have a value to show, in
    the order of the text. A scan that is stopped earlier has a beginning of the labels of one that
    is stopped later, or not at all. -/
theorem eq_within_iff (text : Text) (window : Span) (table : Table) (settings : Settings)
    (polls : Polls) :
    let found := Accessor.within text window
    (∀ labels, labels = within text window table settings.labelStyle polls ↔
      List.Forall₂ (IsLabelOf table settings)
        ((found.take (polls.granted found.length)).filter (isLabelled table)) labels) ∧
    (within text window table settings.labelStyle polls).Pairwise (·.offset < ·.offset) ∧
    (∀ polls', polls.granted found.length ≤ polls'.granted found.length →
      within text window table settings.labelStyle polls <+:
        within text window table settings.labelStyle polls') ∧
    within text window table settings.labelStyle polls <+:
      within text window table settings.labelStyle .never := by
  intro found
  refine ⟨?_, labels_pairwise _ _ _ _ _, ?_, within_isPrefix_never polls⟩
  · intro labels
    rw [within, Polls.served_eq_take, eq_filterMap_iff]
    simp only [isSome_forAccessor?, ← isLabelOf_iff]
    rfl
  · intro polls' hle
    exact within_isPrefix_within hle

/-- In `theme.s theme.x theme.b theme.s` there are four accessors, and the second has no value. With
    three of them served, two are labelled, and the string is cut after three characters. -/
theorem eq_within_iff_afterThree :
    let text : Text := "theme.s theme.x theme.b theme.s".toList
    let table : Table := ⟨[(['s'], .scalar (.string "méta".toList)), (['b'], .scalar (.bool true))],
      by decide⟩
    let settings : Settings := ⟨3, 0, [], "= ".toList⟩
    within text ⟨0, text.size⟩ table settings.labelStyle (.after 3) =
        [⟨7, "= mét...".toList, ['s'], .string "méta".toList⟩,
          ⟨23, "= true".toList, ['b'], .bool true⟩] ∧
      within text ⟨0, text.size⟩ table settings.labelStyle (.after 1) <+:
        within text ⟨0, text.size⟩ table settings.labelStyle (.after 3) := by
  intro text table settings
  let window : Span := ⟨0, text.size⟩
  obtain ⟨hlabels, -, -, -⟩ := eq_within_iff text window table settings (.after 3)
  obtain ⟨-, -, hmono, -⟩ := eq_within_iff text window table settings (.after 1)
  have hserved : (Accessor.within text window).take
      (Polls.granted (.after 3) (Accessor.within text window).length) =
        [⟨0, .plain, 6, ['s']⟩, ⟨8, .plain, 14, ['x']⟩, ⟨16, .plain, 22, ['b']⟩] := by
    decide +kernel
  refine ⟨((hlabels _).mpr ?_).symm, hmono _ (by decide +kernel)⟩
  have hcut : Displays 3 (.string "méta".toList) "mét...".toList :=
    @Displays.cut 3 "mét".toList ['a'] rfl (List.cons_ne_nil _ _)
  rw [hserved]
  exact .cons ⟨rfl, rfl, rfl, _, hcut, rfl⟩ (.cons ⟨rfl, rfl, rfl, _, .bool true, rfl⟩ .nil)

end ThemeLens.InlineLabel
