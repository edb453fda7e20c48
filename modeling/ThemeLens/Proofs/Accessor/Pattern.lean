import ThemeLens.Accessor.Pattern
import ThemeLens.Proofs.Text.Nesting

/-!
# What a destructuring pattern binds

The grammar of a pattern, as far as the name `theme` goes. A pattern is its entries with commas
between them (`Pattern.Splits`): the commas that count are those outside all brackets, whatever
stands inside. An entry is a name, perhaps an alias behind the first colon, perhaps a default
behind the first `=` (`Pattern.Entry`). A pattern then *binds* `theme` when the first entry that
takes the name leaves it its name, and *lacks* it when no entry takes it.

Both readings of the implementation, the split and the cuts inside an entry, turn out to be the
only ones the grammar allows, and so `Binding.ofPattern` answers with the grammar.
-/

namespace ThemeLens

open Text (Padded)

theorem isName_themeName : Text.IsName themeName :=
  ⟨by decide, List.all_eq_true.mp (by decide)⟩

namespace Pattern

/-! ## 1. The grammar -/

/-- How many brackets are open behind `t`, if `depth` were open in front of it. -/
def bracketDepth (depth : Nat) (t : Text) : Nat := t.foldl depthAfter depth

/-- No comma of `t` is outside all brackets. -/
def NoOuterComma (depth : Nat) (t : Text) : Prop :=
  ∀ front rest, t = front ++ ',' :: rest → bracketDepth depth front ≠ 0

/-- A pattern and its entries. -/
inductive Splits : Text → List Text → Prop
  | last {entry : Text} (hentry : NoOuterComma 0 entry) : Splits entry [entry]
  | comma {entry rest : Text} {entries : List Text} (hentry : NoOuterComma 0 entry)
      (hdepth : bracketDepth 0 entry = 0) (hrest : Splits rest entries) :
      Splits (entry ++ ',' :: rest) (entry :: entries)

/-- Nothing, or a default value behind its sign. -/
def IsDefault (t : Text) : Prop := t = [] ∨ ∃ value, t = '=' :: value

/-- An entry with its name and its alias, blanks included. -/
inductive Entry : Text → Text → Option Text → Prop
  | short {name tail : Text} (hsign : '=' ∉ name) (hcolon : ':' ∉ name) (htail : IsDefault tail) :
      Entry (name ++ tail) name none
  | long {name target tail : Text} (hsign : '=' ∉ name) (hcolon : ':' ∉ name)
      (halias : '=' ∉ target) (htail : IsDefault tail) :
      Entry (name ++ ':' :: target ++ tail) name (some target)

/-- The entry takes the name `theme`. -/
def TakesTheme (entry : Text) : Prop := ∃ name alias?, Entry entry name alias? ∧ Padded themeName name

/-- The entry takes the name `theme` and gives it no other. -/
def KeepsTheme (entry : Text) : Prop :=
  ∃ name alias?, Entry entry name alias? ∧ Padded themeName name ∧
    ∀ target, alias? = some target → Padded themeName target

/-- The first entry that takes the name `theme` keeps it. -/
def BindsTheme (pattern : Text) : Prop :=
  ∃ front entry back, Splits pattern (front ++ entry :: back) ∧
    (∀ e ∈ front, ¬ TakesTheme e) ∧ KeepsTheme entry

/-- No entry takes the name `theme`. -/
def LacksTheme (pattern : Text) : Prop :=
  ∃ entries, Splits pattern entries ∧ ∀ e ∈ entries, ¬ TakesTheme e

/-! ## 2. The entries -/

theorem noOuterComma_nil (depth : Nat) : NoOuterComma depth [] := by
  intro front rest h
  simp at h

theorem noOuterComma_cons {depth : Nat} {c : Char} {t : Text}
    (hc : ¬ (c = ',' ∧ depth = 0)) :
    NoOuterComma depth (c :: t) ↔ NoOuterComma (depthAfter depth c) t := by
  constructor
  · intro h front rest ht
    exact h (c :: front) rest (by rw [ht]; rfl)
  · intro h front rest ht
    cases front with
    | nil =>
      cases ht
      exact fun hzero => hc ⟨rfl, hzero⟩
    | cons d front =>
      cases ht
      exact h front rest rfl

theorem splitFrom_cons_of_not_outer {depth : Nat} {c : Char} (t : Text)
    (hc : ¬ (c = ',' ∧ depth = 0)) :
    splitFrom depth (c :: t) = pushFirst c (splitFrom (depthAfter depth c) t) := by
  rw [splitFrom, if_neg]
  simpa using hc

theorem NoOuterComma.head {depth : Nat} {c : Char} {t : Text} (h : NoOuterComma depth (c :: t)) :
    ¬ (c = ',' ∧ depth = 0) := by
  intro h
  obtain ⟨rfl, rfl⟩ := h
  exact h [] t rfl rfl

theorem splitFrom_of_noOuterComma {depth : Nat} {entry : Text} (h : NoOuterComma depth entry) :
    splitFrom depth entry = [entry] := by
  induction entry generalizing depth with
  | nil => rfl
  | cons c entry ih =>
    rw [splitFrom_cons_of_not_outer entry h.head, ih ((noOuterComma_cons h.head).mp h)]
    rfl

theorem splitFrom_comma {depth : Nat} {entry : Text} (h : NoOuterComma depth entry)
    (hdepth : bracketDepth depth entry = 0) (rest : Text) :
    splitFrom depth (entry ++ ',' :: rest) = entry :: splitFrom 0 rest := by
  induction entry generalizing depth with
  | nil =>
    obtain rfl : depth = 0 := hdepth
    rfl
  | cons c entry ih =>
    rw [List.cons_append, splitFrom_cons_of_not_outer _ h.head,
      ih ((noOuterComma_cons h.head).mp h) hdepth]
    rfl

/-- Up to its first outer comma, or to its end, a text is one entry. -/
theorem exists_first_entry (depth : Nat) (t : Text) :
    NoOuterComma depth t ∨
      ∃ entry rest, t = entry ++ ',' :: rest ∧ NoOuterComma depth entry ∧
        bracketDepth depth entry = 0 := by
  induction t generalizing depth with
  | nil => exact .inl (noOuterComma_nil depth)
  | cons c t ih =>
    by_cases hc : c = ',' ∧ depth = 0
    · obtain ⟨rfl, rfl⟩ := hc
      exact .inr ⟨[], t, rfl, noOuterComma_nil 0, rfl⟩
    · rcases ih (depthAfter depth c) with h | ⟨entry, rest, rfl, hentry, hdepth⟩
      · exact .inl ((noOuterComma_cons hc).mpr h)
      · exact .inr ⟨c :: entry, rest, rfl, (noOuterComma_cons hc).mpr hentry, hdepth⟩

theorem splits_entries (t : Text) : Splits t (entries t) := by
  induction hlen : t.length using Nat.strongRecOn generalizing t with
  | _ len ih =>
    rcases exists_first_entry 0 t with h | ⟨entry, rest, rfl, hentry, hdepth⟩
    · rw [entries, splitFrom_of_noOuterComma h]
      exact .last h
    · rw [entries, splitFrom_comma hentry hdepth]
      refine .comma hentry hdepth (ih rest.length ?_ rest rfl)
      rw [← hlen, List.length_append, List.length_cons]
      omega

/-- **A pattern splits in one way only.** -/
theorem splits_iff {t : Text} {es : List Text} : Splits t es ↔ es = entries t := by
  constructor
  · intro h
    induction h with
    | last hentry => exact (splitFrom_of_noOuterComma hentry).symm
    | comma hentry hdepth _ ih => rw [entries, splitFrom_comma hentry hdepth, ih, entries]
  · rintro rfl
    exact splits_entries t

/-! ## 3. One entry -/

theorem cut_default {name tail : Text} (hsign : '=' ∉ name) (htail : IsDefault tail) :
    (Text.cut '=' (name ++ tail)).1 = name := by
  rcases htail with rfl | ⟨value, rfl⟩
  · rw [List.append_nil, Text.cut_of_notMem hsign]
  · rw [Text.cut_mark hsign]

theorem Entry.nameAndAlias_eq {entry name : Text} {alias? : Option Text}
    (h : Entry entry name alias?) :
    nameAndAlias entry = (Text.trim name, alias?.map Text.trim) := by
  cases h with
  | short hsign hcolon htail =>
    rw [nameAndAlias, cut_default hsign htail, Text.cut_of_notMem hcolon]
  | long hsign hcolon halias htail =>
    rw [nameAndAlias, cut_default (by simpa using ⟨hsign, halias⟩) htail, Text.cut_mark hcolon]

theorem exists_entry (t : Text) : ∃ name alias?, Entry t name alias? := by
  obtain ⟨body, tail, rfl, hsign, htail⟩ :
      ∃ body tail, t = body ++ tail ∧ '=' ∉ body ∧ IsDefault tail := by
    rcases Text.exists_mark_or_notMem '=' t with h | ⟨front, rest, rfl, h⟩
    · exact ⟨t, [], by simp, h, .inl rfl⟩
    · exact ⟨front, _, rfl, h, .inr ⟨rest, rfl⟩⟩
  rcases Text.exists_mark_or_notMem ':' body with h | ⟨front, rest, rfl, h⟩
  · exact ⟨body, none, .short hsign h htail⟩
  · simp only [List.mem_append, List.mem_cons, not_or] at hsign
    exact ⟨front, some rest, .long hsign.1 h hsign.2.2 htail⟩

theorem trim_eq_themeName_iff {t : Text} : Text.trim t = themeName ↔ Padded themeName t :=
  isName_themeName.trim_eq_iff

theorem takesTheme_iff {entry : Text} : TakesTheme entry ↔ (nameAndAlias entry).1 = themeName := by
  constructor
  · intro h
    obtain ⟨name, alias?, hentry, hname⟩ := h
    rw [hentry.nameAndAlias_eq]
    exact trim_eq_themeName_iff.mpr hname
  · intro h
    obtain ⟨name, alias?, hentry⟩ := exists_entry entry
    rw [hentry.nameAndAlias_eq] at h
    exact ⟨name, alias?, hentry, trim_eq_themeName_iff.mp h⟩

theorem keepsTheme_iff {entry : Text} :
    KeepsTheme entry ↔ (nameAndAlias entry).1 = themeName ∧
      (nameAndAlias entry).2.getD themeName = themeName := by
  have halias (alias? : Option Text) : (alias?.map Text.trim).getD themeName = themeName ↔
      ∀ target, alias? = some target → Padded themeName target := by
    cases alias? with
    | none => simp
    | some target => simp [trim_eq_themeName_iff]
  constructor
  · intro h
    obtain ⟨name, alias?, hentry, hname, hkeep⟩ := h
    rw [hentry.nameAndAlias_eq]
    exact ⟨trim_eq_themeName_iff.mpr hname, (halias alias?).mpr hkeep⟩
  · intro h
    obtain ⟨name, alias?, hentry⟩ := exists_entry entry
    rw [hentry.nameAndAlias_eq] at h
    exact ⟨name, alias?, hentry, trim_eq_themeName_iff.mp h.1, (halias alias?).mp h.2⟩

end Pattern

/-! ## 4. The whole pattern -/

open Pattern

theorem Binding.ofEntries_cons_of_takes {entry : Text} (h : TakesTheme entry)
    (rest : List Text) :
    ofEntries (entry :: rest) = if (nameAndAlias entry).2.getD themeName = themeName then bound
      else renamed := by
  rw [ofEntries]
  simp only [takesTheme_iff.mp h, if_true]

theorem Binding.ofEntries_cons_of_not_takes {entry : Text} (h : ¬ TakesTheme entry)
    (rest : List Text) : ofEntries (entry :: rest) = ofEntries rest := by
  rw [ofEntries]
  simp only [if_neg (mt takesTheme_iff.mpr h)]

theorem Binding.ofEntries_eq_absent_iff {entries : List Text} :
    ofEntries entries = absent ↔ ∀ e ∈ entries, ¬ TakesTheme e := by
  induction entries with
  | nil => simp [ofEntries]
  | cons entry rest ih =>
    by_cases h : TakesTheme entry
    · rw [ofEntries_cons_of_takes h]
      constructor
      · intro habs
        split at habs <;> cases habs
      · intro hall
        exact absurd h (hall entry List.mem_cons_self)
    · rw [ofEntries_cons_of_not_takes h, ih]
      simp [h]

theorem Binding.ofEntries_eq_bound_iff {entries : List Text} :
    ofEntries entries = bound ↔ ∃ front entry back, entries = front ++ entry :: back ∧
      (∀ e ∈ front, ¬ TakesTheme e) ∧ KeepsTheme entry := by
  induction entries with
  | nil => simp [ofEntries]
  | cons entry rest ih =>
    by_cases h : TakesTheme entry
    · rw [ofEntries_cons_of_takes h]
      constructor
      · intro hbound
        split at hbound
        · rename_i hkeep
          exact ⟨[], entry, rest, rfl, by simp, keepsTheme_iff.mpr ⟨takesTheme_iff.mp h, hkeep⟩⟩
        · cases hbound
      · intro h
        obtain ⟨front, other, back, heq, hfront, hkeep⟩ := h
        cases front with
        | nil =>
          cases heq
          rw [if_pos (keepsTheme_iff.mp hkeep).2]
        | cons e front =>
          cases heq
          exact absurd h (hfront entry List.mem_cons_self)
    · rw [ofEntries_cons_of_not_takes h, ih]
      constructor
      · intro h
        obtain ⟨front, other, back, rfl, hfront, hkeep⟩ := h
        refine ⟨entry :: front, other, back, rfl, fun e he => ?_, hkeep⟩
        rcases List.mem_cons.mp he with rfl | he
        · exact h
        · exact hfront e he
      · intro h
        obtain ⟨front, other, back, heq, hfront, hkeep⟩ := h
        cases front with
        | nil =>
          cases heq
          exact absurd (takesTheme_iff.mpr (keepsTheme_iff.mp hkeep).1) h
        | cons e front =>
          cases heq
          exact ⟨front, other, back, rfl, fun e he => hfront e (List.mem_cons_of_mem _ he), hkeep⟩

theorem Binding.ofPattern_eq_absent_iff {pattern : Text} :
    ofPattern pattern = absent ↔ LacksTheme pattern := by
  rw [ofPattern, ofEntries_eq_absent_iff, LacksTheme]
  simp only [splits_iff, exists_eq_left]

theorem Binding.ofPattern_eq_bound_iff {pattern : Text} :
    ofPattern pattern = bound ↔ BindsTheme pattern := by
  rw [ofPattern, ofEntries_eq_bound_iff, BindsTheme]
  simp only [splits_iff, eq_comm]

end ThemeLens
