import ThemeLens.Proofs.Accessor.Pattern

/-!
# Patterns as they are written

`Pattern` says what the reader makes of any text between two braces. This file is about the texts that
somebody writes there: properties with commas between them, each a name, perhaps an alias, perhaps a
default (`Property`). Aliases may be patterns again, and defaults are any text with its brackets in
pairs, so both may hold commas, colons, signs and the name of the theme.

None of this misleads the reader. Splitting counts brackets of all kinds together and never below zero;
in a text whose brackets pair up, kind by kind, the count is what is open of each kind, and a comma that
it finds at zero is outside all brackets (`Closing.count`). Behind the name of a property a colon comes
first if there is an alias, and what is read as the alias begins as the alias does, wherever a default
inside it cuts it off. So the first property with the name `theme` decides, and nothing that is nested
does (`ofPattern_eq_ofProperties`).
-/

namespace ThemeLens

open Text (Balanced Closes IsBlank IsName Padded balanced_iff_closes balanced_of_plain
  not_balanced_cons)

namespace Pattern

variable {a b d : Nat} {s t inner target entry name : Text} {alias? : Option Text} {es : List Text}

/-! ## 1. Brackets of three kinds -/

/-- The brackets of each kind pair up. Two kinds may cross, so this is less than proper nesting. -/
structure Bracketed (t : Text) : Prop where
  braces : Balanced '{' '}' t
  squares : Balanced '[' ']' t
  parens : Balanced '(' ')' t

/-- The brackets pair up, and every comma has one open in front of it. -/
structure IsSingle (t : Text) : Prop where
  bracketed : Bracketed t
  inside : ∀ front rest, t = front ++ ',' :: rest → ¬ Bracketed front

/-- So many brackets of each kind are open in front of `t`, and `t` closes them. -/
structure Closing (a b d : Nat) (t : Text) : Prop where
  braces : Closes '{' '}' a t
  squares : Closes '[' ']' b t
  parens : Closes '(' ')' d t

theorem bracketed_iff : Bracketed t ↔ Closing 0 0 0 t := by
  have hbraces := balanced_iff_closes (t := t) (by decide : '{' ≠ '}')
  have hsquares := balanced_iff_closes (t := t) (by decide : '[' ≠ ']')
  have hparens := balanced_iff_closes (t := t) (by decide : '(' ≠ ')')
  constructor
  · intro h
    exact ⟨hbraces.mp h.braces, hsquares.mp h.squares, hparens.mp h.parens⟩
  · intro h
    exact ⟨hbraces.mpr h.braces, hsquares.mpr h.squares, hparens.mpr h.parens⟩

theorem closing_nil : Closing a b d [] ↔ a = 0 ∧ b = 0 ∧ d = 0 := by
  constructor
  · intro h
    exact ⟨h.braces, h.squares, h.parens⟩
  · rintro ⟨ha, hb, hd⟩
    exact ⟨ha, hb, hd⟩

/-- How many brackets of one kind are open behind a character. -/
def openAfter (opener closer : Char) (depth : Nat) (c : Char) : Nat :=
  if c = opener then depth + 1 else if c = closer then depth - 1 else depth

theorem depthAfter_eq {c : Char} (ha : ¬ (c = '}' ∧ a = 0)) (hb : ¬ (c = ']' ∧ b = 0))
    (hd : ¬ (c = ')' ∧ d = 0)) :
    depthAfter (a + b + d) c =
      openAfter '{' '}' a c + openAfter '[' ']' b c + openAfter '(' ')' d c := by
  by_cases hbrackets : c ∈ ['{', '[', '(', '}', ']', ')']
  · simp only [List.mem_cons, List.not_mem_nil, or_false] at hbrackets
    rcases hbrackets with rfl | rfl | rfl | rfl | rfl | rfl
    · show a + b + d + 1 = (a + 1) + b + d
      omega
    · show a + b + d + 1 = a + (b + 1) + d
      omega
    · show a + b + d + 1 = a + b + (d + 1)
      omega
    · have hopen : a ≠ 0 := fun hzero => ha ⟨rfl, hzero⟩
      show a + b + d - 1 = (a - 1) + b + d
      omega
    · have hopen : b ≠ 0 := fun hzero => hb ⟨rfl, hzero⟩
      show a + b + d - 1 = a + (b - 1) + d
      omega
    · have hopen : d ≠ 0 := fun hzero => hd ⟨rfl, hzero⟩
      show a + b + d - 1 = a + b + (d - 1)
      omega
  · simp only [List.mem_cons, List.not_mem_nil, or_false, not_or] at hbrackets
    simp [depthAfter, openAfter, hbrackets]

/-- One character opens or closes a bracket of one kind, or none, and the common count goes along. -/
theorem Closing.step {c : Char} (h : Closing a b d (c :: t)) :
    ∃ a' b' d', depthAfter (a + b + d) c = a' + b' + d' ∧
      ∀ s, Closing a b d (c :: s) ↔ Closing a' b' d' s := by
  have ha : ¬ (c = '}' ∧ a = 0) := by
    rintro ⟨rfl, rfl⟩
    exact Text.not_closes_zero_closer h.braces
  have hb : ¬ (c = ']' ∧ b = 0) := by
    rintro ⟨rfl, rfl⟩
    exact Text.not_closes_zero_closer h.squares
  have hd : ¬ (c = ')' ∧ d = 0) := by
    rintro ⟨rfl, rfl⟩
    exact Text.not_closes_zero_closer h.parens
  have hbraces (s : Text) := Text.closes_cons_iff (t := s) (by decide : '{' ≠ '}') ha
  have hsquares (s : Text) := Text.closes_cons_iff (t := s) (by decide : '[' ≠ ']') hb
  have hparens (s : Text) := Text.closes_cons_iff (t := s) (by decide : '(' ≠ ')') hd
  refine ⟨_, _, _, depthAfter_eq ha hb hd, ?_⟩
  intro s
  constructor
  · intro h
    exact ⟨(hbraces s).mp h.braces, (hsquares s).mp h.squares, (hparens s).mp h.parens⟩
  · intro h
    exact ⟨(hbraces s).mpr h.braces, (hsquares s).mpr h.squares, (hparens s).mpr h.parens⟩

/-- **The common count** of a text whose brackets pair up finds every comma inside, and ends at zero. -/
theorem Closing.count (h : Closing a b d t)
    (hinside : ∀ front rest, t = front ++ ',' :: rest → ¬ Closing a b d front) :
    NoOuterComma (a + b + d) t ∧ bracketDepth (a + b + d) t = 0 := by
  induction t generalizing a b d with
  | nil =>
    obtain ⟨rfl, rfl, rfl⟩ := closing_nil.mp h
    exact ⟨noOuterComma_nil _, rfl⟩
  | cons c t ih =>
    obtain ⟨a', b', d', hdepth, hstep⟩ := h.step
    have hhead : ¬ (c = ',' ∧ a + b + d = 0) := by
      rintro ⟨rfl, hzero⟩
      exact hinside [] t rfl (closing_nil.mpr (by omega))
    have hrest := ih ((hstep t).mp h) (by
      rintro front rest rfl hfront
      exact hinside (c :: front) rest rfl ((hstep front).mpr hfront))
    rw [noOuterComma_cons hhead, hdepth]
    refine ⟨hrest.1, ?_⟩
    show bracketDepth (depthAfter (a + b + d) c) t = 0
    rw [hdepth]
    exact hrest.2

theorem IsSingle.count (h : IsSingle t) : NoOuterComma 0 t ∧ bracketDepth 0 t = 0 := by
  refine Closing.count (bracketed_iff.mp h.bracketed) ?_
  intro front rest ht hfront
  exact h.inside front rest ht (bracketed_iff.mpr hfront)

/-! ## 2. Splitting and joining -/

theorem Splits.intercalate (h : Splits t es) : [','].intercalate es = t := by
  induction h with
  | last _ => exact List.intercalate_singleton
  | comma _ _ hrest ih =>
    cases hrest with
    | last _ => simp [List.intercalate_cons_cons]
    | comma _ _ _ =>
      rw [List.intercalate_cons_cons, ih]
      simp

theorem splits_intercalate (hne : es ≠ []) (h : ∀ e ∈ es, IsSingle e) :
    Splits ([','].intercalate es) es := by
  induction es with
  | nil => exact absurd rfl hne
  | cons e es ih =>
    obtain ⟨hcomma, hdepth⟩ := (h e List.mem_cons_self).count
    cases es with
    | nil =>
      rw [List.intercalate_singleton]
      exact .last hcomma
    | cons e' es =>
      have hrest := ih (List.cons_ne_nil _ _) fun e he => h e (List.mem_cons_of_mem _ he)
      rw [List.intercalate_cons_cons, List.append_assoc, List.singleton_append]
      exact .comma hcomma hdepth hrest

/-! ## 3. What has its brackets in pairs -/

theorem Bracketed.append (hs : Bracketed s) (ht : Bracketed t) : Bracketed (s ++ t) :=
  ⟨hs.braces.append ht.braces, hs.squares.append ht.squares, hs.parens.append ht.parens⟩

/-- A bracketed beginning says nothing about the brackets of the rest. -/
theorem Bracketed.of_append (hs : Bracketed s) (h : Bracketed (s ++ t)) : Bracketed t := by
  rw [bracketed_iff] at h ⊢
  exact ⟨(hs.braces.closes_append (by decide)).mp h.braces,
    (hs.squares.closes_append (by decide)).mp h.squares,
    (hs.parens.closes_append (by decide)).mp h.parens⟩

theorem IsSingle.append (hs : IsSingle s) (ht : IsSingle t) : IsSingle (s ++ t) where
  bracketed := hs.bracketed.append ht.bracketed
  inside := by
    intro front rest h hfront
    rcases List.append_eq_append_iff.mp h with ⟨m, rfl, hm⟩ | ⟨m, hm, hrest⟩
    · exact ht.inside m rest hm (hs.bracketed.of_append hfront)
    · cases m with
      | nil =>
        rw [List.append_nil] at hm
        exact ht.inside [] rest hrest.symm ⟨.nil, .nil, .nil⟩
      | cons c m =>
        cases hrest
        exact hs.inside front m hm hfront

/-- The characters that splitting looks at. -/
def marks : List Char := ['{', '}', '[', ']', '(', ')', ',']

theorem isSingle_of_plain (h : ∀ c ∈ t, c ∉ marks) : IsSingle t where
  bracketed := by
    refine ⟨balanced_of_plain ?_, balanced_of_plain ?_, balanced_of_plain ?_⟩
    all_goals
      intro c hc
      constructor
      all_goals
        rintro rfl
        exact h _ hc (by decide)
  inside := by
    rintro front rest rfl
    exact absurd (by decide) (h ',' (List.mem_append_right _ List.mem_cons_self))

/-- A pattern inside a pattern: an object's or an array's. -/
inductive IsNested : Text → Prop
  | object {inner : Text} (h : Bracketed inner) : IsNested ('{' :: inner ++ ['}'])
  | array {inner : Text} (h : Bracketed inner) : IsNested ('[' :: inner ++ [']'])

/-- Where a comma stands in a bracket, the text of the bracket in front of it is known. -/
theorem exists_of_nested {opener closer : Char} {front rest : Text} (hopen : opener ≠ ',')
    (hclose : closer ≠ ',') (h : opener :: inner ++ [closer] = front ++ ',' :: rest) :
    ∃ s t, front = opener :: s ∧ inner = s ++ t := by
  cases front with
  | nil =>
    cases h
    exact absurd rfl hopen
  | cons c s =>
    rw [List.cons_append, List.cons_append, List.cons_eq_cons] at h
    obtain ⟨rfl, h⟩ := h
    rcases List.append_eq_append_iff.mp h with ⟨m, rfl, hm⟩ | ⟨m, rfl, -⟩
    · cases m with
      | nil =>
        cases hm
        exact absurd rfl hclose
      | cons e m => cases m <;> cases hm
    · exact ⟨s, m, rfl, rfl⟩

theorem IsNested.isSingle (h : IsNested t) : IsSingle t := by
  cases h with
  | object h =>
    refine ⟨⟨.nest h.braces .nil, ?_, ?_⟩, ?_⟩
    · exact h.squares.enclosed (by decide) (by decide)
    · exact h.parens.enclosed (by decide) (by decide)
    · intro front rest heq hfront
      obtain ⟨s, t, rfl, rfl⟩ := exists_of_nested (by decide) (by decide) heq
      exact not_balanced_cons (by decide) h.braces hfront.braces
  | array h =>
    refine ⟨⟨?_, .nest h.squares .nil, ?_⟩, ?_⟩
    · exact h.braces.enclosed (by decide) (by decide)
    · exact h.parens.enclosed (by decide) (by decide)
    · intro front rest heq hfront
      obtain ⟨s, t, rfl, rfl⟩ := exists_of_nested (by decide) (by decide) heq
      exact not_balanced_cons (by decide) h.squares hfront.squares

/-! ## 4. Properties -/

/-- Nothing, or a default behind its sign. -/
def IsDefaulted (t : Text) : Prop := t = [] ∨ ∃ value, t = '=' :: value ∧ IsSingle value

/-- How a property with a name, and perhaps an alias, is written. -/
inductive Written : Text → Text → Option Text → Prop
  | short {name front tail : Text} (hname : IsName name) (hfront : Padded name front)
      (htail : IsDefaulted tail) : Written (front ++ tail) name none
  | long {name front target behind tail : Text} (hname : IsName name) (hfront : Padded name front)
      (htarget : IsName target ∨ IsNested target) (hbehind : Padded target behind)
      (htail : IsDefaulted tail) : Written (front ++ ':' :: behind ++ tail) name (some target)

/-- A property as it is written, with the name and the alias that it has. -/
structure Property where
  text : Text
  name : Text
  alias? : Option Text
  written : Written text name alias?

theorem of_mem_marks {c : Char} (h : c ∈ marks) : isIdent c = false ∧ isBlank c = false := by
  have hall : marks.all (fun c => !isIdent c && !isBlank c) = true := by decide
  simpa using List.all_eq_true.mp hall c h

theorem isSingle_of_isName (h : IsName name) : IsSingle name :=
  isSingle_of_plain fun c hc hmark =>
    Bool.false_ne_true ((of_mem_marks hmark).1.symm.trans (h.2 c hc))

theorem isSingle_of_isBlank (h : IsBlank t) : IsSingle t :=
  isSingle_of_plain fun c hc hmark =>
    Bool.false_ne_true ((of_mem_marks hmark).2.symm.trans (h c hc))

theorem isSingle_of_padded (hword : IsSingle s) (h : Padded s t) : IsSingle t := by
  obtain ⟨blank₁, blank₂, h₁, h₂, rfl⟩ := h
  exact ((isSingle_of_isBlank h₁).append hword).append (isSingle_of_isBlank h₂)

theorem IsDefaulted.isSingle (h : IsDefaulted t) : IsSingle t := by
  rcases h with rfl | ⟨value, rfl, hvalue⟩
  · exact isSingle_of_plain (by simp)
  · exact (isSingle_of_plain (t := ['=']) (by simp [marks])).append hvalue

theorem IsDefaulted.isDefault (h : IsDefaulted t) : IsDefault t := by
  rcases h with rfl | ⟨value, rfl, -⟩
  · exact .inl rfl
  · exact .inr ⟨value, rfl⟩

theorem Written.isSingle (h : Written entry name alias?) : IsSingle entry := by
  cases h with
  | short hname hfront htail =>
    exact (isSingle_of_padded (isSingle_of_isName hname) hfront).append htail.isSingle
  | long hname hfront htarget hbehind htail =>
    have hcolon : IsSingle [':'] := isSingle_of_plain (by simp [marks])
    have htarget := htarget.elim isSingle_of_isName IsNested.isSingle
    have hfront := isSingle_of_padded (isSingle_of_isName hname) hfront
    exact (hfront.append (hcolon.append (isSingle_of_padded htarget hbehind))).append htail.isSingle

/-- A name with blanks around it holds nothing else. -/
theorem notMem_of_padded {mark : Char} (hident : isIdent mark = false) (hblank : isBlank mark = false)
    (hname : IsName name) (h : Padded name t) : mark ∉ t := by
  obtain ⟨blank₁, blank₂, h₁, h₂, rfl⟩ := h
  intro hmark
  simp only [List.mem_append] at hmark
  rcases hmark with (hmark | hmark) | hmark
  · exact Bool.false_ne_true (hblank.symm.trans (h₁ _ hmark))
  · exact Bool.false_ne_true (hident.symm.trans (hname.2 _ hmark))
  · exact Bool.false_ne_true (hblank.symm.trans (h₂ _ hmark))

theorem IsNested.exists_cons (h : IsNested t) : ∃ c rest, t = c :: rest ∧ (c = '{' ∨ c = '[') := by
  cases h with
  | object _ => exact ⟨_, _, rfl, .inl rfl⟩
  | array _ => exact ⟨_, _, rfl, .inr rfl⟩

/-- The beginning of a nested pattern is no name, wherever it is cut off. -/
theorem IsNested.not_padded_themeName (h : IsNested target) (hbehind : Padded target (s ++ t)) :
    ¬ Padded themeName s := by
  rintro ⟨blank₁, blank₂, h₁, -, rfl⟩
  obtain ⟨blank₃, blank₄, h₃, -, htext⟩ := hbehind
  obtain ⟨c, rest, rfl, hc⟩ := h.exists_cons
  have hblank : isBlank c = false := by
    rcases hc with rfl | rfl <;> decide
  have htrim := congrArg Text.trimStart htext
  simp only [Text.trimStart, themeName, List.append_assoc, List.cons_append] at htrim
  rw [Text.dropWhile_stretch h₁ (fun e he => by cases he; decide),
    Text.dropWhile_stretch h₃ (fun e he => by cases he; exact hblank)] at htrim
  obtain ⟨rfl, -⟩ := List.cons_eq_cons.mp htrim
  revert hc
  decide

theorem IsNested.ne_themeName (h : IsNested t) : t ≠ themeName := by
  rintro rfl
  obtain ⟨c, rest, hcons, hc⟩ := h.exists_cons
  cases hcons
  revert hc
  decide

/-- What is read as the alias of a property is the theme's own name exactly if its alias is. -/
theorem Written.nameAndAlias_eq (h : Written entry name alias?) :
    ∃ read?, nameAndAlias entry = (name, read?) ∧
      (read?.getD themeName = themeName ↔ alias?.getD themeName = themeName) := by
  cases h with
  | @short _ front _ hname hfront htail =>
    have hsign : '=' ∉ front := notMem_of_padded (by decide) (by decide) hname hfront
    have hcolon : ':' ∉ front := notMem_of_padded (by decide) (by decide) hname hfront
    have hentry := (Entry.short hsign hcolon htail.isDefault).nameAndAlias_eq
    rw [hname.trim_eq_iff.mpr hfront] at hentry
    exact ⟨none, hentry, Iff.rfl⟩
  | @long _ front target behind tail hname hfront htarget hbehind htail =>
    have hsign : '=' ∉ front := notMem_of_padded (by decide) (by decide) hname hfront
    have hcolon : ':' ∉ front := notMem_of_padded (by decide) (by decide) hname hfront
    -- the alias is read up to the first sign in it
    obtain ⟨read, more, rest, rfl, hread, hmore, htext, hrest⟩ : ∃ read more rest,
        behind = read ++ more ∧ '=' ∉ read ∧ IsDefault more ∧ behind ++ tail = read ++ rest ∧
          IsDefault rest := by
      rcases Text.exists_mark_or_notMem '=' behind with hnone | ⟨read, more, rfl, hread⟩
      · exact ⟨behind, [], tail, by simp, hnone, .inl rfl, rfl, htail.isDefault⟩
      · exact ⟨read, '=' :: more, _, rfl, hread, .inr ⟨more, rfl⟩, by simp,
          .inr ⟨more ++ tail, rfl⟩⟩
    have hentry := (Entry.long hsign hcolon hread hrest).nameAndAlias_eq
    rw [hname.trim_eq_iff.mpr hfront, List.append_assoc, List.cons_append, ← htext] at hentry
    refine ⟨some (Text.trim read), ?_, ?_⟩
    · rw [List.append_assoc, List.cons_append]
      exact hentry
    · rw [Option.getD_some, Option.getD_some]
      rcases htarget with hplain | hnested
      · -- no sign in a name, so all of it is read
        have hall : '=' ∉ read ++ more := notMem_of_padded (by decide) (by decide) hplain hbehind
        rcases hmore with rfl | ⟨_, rfl⟩
        · rw [List.append_nil] at hbehind
          rw [hplain.trim_eq_iff.mpr hbehind]
        · exact absurd (List.mem_append_right _ List.mem_cons_self) hall
      · refine iff_of_false ?_ hnested.ne_themeName
        intro htrim
        exact hnested.not_padded_themeName hbehind (trim_eq_themeName_iff.mp htrim)

end Pattern

/-! ## 5. The whole pattern -/

open Pattern

namespace Binding

/-- The first property with the name `theme` decides what a pattern does with it. -/
def ofProperties (ps : List Property) : Binding :=
  match ps.find? (·.name = themeName) with
  | none => absent
  | some p => if p.alias?.getD themeName = themeName then bound else renamed

theorem ofEntries_map_text (ps : List Property) : ofEntries (ps.map (·.text)) = ofProperties ps := by
  induction ps with
  | nil => rfl
  | cons p ps ih =>
    obtain ⟨read?, hread, halias⟩ := p.written.nameAndAlias_eq
    rw [List.map_cons, ofEntries, hread]
    by_cases hname : p.name = themeName
    · simp only [ofProperties, List.find?_cons, hname, halias, if_true, decide_true]
    · simp only [hname, if_false, ih, ofProperties, List.find?_cons, decide_false]

/-- **Only the properties of a pattern itself are read.** Splitting keeps all of the text, it takes
    apart what was put together from single entries, and a pattern that was put together from properties
    does with the name `theme` what the first of them with that name does. -/
theorem ofPattern_eq_ofProperties :
    (∀ t, [','].intercalate (entries t) = t) ∧
    (∀ es, es ≠ [] → (∀ e ∈ es, IsSingle e) → entries ([','].intercalate es) = es) ∧
    ∀ ps : List Property,
      ofPattern ([','].intercalate (ps.map (·.text))) = ofProperties ps := by
  have hsplit : ∀ es, es ≠ [] → (∀ e ∈ es, IsSingle e) → entries ([','].intercalate es) = es :=
    fun es hne h => (splits_iff.mp (splits_intercalate hne h)).symm
  refine ⟨fun t => (splits_entries t).intercalate, hsplit, ?_⟩
  intro ps
  cases ps with
  | nil => decide
  | cons p ps =>
    rw [ofPattern, hsplit _ (by simp), ofEntries_map_text]
    intro e he
    obtain ⟨q, -, rfl⟩ := List.mem_map.mp he
    exact q.written.isSingle

/-- In `a:{theme=[1,2]},theme: t=f({theme})` there are two properties. The second takes the name and
    gives it another; what the first nests, and what the default of the second nests, does not count. -/
theorem ofPattern_eq_ofProperties_nested :
    let inner : Text := ['t', 'h', 'e', 'm', 'e', '=', '[', '1', ',', '2', ']']
    let first : Text := 'a' :: ':' :: '{' :: inner ++ ['}']
    let value : Text := ['f', '(', '{', 't', 'h', 'e', 'm', 'e', '}', ')']
    let second : Text := ['t', 'h', 'e', 'm', 'e', ':', ' ', 't'] ++ '=' :: value
    IsSingle first ∧ IsSingle second ∧ entries (first ++ ',' :: second) = [first, second] ∧
      Written first ['a'] (some ('{' :: inner ++ ['}'])) ∧ Written second themeName (some ['t']) ∧
      ofPattern (first ++ ',' :: second) = renamed := by
  intro inner first value second
  have hpadded (word : Text) : Padded word word :=
    ⟨[], [], by simp [IsBlank], by simp [IsBlank], by simp⟩
  have hinner : Bracketed inner :=
    bracketed_iff.mpr ⟨by simp [inner, Closes], by simp [inner, Closes], by simp [inner, Closes]⟩
  have hvalue : IsSingle value := by
    refine ⟨bracketed_iff.mpr ⟨?_, ?_, ?_⟩, ?_⟩
    · simp [value, Closes]
    · simp [value, Closes]
    · simp [value, Closes]
    · intro front rest h
      have hcomma : ',' ∈ value := by simp [h]
      exact absurd hcomma (by decide)
  have hfirst : Written first ['a'] (some ('{' :: inner ++ ['}'])) := by
    have hname : IsName ['a'] := ⟨by simp, List.all_eq_true.mp (by decide)⟩
    have hwritten := Written.long hname (hpadded _) (.inr (.object hinner)) (hpadded _) (.inl rfl)
    rwa [List.append_nil] at hwritten
  have hsecond : Written second themeName (some ['t']) := by
    have halias : IsName ['t'] := ⟨by simp, List.all_eq_true.mp (by decide)⟩
    have hblank : Padded ['t'] [' ', 't'] :=
      ⟨[' '], [], List.all_eq_true.mp (by decide), by simp [IsBlank], rfl⟩
    exact .long isName_themeName (hpadded _) (.inl halias) hblank (.inr ⟨value, rfl, hvalue⟩)
  obtain ⟨-, hsplit, hbinding⟩ := ofPattern_eq_ofProperties
  have hsingle : ∀ e ∈ [first, second], IsSingle e := by
    simp [hfirst.isSingle, hsecond.isSingle]
  have hentries := hsplit [first, second] (by simp) hsingle
  have hrenamed := hbinding [⟨_, _, _, hfirst⟩, ⟨_, _, _, hsecond⟩]
  exact ⟨hfirst.isSingle, hsecond.isSingle, hentries, hfirst, hsecond, hrenamed⟩

end Binding

end ThemeLens
