import ThemeLens.Accessor.Head
import ThemeLens.Proofs.Text.Nesting

/-!
# Arrow heads as a grammar

An arrow head is read backwards, from the body towards the parenthesis that opens it, with two
kinds of white space and two bracket counts on the way. Written down as text in reading order it is
much simpler, and that is how it is defined here: a parenthesis, a balanced inside that spells one
parameter, the closing parenthesis, and an arrow with gaps around it (`Head.Ends`). An arrow alone,
whatever stands between its parentheses and whatever kind of blanks surround it, is
`Head.ArrowEnds`.

The reader finds a head exactly when the text ends in one, and finds nothing at all exactly when it
does not even end in an arrow (`Head.before_eq_found_iff`, `Head.before_eq_absent_iff`). What is
left between the two is the head that cannot be read.
-/

namespace ThemeLens

open Text (IsName IsGap IsBlank Balanced Closes)

/-! ## 1. The grammar -/

/-- The ways to write a parameter between its parentheses. -/
inductive Param.Spells : Text → Param → Prop
  | name {gap₁ ident gap₂ : Text} (h₁ : IsGap gap₁) (hname : IsName ident) (h₂ : IsGap gap₂) :
      Spells (gap₁ ++ ident ++ gap₂) (.name ident)
  | pattern {gap₁ inner gap₂ : Text} (h₁ : IsGap gap₁) (hinner : Balanced '{' '}' inner)
      (h₂ : IsGap gap₂) :
      Spells (gap₁ ++ '{' :: inner ++ '}' :: gap₂) (.pattern inner)

/-- The text ends in an arrow behind a parenthesis. -/
def Head.ArrowEnds (before : Text) : Prop :=
  ∃ front blank₁ blank₂, IsBlank blank₁ ∧ IsBlank blank₂ ∧
    before = front ++ ')' :: blank₁ ++ '=' :: '>' :: blank₂

/-- The text ends in a readable head with this parameter; `outside` is what is in front of it. -/
inductive Head.Ends : Text → Text → Param → Prop
  | intro {outside inside gap₁ gap₂ : Text} {param : Param} (hinside : Balanced '(' ')' inside)
      (hreach : inside.size < Head.reach) (hparam : Param.Spells inside param)
      (h₁ : IsGap gap₁) (h₂ : IsGap gap₂) :
      Ends (outside ++ '(' :: inside ++ ')' :: gap₁ ++ '=' :: '>' :: gap₂) outside param

/-! ## 2. The two counts -/

/-- The brace that closes a pattern is the first one at which the count is back at zero. -/
theorem Param.splitAtClose_eq_some_iff {depth : Nat} {t inner rest : Text} :
    splitAtClose depth t = some (inner, rest) ↔
      t = inner ++ '}' :: rest ∧ Closes '{' '}' depth inner := by
  induction t generalizing depth inner with
  | nil => simp [splitAtClose]
  | cons c t ih =>
    rw [splitAtClose]
    by_cases hstop : c = '}' ∧ depth = 0
    · obtain ⟨rfl, rfl⟩ := hstop
      rw [if_pos ⟨rfl, rfl⟩]
      cases inner with
      | nil => simp [eq_comm]
      | cons d inner =>
        simp only [Option.some.injEq, Prod.mk.injEq, List.nil_eq, reduceCtorEq, false_and,
          List.cons_append, List.cons.injEq, false_iff, not_and]
        intro h
        obtain ⟨rfl, -⟩ := h
        exact Text.not_closes_zero_closer
    · rw [if_neg hstop]
      simp only [Option.map_eq_some_iff, Prod.mk.injEq, Prod.exists]
      cases inner with
      | nil =>
        simp only [List.nil_append, List.cons.injEq, Text.closes_nil]
        constructor
        · rintro ⟨_, _, -, h, -⟩; cases h
        · rintro ⟨⟨rfl, -⟩, rfl⟩; exact absurd ⟨rfl, rfl⟩ hstop
      | cons d inner =>
        simp only [List.cons.injEq, List.cons_append]
        have hstep := Text.closes_cons_iff (t := inner) (show '{' ≠ '}' by decide) hstop
        constructor
        · intro h
          obtain ⟨inner', rest', h, ⟨rfl, rfl⟩, rfl⟩ := h
          obtain ⟨rfl, hcl⟩ := ih.mp h
          exact ⟨⟨rfl, rfl⟩, hstep.mpr hcl⟩
        · intro h
          obtain ⟨⟨rfl, rfl⟩, hcl⟩ := h
          exact ⟨inner, rest, ih.mpr ⟨rfl, hstep.mp hcl⟩, ⟨rfl, rfl⟩, rfl⟩

/-- Backwards, the parenthesis that opens a head is the first one at which the count is back at
    zero. What has been passed on the way is collected in reading order. -/
theorem Head.splitAtOpen_eq_some_iff {depth : Nat} {acc t inner outside : Text} :
    splitAtOpen depth acc t = some (inner, outside) ↔
      ∃ passed, t = passed ++ '(' :: outside ∧ inner = passed.reverse ++ acc ∧
        Closes ')' '(' depth passed := by
  induction t generalizing depth acc with
  | nil => simp [splitAtOpen]
  | cons c t ih =>
    rw [splitAtOpen]
    by_cases hstop : c = '(' ∧ depth = 0
    · obtain ⟨rfl, rfl⟩ := hstop
      rw [if_pos ⟨rfl, rfl⟩]
      constructor
      · intro h; cases h; exact ⟨[], rfl, rfl, rfl⟩
      · intro h
        obtain ⟨passed, ht, rfl, hcl⟩ := h
        cases passed with
        | nil => cases ht; rfl
        | cons d passed =>
          cases ht
          exact absurd hcl Text.not_closes_zero_closer
    · rw [if_neg hstop]
      have hstep (passed : Text) :=
        Text.closes_cons_iff (t := passed) (show ')' ≠ '(' by decide) hstop
      rw [ih]
      constructor
      · intro h
        obtain ⟨passed, rfl, rfl, hcl⟩ := h
        exact ⟨c :: passed, rfl, by simp, (hstep passed).mpr hcl⟩
      · intro h
        obtain ⟨passed, ht, rfl, hcl⟩ := h
        cases passed with
        | nil =>
          cases ht
          exact absurd ⟨rfl, hcl⟩ hstop
        | cons d passed =>
          cases ht
          exact ⟨passed, rfl, by simp, (hstep passed).mp hcl⟩

/-! ## 3. The parameter -/

theorem isGap_of_ne {c : Char} (h : isIdent c = true ∨ c = '{') : isGap c = false := by
  cases hc : isGap c with
  | false => rfl
  | true =>
    rcases h with h | rfl
    · have hb := isBlank_of_isGap hc
      rw [isBlank_eq_false_of_isIdent h] at hb
      cases hb
    · revert hc; decide

theorem Param.read?_braces {gap₁ inner gap₂ : Text} (h₁ : IsGap gap₁)
    (hinner : Balanced '{' '}' inner) (h₂ : IsGap gap₂) :
    read? (gap₁ ++ '{' :: inner ++ '}' :: gap₂) = some (.pattern inner) := by
  have hdrop : (gap₁ ++ '{' :: inner ++ '}' :: gap₂).dropWhile isGap =
      '{' :: (inner ++ '}' :: gap₂) := by
    rw [List.append_assoc]
    refine Text.dropWhile_stretch h₁ fun c hc => ?_
    cases hc
    exact isGap_of_ne (.inr rfl)
  have hclose : splitAtClose 0 (inner ++ '}' :: gap₂) = some (inner, gap₂) :=
    splitAtClose_eq_some_iff.mpr ⟨rfl, (Text.balanced_iff_closes (by decide)).mp hinner⟩
  rw [read?, hdrop]
  simp only [hclose, Option.bind_some, if_pos (Text.isGap_iff_all.mpr h₂)]

theorem Param.read?_ident {gap₁ ident gap₂ : Text} (h₁ : IsGap gap₁) (hname : IsName ident)
    (h₂ : IsGap gap₂) : read? (gap₁ ++ ident ++ gap₂) = some (.name ident) := by
  obtain ⟨c, ident, rfl⟩ := List.exists_cons_of_ne_nil hname.1
  have hc := hname.2 c List.mem_cons_self
  have hdrop : (gap₁ ++ (c :: ident) ++ gap₂).dropWhile isGap = (c :: ident) ++ gap₂ := by
    rw [List.append_assoc]
    refine Text.dropWhile_stretch h₁ fun d hd => ?_
    cases hd
    exact isGap_of_ne (.inl hc)
  have hstop : ∀ d, gap₂.head? = some d → isIdent d = false := by
    intro d hd
    cases hi : isIdent d with
    | false => rfl
    | true =>
      have hg := h₂ d (List.mem_of_head? hd)
      rw [isGap_of_ne (.inl hi)] at hg
      cases hg
  rw [read?, hdrop]
  split
  · rename_i heq
    cases heq
    -- a name does not begin with the brace that would make it a pattern
    exact absurd hc (by decide)
  · rw [Text.takeWhile_stretch hname.2 hstop, Text.dropWhile_stretch hname.2 hstop,
      if_pos (by simpa using fun d hd => h₂ d hd)]

/-- **A parameter is read exactly when it is spelled.** -/
theorem Param.read?_eq_some_iff {t : Text} {param : Param} :
    read? t = some param ↔ Spells t param := by
  have hsplit := List.takeWhile_append_dropWhile (p := isGap) (l := t)
  have hgap : IsGap (t.takeWhile isGap) := fun c hc => List.mem_takeWhile_imp hc
  constructor
  · intro h
    unfold read? at h
    generalize t.takeWhile isGap = gap at hsplit hgap
    generalize t.dropWhile isGap = body at hsplit h
    subst hsplit
    split at h
    · obtain ⟨⟨inner, rest⟩, hclose, hparam⟩ := Option.bind_eq_some_iff.mp h
      obtain ⟨rfl, hcl⟩ := splitAtClose_eq_some_iff.mp hclose
      simp only [Option.ite_none_right_eq_some, Option.some.injEq, Text.isGap_iff_all] at hparam
      obtain ⟨hrest, rfl⟩ := hparam
      simpa using Spells.pattern hgap ((Text.balanced_iff_closes (by decide)).mpr hcl) hrest
    · simp only [Option.ite_none_right_eq_some, Option.some.injEq, Bool.and_eq_true,
        Bool.not_eq_true', List.isEmpty_eq_false_iff, Text.isGap_iff_all] at h
      obtain ⟨⟨hne, hrest⟩, rfl⟩ := h
      have hname : IsName (body.takeWhile isIdent) := ⟨hne, fun c hc => List.mem_takeWhile_imp hc⟩
      have := Spells.name hgap hname hrest
      rwa [List.append_assoc, List.takeWhile_append_dropWhile] at this
  · intro h
    cases h with
    | pattern h₁ hinner h₂ => exact read?_braces h₁ hinner h₂
    | name h₁ hname h₂ => exact read?_ident h₁ hname h₂

/-! ## 4. The head -/

/-- What the reader sees of a text that ends in an arrow, nearest character first. -/
theorem Head.before_of_arrow {blank₁ blank₂ inside : Text} (h₁ : IsBlank blank₁)
    (h₂ : IsBlank blank₂) :
    Head.before (blank₂ ++ '>' :: '=' :: (blank₁ ++ ')' :: inside)) =
      ((splitAtOpen 0 [] inside).bind fun split =>
        if split.1.size < reach && blank₁.all isGap && blank₂.all isGap then
          (Param.read? split.1).map (found split.2.size)
        else none).getD unreadable := by
  have hstop₂ : ∀ c, ('>' :: '=' :: (blank₁ ++ ')' :: inside)).head? = some c →
      isBlank c = false := fun c hc => by cases hc; decide
  have hstop₁ : ∀ c, (')' :: inside).head? = some c → isBlank c = false := fun c hc => by
    cases hc; decide
  rw [Head.before, Text.dropWhile_stretch h₂ hstop₂]
  simp only [Text.takeWhile_stretch h₂ hstop₂, Text.dropWhile_stretch h₁ hstop₁,
    Text.takeWhile_stretch h₁ hstop₁]

theorem Head.arrowEnds_iff_reverse {before : Text} :
    ArrowEnds before ↔ ∃ inside blank₁ blank₂, IsBlank blank₁ ∧ IsBlank blank₂ ∧
      before.reverse = blank₂ ++ '>' :: '=' :: (blank₁ ++ ')' :: inside) := by
  constructor
  · intro h
    obtain ⟨front, blank₁, blank₂, h₁, h₂, rfl⟩ := h
    exact ⟨front.reverse, blank₁.reverse, blank₂.reverse, h₁.reverse, h₂.reverse, by simp⟩
  · intro h
    obtain ⟨inside, blank₁, blank₂, h₁, h₂, h⟩ := h
    refine ⟨inside.reverse, blank₁.reverse, blank₂.reverse, h₁.reverse, h₂.reverse, ?_⟩
    rw [← List.reverse_reverse before, h]
    simp

theorem Head.before_of_not_arrowEnds {before : Text} (h : ¬ ArrowEnds before) :
    Head.before before.reverse = .absent := by
  rw [arrowEnds_iff_reverse] at h
  generalize before.reverse = t at h
  have hblank (t : Text) : IsBlank (t.takeWhile isBlank) := fun c hc => List.mem_takeWhile_imp hc
  rw [Head.before]
  split
  · rename_i beforeArrow heq
    dsimp only
    split
    · rename_i inside heq'
      refine absurd ⟨inside, _, _, hblank beforeArrow, hblank t, ?_⟩ h
      rw [← heq', List.takeWhile_append_dropWhile, ← heq, List.takeWhile_append_dropWhile]
    · rfl
  · rfl

/-- **No arrow is found exactly when there is none.** -/
theorem Head.before_eq_absent_iff {before : Text} :
    Head.before before.reverse = .absent ↔ ¬ ArrowEnds before := by
  refine ⟨fun habsent harrow => ?_, before_of_not_arrowEnds⟩
  obtain ⟨inside, blank₁, blank₂, h₁, h₂, hrev⟩ := arrowEnds_iff_reverse.mp harrow
  rw [hrev, before_of_arrow h₁ h₂] at habsent
  cases hparam : (splitAtOpen 0 [] inside).bind fun split =>
      if split.1.size < reach && blank₁.all isGap && blank₂.all isGap then
        (Param.read? split.1).map (found split.2.size)
      else none with
  | none => rw [hparam] at habsent; cases habsent
  | some head =>
    rw [hparam] at habsent
    obtain ⟨split, -, h⟩ := Option.bind_eq_some_iff.mp hparam
    simp only [Option.ite_none_right_eq_some, Option.map_eq_some_iff] at h
    obtain ⟨-, param, -, rfl⟩ := h
    cases habsent

/-- **A head is found exactly when the text ends in a readable one**, and it starts where the text
    in front of it ends. -/
theorem Head.before_eq_found_iff {before : Text} {start : Nat} {param : Param} :
    Head.before before.reverse = .found start param ↔
      ∃ outside, Ends before outside param ∧ start = outside.size := by
  constructor
  · intro h
    have harrow : ArrowEnds before := Classical.byContradiction fun hno => by
      rw [before_of_not_arrowEnds hno] at h
      cases h
    obtain ⟨inside, blank₁, blank₂, h₁, h₂, hrev⟩ := arrowEnds_iff_reverse.mp harrow
    rw [hrev, before_of_arrow h₁ h₂, Option.getD_eq_iff] at h
    obtain h | ⟨-, h⟩ := h
    · obtain ⟨⟨inner, outside⟩, hopen, h⟩ := Option.bind_eq_some_iff.mp h
      simp only [Option.ite_none_right_eq_some, Option.map_eq_some_iff, Bool.and_eq_true,
        decide_eq_true_eq, Text.isGap_iff_all] at h
      obtain ⟨⟨⟨hreach, hg₁⟩, hg₂⟩, param', hread, heq⟩ := h
      cases heq
      obtain ⟨passed, rfl, hinner, hcl⟩ := splitAtOpen_eq_some_iff.mp hopen
      rw [List.append_nil] at hinner
      subst hinner
      have hbal : Balanced '(' ')' passed.reverse :=
        ((Text.balanced_iff_closes (by decide)).mpr hcl).reverse
      have hends := @Ends.intro outside.reverse _ _ _ _ hbal hreach
        (Param.read?_eq_some_iff.mp hread) hg₁.reverse hg₂.reverse
      have hbefore : before = outside.reverse ++ '(' :: passed.reverse ++
          ')' :: blank₁.reverse ++ '=' :: '>' :: blank₂.reverse := by
        rw [← List.reverse_reverse before, hrev]
        simp
      exact ⟨outside.reverse, hbefore ▸ hends, by simp⟩
    · cases h
  · intro h
    obtain ⟨outside, hends, rfl⟩ := h
    cases hends with
    | @intro _ inside gap₁ gap₂ _ hinside hreach hparam h₁ h₂ =>
      have hrev : (outside ++ '(' :: inside ++ ')' :: gap₁ ++ '=' :: '>' :: gap₂).reverse =
          gap₂.reverse ++ '>' :: '=' ::
            (gap₁.reverse ++ ')' :: (inside.reverse ++ '(' :: outside.reverse)) := by simp
      have hopen : splitAtOpen 0 [] (inside.reverse ++ '(' :: outside.reverse) =
          some (inside, outside.reverse) :=
        splitAtOpen_eq_some_iff.mpr ⟨inside.reverse, rfl, by simp,
          (Text.balanced_iff_closes (by decide)).mp hinside.reverse⟩
      rw [hrev, before_of_arrow h₁.reverse.isBlank h₂.reverse.isBlank, hopen, Option.bind_some,
        if_pos, Param.read?_eq_some_iff.mpr hparam]
      · simp
      · simp only [Bool.and_eq_true, decide_eq_true_eq, Text.isGap_iff_all]
        exact ⟨⟨hreach, h₁.reverse⟩, h₂.reverse⟩

end ThemeLens
