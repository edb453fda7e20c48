import ThemeLens.Proofs.Accessor.Head
import ThemeLens.Proofs.Accessor.Path
import ThemeLens.Proofs.Accessor.Pattern

/-!
# Accessors as derivations

The four forms of an accessor, written as rules over the text in reading order. `Opens before` says
what may stand in front of a keyword, one rule for each form, and where the accessor then starts;
`Derives before after` adds the keyword and the longest path behind it. The rules do not mention in
which direction a text is read or where a search begins and ends.

Two things of the reader's stay in them, because they are part of what is accepted. A head has fewer
than `Head.reach` bytes between its parentheses (`Head.Ends`). And the entries of a pattern are told
apart by one count for brackets of all kinds (`Pattern.Splits`), which also says what the entries of a
pattern with broken brackets are; `Proofs/Accessor/Destructuring` has what the count comes to where
brackets pair up.

The rules overlap nowhere and the reader misses none of them: it finds an accessor exactly when
there is a derivation, and it is the derived one (`ofKeyword?_eq_some_iff_derives`). The part of
the proof that is not bookkeeping is the place where two rules could compete. A head that ends in
front of a qualifier ends in a character of neither kind that a qualifier could be extended by
(`Head.Ends.unattached`), so `p.theme.` behind a head is one reading and never two.
-/

namespace ThemeLens

open Text (IsName IsGap)
open Pattern (BindsTheme LacksTheme)

namespace Accessor

/-! ## 1. The rules -/

/-- The name under which a component receives all it is given. -/
def propsName : Text := ['p', 'r', 'o', 'p', 's']

/-- The text does not end in the middle of a name. -/
def NameEnds (before : Text) : Prop := ∀ c, before.getLast? = some c → isIdent c = false

/-- A name that begins behind the text is neither the rest of a longer name nor a member. -/
def Unattached (before : Text) : Prop :=
  ∀ c, before.getLast? = some c → isIdent c = false ∧ c ≠ '.'

/-- The parameter leaves the name `theme` to what is outside the function. -/
def LeavesTheme : Param → Prop
  | .name _ => True
  | .pattern pattern => LacksTheme pattern

/-- What may stand in front of a keyword, with the offset at which the accessor starts. -/
inductive Opens (before : Text) : Nat → Form → Prop
  | plain (hfree : Unattached before)
      (hhead : ¬ Head.ArrowEnds before ∨
        ∃ outside param, Head.Ends before outside param ∧ LeavesTheme param) :
      Opens before before.size .plain
  | destructured {outside pattern : Text} (hfree : Unattached before)
      (hhead : Head.Ends before outside (.pattern pattern)) (hbinds : BindsTheme pattern) :
      Opens before outside.size .destructured
  | ofProps {outside : Text} (hbefore : before = outside ++ propsName ++ ['.'])
      (hends : NameEnds outside) :
      Opens before outside.size .ofProps
  | aliased {outer outside param : Text} (hbefore : before = outer ++ param ++ ['.'])
      (hname : IsName param) (hne : param ≠ propsName)
      (hhead : Head.Ends outer outside (.name param)) :
      Opens before outside.size .aliased

/-- `a` is the accessor of a keyword between `before` and what follows it in `after`. -/
def Derives (before after : Text) (a : Accessor) : Prop :=
  ∃ rest, after = keyword ++ rest ∧ LongestPath rest a.path ∧ Opens before a.start a.form ∧
    a.pathStart = before.size + keyword.size

/-! ## 2. What stands in front -/

theorem not_unattached_dot {t : Text} : ¬ Unattached (t ++ ['.']) := by
  intro h
  exact (h '.' List.getLast?_concat).2 rfl

theorem not_unattached_ident {t : Text} {c : Char} (hc : isIdent c = true) :
    ¬ Unattached (t ++ [c]) := by
  intro h
  rw [(h c List.getLast?_concat).1] at hc
  cases hc

theorem unattached_of_last {t : Text} {c : Char} (hc : isIdent c = false) (hdot : c ≠ '.') :
    Unattached (t ++ [c]) := by
  intro d hd
  rw [List.getLast?_concat] at hd
  cases hd
  exact ⟨hc, hdot⟩

theorem unattached_of_ends {before outside : Text} {param : Param}
    (h : Head.Ends before outside param) : Unattached before := by
  cases h with
  | @intro _ inside gap₁ gap₂ _ _ _ _ _ h₂ =>
    rcases List.eq_nil_or_concat gap₂ with rfl | ⟨gap, c, rfl⟩
    · have hlast : outside ++ '(' :: inside ++ ')' :: gap₁ ++ ['=', '>'] =
          outside ++ '(' :: inside ++ ')' :: gap₁ ++ ['='] ++ ['>'] := by simp
      rw [hlast]
      exact unattached_of_last (by decide) (by decide)
    · have hlast : outside ++ '(' :: inside ++ ')' :: gap₁ ++ '=' :: '>' :: (gap ++ [c]) =
          outside ++ '(' :: inside ++ ')' :: gap₁ ++ '=' :: '>' :: gap ++ [c] := by simp
      rw [List.concat_eq_append] at h₂ ⊢
      have hc : isGap c = true := h₂ c (by simp)
      rw [hlast]
      refine unattached_of_last ?_ ?_
      · cases hi : isIdent c with
        | false => rfl
        | true => rw [isGap_of_ne (.inl hi)] at hc; cases hc
      · rintro rfl
        revert hc
        decide

/-- A name without a qualifier: what decides is the head that ends in front of it. -/
theorem unqualified?_eq_some_iff {before : Text} (hfree : Unattached before) {start : Nat}
    {form : Form} : unqualified? before.reverse = some (start, form) ↔ Opens before start form := by
  unfold unqualified?
  constructor
  · intro h
    cases hhead : Head.before before.reverse with
    | absent =>
      rw [hhead] at h
      cases h
      rw [Text.size_reverse]
      exact .plain hfree (.inl (Head.before_eq_absent_iff.mp hhead))
    | unreadable => rw [hhead] at h; cases h
    | found at' param =>
      rw [hhead] at h
      obtain ⟨outside, hends, rfl⟩ := Head.before_eq_found_iff.mp hhead
      cases param with
      | name ident =>
        cases h
        rw [Text.size_reverse]
        exact .plain hfree (.inr ⟨outside, _, hends, trivial⟩)
      | pattern pattern =>
        cases hbind : Binding.ofPattern pattern with
        | bound =>
          simp only [hbind, Option.some.injEq, Prod.mk.injEq] at h
          obtain ⟨rfl, rfl⟩ := h
          exact .destructured hfree hends (Binding.ofPattern_eq_bound_iff.mp hbind)
        | renamed => simp [hbind] at h
        | absent =>
          simp only [hbind, Option.some.injEq, Prod.mk.injEq, Text.size_reverse] at h
          obtain ⟨rfl, rfl⟩ := h
          exact .plain hfree
            (.inr ⟨outside, _, hends, Binding.ofPattern_eq_absent_iff.mp hbind⟩)
  · intro h
    cases h with
    | plain _ hhead =>
      rcases hhead with hnone | ⟨outside, param, hends, hleaves⟩
      · rw [Head.before_eq_absent_iff.mpr hnone, Text.size_reverse]
      · rw [Head.before_eq_found_iff.mpr ⟨outside, hends, rfl⟩]
        cases param with
        | name ident => simp
        | pattern pattern => simp [Binding.ofPattern_eq_absent_iff.mpr hleaves]
    | destructured _ hends hbinds =>
      rw [Head.before_eq_found_iff.mpr ⟨_, hends, rfl⟩]
      simp [Binding.ofPattern_eq_bound_iff.mpr hbinds]
    | ofProps hbefore _ => rw [hbefore] at hfree; exact absurd hfree not_unattached_dot
    | aliased hbefore _ _ _ => rw [hbefore] at hfree; exact absurd hfree not_unattached_dot

theorem exists_qualifier (front : Text) :
    ∃ outer param, front = outer ++ param ∧ NameEnds outer ∧ ∀ c ∈ param, isIdent c = true := by
  refine ⟨(front.reverse.dropWhile isIdent).reverse, (front.reverse.takeWhile isIdent).reverse,
    ?_, ?_, fun c hc => List.mem_takeWhile_imp (List.mem_reverse.mp hc)⟩
  · rw [← List.reverse_append, List.takeWhile_append_dropWhile, List.reverse_reverse]
  · intro c hc
    rw [List.getLast?_reverse] at hc
    exact Text.head?_dropWhile isIdent _ c hc

/-- The reader takes the qualifier from behind, whatever it decides about it. -/
theorem qualified?_append {outer param : Text} (hends : NameEnds outer)
    (hparam : ∀ c ∈ param, isIdent c = true) :
    qualified? (outer ++ param).reverse =
      if param = [] then none
      else if param = propsName then some (outer.size, .ofProps)
      else if outer.getLast? = some '.' then none
      else
        match Head.before outer.reverse with
        | .found start (.name name) => if name = param then some (start, .aliased) else none
        | _ => none := by
  have hall : ∀ c ∈ param.reverse, isIdent c = true := fun c hc =>
    hparam c (List.mem_reverse.mp hc)
  have hstop : ∀ c, outer.reverse.head? = some c → isIdent c = false := fun c hc =>
    hends c (by rwa [List.head?_reverse] at hc)
  rw [qualified?, List.reverse_append, Text.takeWhile_stretch hall hstop,
    Text.dropWhile_stretch hall hstop]
  simp only [List.reverse_reverse, Text.size_reverse, List.head?_reverse, propsName]
  rfl

/-- A text is split into a qualifier and what is in front of it in one way only. -/
theorem qualifier_unique {outer outer' param param' : Text} (hends : NameEnds outer)
    (hends' : NameEnds outer') (hparam : ∀ c ∈ param, isIdent c = true)
    (hparam' : ∀ c ∈ param', isIdent c = true) (h : outer ++ param = outer' ++ param') :
    outer = outer' ∧ param = param' := by
  have hsplit {o p : Text} (ho : NameEnds o) (hp : ∀ c ∈ p, isIdent c = true) :
      (o ++ p).reverse.takeWhile isIdent = p.reverse := by
    rw [List.reverse_append]
    exact Text.takeWhile_stretch (fun c hc => hp c (List.mem_reverse.mp hc)) fun c hc =>
      ho c (by rwa [List.head?_reverse] at hc)
  have hp : param = param' := by
    rw [← List.reverse_reverse param, ← hsplit hends hparam, h, hsplit hends' hparam',
      List.reverse_reverse]
  subst hp
  exact ⟨List.append_cancel_right h, rfl⟩

theorem propsName_idents : ∀ c ∈ propsName, isIdent c = true :=
  List.all_eq_true.mp (by decide)

/-- A name behind a qualifier: what decides is the qualifier, and for a parameter its head. -/
theorem qualified?_eq_some_iff {front : Text} {start : Nat} {form : Form} :
    qualified? front.reverse = some (start, form) ↔ Opens (front ++ ['.']) start form := by
  obtain ⟨outer, param, rfl, hends, hparam⟩ := exists_qualifier front
  rw [qualified?_append hends hparam]
  constructor
  · intro h
    by_cases hnil : param = []
    · rw [if_pos hnil] at h; cases h
    rw [if_neg hnil] at h
    by_cases hprops : param = propsName
    · rw [if_pos hprops] at h
      cases h
      subst hprops
      exact .ofProps rfl hends
    rw [if_neg hprops] at h
    by_cases hdot : outer.getLast? = some '.'
    · rw [if_pos hdot] at h; cases h
    rw [if_neg hdot] at h
    split at h
    · rename_i hfound
      obtain ⟨outside, hhead, rfl⟩ := Head.before_eq_found_iff.mp hfound
      simp only [Option.ite_none_right_eq_some, Option.some.injEq, Prod.mk.injEq] at h
      obtain ⟨rfl, rfl, rfl⟩ := h
      exact .aliased rfl ⟨hnil, hparam⟩ hprops hhead
    · cases h
  · intro h
    cases h with
    | plain hfree _ => exact absurd hfree not_unattached_dot
    | destructured hfree _ _ => exact absurd hfree not_unattached_dot
    | @ofProps outside hbefore hends' =>
      obtain ⟨rfl, rfl⟩ := qualifier_unique hends hends' hparam propsName_idents
        (List.append_cancel_right hbefore)
      simp [propsName]
    | @aliased outer' outside param' hbefore hname hne hhead =>
      have hfree := unattached_of_ends hhead
      obtain ⟨rfl, rfl⟩ := qualifier_unique hends (fun c hc => (hfree c hc).1) hparam hname.2
        (List.append_cancel_right hbefore)
      have hdot : outer.getLast? ≠ some '.' := fun hlast => (hfree '.' hlast).2 rfl
      rw [if_neg hname.1, if_neg hne, if_neg hdot,
        Head.before_eq_found_iff.mpr ⟨outside, hhead, rfl⟩]
      simp

theorem opening?_eq_some_iff {before : Text} {start : Nat} {form : Form} :
    opening? before.reverse = some (start, form) ↔ Opens before start form := by
  rcases List.eq_nil_or_concat before with rfl | ⟨front, c, rfl⟩
  · have hfree : Unattached [] := by
      intro c hc
      cases hc
    exact unqualified?_eq_some_iff hfree
  · rw [List.concat_eq_append, List.reverse_concat, opening?]
    by_cases hc : isIdent c = true
    · rw [if_pos hc]
      refine ⟨fun h => (by cases h), fun h => ?_⟩
      cases h with
      | plain hfree _ => exact absurd hfree (not_unattached_ident hc)
      | destructured hfree _ _ => exact absurd hfree (not_unattached_ident hc)
      | ofProps hbefore _ =>
        obtain rfl : c = '.' := by simpa using congrArg List.getLast? hbefore
        cases hc
      | aliased hbefore _ _ _ =>
        obtain rfl : c = '.' := by simpa using congrArg List.getLast? hbefore
        cases hc
    rw [if_neg hc]
    by_cases hdot : c = '.'
    · subst hdot
      rw [if_pos rfl]
      exact qualified?_eq_some_iff
    · rw [if_neg hdot, ← List.reverse_concat]
      exact unqualified?_eq_some_iff
        (unattached_of_last (by simpa using hc) hdot)

/-! ## 3. Accessors -/

/-- **An accessor is found exactly when it derives**, whatever the text and the place in it. -/
theorem ofKeyword?_eq_some_iff_derives (k : Cursor) (a : Accessor) :
    ofKeyword? k = some a ↔ Derives k.before.reverse k.after a := by
  rw [ofKeyword?_eq_some_iff, Derives, ← opening?_eq_some_iff, List.reverse_reverse,
    Text.size_reverse]
  simp only [longestPath_iff, Cursor.offset]

end Accessor

end ThemeLens
