import ThemeLens.Proofs.Accessor.Greedy
import ThemeLens.Proofs.Accessor.PointQuery

/-!
# The longest accessor under a cursor

Several keywords can have an accessor whose path touches the same place, because a path may hold the
name of the theme again: all of them end together, and they differ in where they start. The point
query is to answer with the longest. It compares what the pass over the text takes, and of these
accessors the pass takes the first and no other, so there is nothing left to compare.

The first one is the longest as long as it also starts first. This file goes through what an inner
keyword may have in front of it. It stands inside a path, so its accessor has a qualifier; `props`
would be inside the path, too; and a parameter stands in front of the whole path only if it is the
name of the theme itself. That is the one exception (`Shadows`): in `(theme) => theme.theme.` the
name is that of a parameter, the second accessor reads the theme of it and starts at the head, and
the first hides it. Everywhere else the answer is the longest (`at?_isLongest_iff`).
-/

namespace ThemeLens.Accessor

variable {before m t text : Text} {o : Nat} {a a' outer inner : Accessor}

/-- `a` is the accessor of a keyword of the text, whatever a pass makes of it, and its path covers
    the offset or ends there. -/
def OccursAt (text : Text) (o : Nat) (a : Accessor) : Prop :=
  Occurs [] text a ∧ a.pathSpan.touches o = true

/-- No accessor that touches the offset is longer. -/
def IsLongest (text : Text) (o : Nat) (a : Accessor) : Prop :=
  ∀ other, OccursAt text o other → other.span.length ≤ a.span.length

/-- The text reads `(theme) => theme.theme.` and a path. The outer accessor is the plain one of the
    first keyword, the inner one that of the second, aliased by the parameter. -/
def Shadows (text : Text) (outer inner : Accessor) : Prop :=
  ∃ outside before rest, text = before ++ (keyword ++ (keyword ++ rest)) ∧
    Head.Ends before outside (.name themeName) ∧
    outer = ⟨before.size, .plain, (before ++ keyword).size, keyword ++ pathFrom false rest⟩ ∧
    inner = ⟨outside.size, .aliased, (before ++ keyword ++ keyword).size, pathFrom false rest⟩

/-! ## 1. What an inner keyword has in front of it -/

theorem nameEnds_of_opens {start : Nat} {form : Form} (h : Opens before start form) :
    NameEnds before := by
  intro c hc
  cases h with
  | plain hfree _ => exact (hfree c hc).1
  | destructured hfree _ _ => exact (hfree c hc).1
  | ofProps hbefore _ =>
    rw [hbefore, List.getLast?_concat] at hc
    cases hc
    exact isIdent_dot
  | aliased hbefore _ _ _ =>
    rw [hbefore, List.getLast?_concat] at hc
    cases hc
    exact isIdent_dot

/-- Nothing stands unattached behind a piece of a path. -/
theorem not_unattached_of_path (hm : pathFrom false m = m) (hne : m ≠ []) :
    ¬ Unattached (before ++ m) := by
  intro hfree
  rcases List.eq_nil_or_concat m with rfl | ⟨front, c, rfl⟩
  · exact hne rfl
  rw [List.concat_eq_append] at hm hfree
  have hrun : isRun c = true := by
    apply isRun_of_mem_pathFrom (t := front ++ [c])
    rw [hm]
    exact List.mem_append_right _ List.mem_cons_self
  obtain ⟨hident, hdot⟩ := hfree c (by rw [← List.append_assoc, List.getLast?_concat])
  simp [isRun, hident, hdot] at hrun

/-- A piece of a path that is a name behind something unattached begins where that name does. -/
theorem path_eq_name {front param : Text} (hm : pathFrom false m = m) (hends : NameEnds before)
    (hfree : Unattached front) (hname : ∀ c ∈ param, isIdent c = true)
    (h : before ++ m = front ++ param) : before = front ∧ m = param := by
  rcases List.append_eq_append_iff.mp h with ⟨x, hfront, hx⟩ | ⟨x, hbefore, hx⟩
  · -- the path would go on from `before` to `front`
    by_cases hnil : x = []
    · rw [hnil, List.append_nil] at hfront
      rw [hnil, List.nil_append] at hx
      exact ⟨hfront.symm, hx⟩
    · rw [hx] at hm
      have hpath := (pathFrom_append_eq_self_iff.mp hm).1
      exact absurd (hfront ▸ hfree) (not_unattached_of_path hpath hnil)
  · -- the name would begin in `before`
    rcases List.eq_nil_or_concat x with rfl | ⟨y, c, rfl⟩
    · rw [List.append_nil] at hbefore
      exact ⟨hbefore, hx.symm⟩
    · have hident := hname c (by simp [hx])
      rw [hends c (by simp [hbefore])] at hident
      cases hident

/-- The first name of a text that begins with a keyword is the name of the theme. -/
theorem eq_themeName_of_dot {rest : Text} (hdot : '.' ∉ m)
    (h : m ++ '.' :: t = keyword ++ rest) : m = themeName := by
  have hcut := congrArg (Text.cut '.') h
  rw [keyword, List.append_assoc, List.singleton_append, Text.cut_mark hdot,
    Text.cut_mark (by decide)] at hcut
  exact congrArg Prod.fst hcut

/-- A head that ends in front of a name that reads no theme apart leaves the plain form. -/
theorem opens_of_ends {outside name : Text} {start : Nat} {form : Form}
    (h : Opens before start form) (hhead : Head.Ends before outside (.name name)) :
    form = .plain ∧ start = before.size := by
  have hfree := unattached_of_ends hhead
  cases h with
  | plain _ _ => exact ⟨rfl, rfl⟩
  | destructured _ hpattern _ =>
    -- one text ends in one head
    have hfound := Head.before_eq_found_iff.mpr ⟨_, hhead, rfl⟩
    rw [Head.before_eq_found_iff.mpr ⟨_, hpattern, rfl⟩] at hfound
    injection hfound with _ hparam
    cases hparam
  | ofProps hbefore _ => exact absurd (hbefore ▸ hfree) not_unattached_dot
  | aliased hbefore _ _ _ => exact absurd (hbefore ▸ hfree) not_unattached_dot

/-- A piece of a path that is a parameter and its dot, and begins as the keyword does, is the
    keyword. -/
theorem eq_keyword_of_param {front param rest : Text} (hm : pathFrom false m = m) (hne : m ≠ [])
    (hends : NameEnds before) (hfree : Unattached front) (hname : ∀ c ∈ param, isIdent c = true)
    (hfront : before ++ m = front ++ (param ++ ['.'])) (hafter : m ++ t = keyword ++ rest) :
    before = front ∧ param = themeName ∧ m = keyword := by
  rcases List.eq_nil_or_concat m with rfl | ⟨name, c, rfl⟩
  · exact absurd rfl hne
  rw [List.concat_eq_append] at hm hfront hafter ⊢
  rw [← List.append_assoc, ← List.append_assoc] at hfront
  obtain ⟨hsplit, hc⟩ := List.append_inj' hfront rfl
  obtain rfl : c = '.' := (List.cons_eq_cons.mp hc).1
  have hpath := (pathFrom_append_eq_self_iff.mp hm).1
  obtain ⟨rfl, rfl⟩ := path_eq_name hpath hends hfree hname hsplit
  have hdot : '.' ∉ name := by
    intro hmem
    have hident := hname _ hmem
    rw [isIdent_dot] at hident
    cases hident
  simp only [List.append_assoc, List.singleton_append] at hafter
  obtain rfl := eq_themeName_of_dot hdot hafter
  exact ⟨rfl, rfl, rfl⟩

/-- What begins as the keyword does is not cut off the end of `props.`. -/
theorem size_le_of_props {front m' : Text} (h : before ++ 't' :: m' = front ++ (propsName ++ ['.'])) :
    before.size ≤ front.size := by
  by_contra hlt
  obtain ⟨x, -, hprops⟩ := Text.exists_between h.symm (by omega)
  have hmem : 't' ∈ propsName ++ ['.'] := by
    rw [hprops]
    exact List.mem_append_right _ List.mem_cons_self
  revert hmem
  decide

section Inside

variable (houter : ofKeyword? ⟨before.reverse, m ++ t⟩ = some outer)
  (hinner : ofKeyword? ⟨(before ++ m).reverse, t⟩ = some inner) (hne : m ≠ [])
  (hin : inner.keywordAt < outer.stop)

include houter hin hinner in
theorem pathFrom_between : pathFrom false m = m := by
  apply pathFrom_of_inside houter
  rw [keywordAt_of_ofKeyword? hinner] at hin
  simp only [Cursor.offset, Text.size_reverse, Text.size_append] at hin ⊢
  exact Nat.le_of_lt hin

include houter hne in
/-- What is between the two keywords begins as the first one does. -/
theorem exists_cons_between : ∃ m', m = 't' :: m' := by
  obtain ⟨rest, hafter, -⟩ := ofKeyword?_eq_some_iff.mp houter
  obtain ⟨c, m', rfl⟩ := List.exists_cons_of_ne_nil hne
  obtain ⟨rfl, -⟩ := List.cons_eq_cons.mp hafter
  exact ⟨m', rfl⟩

include houter hinner hne hin in
/-- **An inner accessor starts inside the outer one**, or it is aliased and the outer path begins
    with its keyword. -/
theorem start_le_or_aliased :
    outer.start ≤ inner.start ∨ m = keyword ∧ inner.form = .aliased ∧
      ∃ outside, Head.Ends before outside (.name themeName) ∧ inner.start = outside.size := by
  have hm := pathFrom_between houter hinner hin
  obtain ⟨rest, hafter, -, hopen, -⟩ := ofKeyword?_eq_some_iff.mp houter
  obtain ⟨-, -, -, hopen', -⟩ := ofKeyword?_eq_some_iff.mp hinner
  have houterOpens := opening?_eq_some_iff.mp hopen
  generalize hform : inner.form = form at hopen'
  generalize inner.start = start at hopen' ⊢
  cases opening?_eq_some_iff.mp hopen' with
  | plain hfree _ => exact absurd hfree (not_unattached_of_path hm hne)
  | destructured hfree _ _ => exact absurd hfree (not_unattached_of_path hm hne)
  | @ofProps front hfront _ =>
    apply Or.inl
    obtain ⟨outside, inside, hbefore, hstart⟩ := houterOpens.exists_split
    have hle : outer.start ≤ before.size := by
      rw [hbefore, Text.size_append]
      omega
    obtain ⟨m', rfl⟩ := exists_cons_between houter hne
    rw [List.append_assoc] at hfront
    exact Nat.le_trans hle (size_le_of_props hfront)
  | @aliased front outside param hfront hname _ hhead =>
    apply Or.inr
    rw [List.append_assoc] at hfront
    obtain ⟨rfl, rfl, rfl⟩ := eq_keyword_of_param hm hne (nameEnds_of_opens houterOpens)
      (unattached_of_ends hhead) hname.2 hfront hafter
    exact ⟨rfl, rfl, outside, hhead, rfl⟩

end Inside

/-! ## 2. Two keywords of a text -/

theorem Occurs.eq_of_keywordAt (h : Occurs [] text a) (h' : Occurs [] text a')
    (hat : a.keywordAt = a'.keywordAt) : a = a' := by
  obtain ⟨s, t, rfl, hkey, hs⟩ := h.exists_split
  obtain ⟨s', t', hsplit, hkey', hs'⟩ := h'.exists_split
  rw [hs, hs'] at hat
  obtain ⟨rfl, rfl⟩ := Text.append_inj_of_size hsplit hat
  exact Option.some.inj (hkey.symm.trans hkey')

/-- The text from the first of two keywords on is what is between them and what follows. -/
theorem exists_between_of_lt (houter : Occurs [] text outer) (hinner : Occurs [] text inner)
    (hlt : outer.keywordAt < inner.keywordAt) :
    ∃ before m t, text = before ++ (m ++ t) ∧ m ≠ [] ∧
      ofKeyword? ⟨before.reverse, m ++ t⟩ = some outer ∧
      ofKeyword? ⟨(before ++ m).reverse, t⟩ = some inner := by
  obtain ⟨before, t', rfl, hkey, hbefore⟩ := houter.exists_split
  obtain ⟨s, t, hsplit, hkey', hs⟩ := hinner.exists_split
  rw [hbefore, hs] at hlt
  obtain ⟨m, rfl, rfl⟩ := Text.exists_between hsplit (Nat.le_of_lt hlt)
  refine ⟨before, m, t, rfl, ?_, hkey, hkey'⟩
  rintro rfl
  rw [List.append_nil] at hlt
  exact Nat.lt_irrefl _ hlt

theorem Occurs.stop_eq (houter : Occurs [] text outer) (hinner : Occurs [] text inner)
    (hlt : outer.keywordAt < inner.keywordAt) (hin : inner.keywordAt < outer.stop) :
    inner.stop = outer.stop := by
  obtain ⟨before, m, t, -, -, hkey, hkey'⟩ := exists_between_of_lt houter hinner hlt
  rw [List.reverse_append] at hkey'
  exact stop_eq_of_keyword_inside hkey hkey' hin

/-- **The outer accessor starts first unless it shadows the inner one.** -/
theorem Occurs.start_le_or_shadows (houter : Occurs [] text outer) (hinner : Occurs [] text inner)
    (hlt : outer.keywordAt < inner.keywordAt) (hin : inner.keywordAt < outer.stop) :
    outer.start ≤ inner.start ∨ Shadows text outer inner := by
  obtain ⟨before, m, t, rfl, hne, hkey, hkey'⟩ := exists_between_of_lt houter hinner hlt
  apply (start_le_or_aliased hkey hkey' hne hin).imp_right
  rintro ⟨rfl, hform, outside, hhead, hstart⟩
  obtain ⟨rest, hafter, hpath, hopen, hpathStart⟩ := ofKeyword?_eq_some_iff.mp hkey
  obtain ⟨rest', rfl, hpath', -, hpathStart'⟩ := ofKeyword?_eq_some_iff.mp hkey'
  obtain rfl := List.append_cancel_left hafter
  obtain ⟨hplain, hat⟩ := opens_of_ends (opening?_eq_some_iff.mp hopen) hhead
  simp only [Cursor.offset, Text.size_reverse, ← Text.size_append] at hpathStart hpathStart'
  rw [pathFrom_keyword_append] at hpath
  refine ⟨outside, before, rest', rfl, hhead, ?_, ?_⟩
  · rw [← hplain, ← hat, ← hpathStart, ← hpath]
  · rw [← hform, ← hstart, ← hpathStart', ← hpath']

theorem Shadows.lt_length (h : Shadows text outer inner) :
    outer.span.length < inner.span.length := by
  obtain ⟨outside, before, rest, -, hhead, rfl, rfl⟩ := h
  have hlt : outside.size < before.size := by
    cases hhead with
    | intro _ _ _ _ _ =>
      simp only [Text.size_append, Text.size_cons]
      have hpos := ('(').utf8Size_pos
      omega
  simp only [Span.length, span, stop, Text.size_append]
  omega

theorem Shadows.keywordAt_eq (h : Shadows text outer inner) :
    inner.keywordAt = outer.pathStart := by
  obtain ⟨outside, before, rest, -, -, rfl, rfl⟩ := h
  rw [keywordAt, Text.size_append (before ++ keyword), Nat.add_sub_cancel]

/-! ## 3. The answer of the point query -/

variable {hit : Hit}

/-- **Every accessor that touches a place begins in the one that a pass takes there.** -/
theorem exists_touching_of_occursAt (h : OccursAt text o a) :
    ∃ first ∈ touching text o, first = a ∨
      first.keywordAt < a.keywordAt ∧ a.keywordAt < first.stop := by
  obtain ⟨hocc, htouch⟩ := h
  by_cases hin : a ∈ within text ⟨0, text.size⟩
  · exact ⟨a, List.mem_filter.mpr ⟨hin, htouch⟩, .inl rfl⟩
  -- what is not taken has something in front of it that is
  have hwindow : Span.contains ⟨0, text.size⟩ a.keywordAt = true := by
    have hbounds := hocc.keywordAt_bounds
    rw [Text.size_nil, Nat.zero_add] at hbounds
    exact Span.contains_iff.mpr hbounds
  have hhidden : ¬ ∀ first ∈ within text ⟨0, text.size⟩,
      first.keywordAt < a.keywordAt → first.stop ≤ a.keywordAt := by
    intro hfree
    exact hin (mem_within_iff.mpr ⟨hocc, hwindow, hfree⟩)
  simp only [not_forall, Nat.not_le] at hhidden
  obtain ⟨first, hfirst, hlt, hstop⟩ := hhidden
  refine ⟨first, List.mem_filter.mpr ⟨hfirst, ?_⟩, .inr ⟨hlt, hstop⟩⟩
  have hoccFirst := (occurs_of_mem_scan hfirst).1
  obtain ⟨hge, hle⟩ := Span.touches_iff.mp htouch
  apply Span.touches_iff.mpr
  constructor
  · simp only [keywordAt] at hlt
    simp only [pathSpan] at hge ⊢
    omega
  · show o ≤ first.stop
    rw [← hoccFirst.stop_eq hocc hlt hstop]
    exact hle

theorem occursAt_of_mem_touching (h : a ∈ touching text o) : OccursAt text o a := by
  obtain ⟨hin, htouch⟩ := List.mem_filter.mp h
  exact ⟨(occurs_of_mem_scan hin).1, htouch⟩

/-- What touches the place is no longer than what is taken there, unless that shadows it. -/
theorem length_le_or_shadows (h : a ∈ touching text o) (hother : OccursAt text o a') :
    a'.span.length ≤ a.span.length ∨ Shadows text a a' := by
  obtain ⟨first, hfirst, heq | ⟨hlt, hstop⟩⟩ := exists_touching_of_occursAt hother
  · apply Or.inl
    rw [← heq, eq_of_mem_touching hfirst h]
  · obtain rfl := eq_of_mem_touching hfirst h
    have hocc := (occursAt_of_mem_touching h).1
    refine (hocc.start_le_or_shadows hother.1 hlt hstop).imp_left ?_
    intro hstart
    show a'.stop - a'.start ≤ first.stop - first.start
    rw [hocc.stop_eq hother.1 hlt hstop]
    exact Nat.sub_le_sub_left hstart _

/-- What is taken at a place is the longest there exactly when it shadows nothing. -/
theorem isLongest_iff (h : a ∈ touching text o) :
    IsLongest text o a ↔ ¬ ∃ inner, OccursAt text o inner ∧ Shadows text a inner := by
  constructor
  · rintro hlongest ⟨inner, hinner, hshadows⟩
    exact absurd (hlongest inner hinner) (Nat.not_le_of_lt hshadows.lt_length)
  · intro hnone other hother
    rcases length_le_or_shadows h hother with hle | hshadows
    · exact hle
    · exact absurd ⟨other, hother, hshadows⟩ hnone

/-- What is shadowed is the longest accessor at its place. -/
theorem isLongest_of_shadows (h : a ∈ touching text o) (hinner : OccursAt text o inner)
    (hshadows : Shadows text a inner) : IsLongest text o inner := by
  intro other hother
  rcases length_le_or_shadows h hother with hle | hshadows'
  · exact Nat.le_trans hle (Nat.le_of_lt hshadows.lt_length)
  · have hat : other.keywordAt = inner.keywordAt := by
      rw [hshadows'.keywordAt_eq, hshadows.keywordAt_eq]
    rw [hother.1.eq_of_keywordAt hinner.1 hat]

/-- **The point query answers with the longest accessor, but for one kind of text.** It answers
    wherever an accessor of some keyword touches the place that the offset is rounded down to, and
    with one of these. Its answer is the longest of them unless it is the outer one of
    `(theme) => theme.theme.`; then the inner one is the longest. -/
theorem at?_isLongest_iff (text : Text) (offset : Nat) :
    ∃ o, text.RoundsDown offset o ∧
      ((at? text offset).isSome = true ↔ offset ≤ text.size ∧ ∃ a, OccursAt text o a) ∧
      ∀ hit, at? text offset = some hit →
        OccursAt text o hit.accessor ∧
        (IsLongest text o hit.accessor ↔
          ¬ ∃ inner, OccursAt text o inner ∧ Shadows text hit.accessor inner) ∧
        ∀ inner, OccursAt text o inner → Shadows text hit.accessor inner →
          IsLongest text o inner := by
  refine ⟨_, text.roundsDown_seek offset, ?_, ?_⟩
  · constructor
    · intro h
      obtain ⟨hit, hhit⟩ := Option.isSome_iff_exists.mp h
      obtain ⟨hle, hmem, -⟩ := at?_eq_some_iff.mp hhit
      exact ⟨hle, hit.accessor, occursAt_of_mem_touching hmem⟩
    · rintro ⟨hle, a, ha⟩
      obtain ⟨first, hfirst, -⟩ := exists_touching_of_occursAt ha
      obtain ⟨hin, htouch⟩ := List.mem_filter.mp hfirst
      obtain ⟨typed, -, hslice⟩ := exists_typed_of_touches hin (text.text_seek offset) htouch
      have hhit : at? text offset = some ⟨first, typed⟩ :=
        at?_eq_some_iff.mpr ⟨hle, hfirst, hslice⟩
      rw [hhit]
      rfl
  · intro hit hhit
    obtain ⟨-, hmem, -⟩ := at?_eq_some_iff.mp hhit
    refine ⟨occursAt_of_mem_touching hmem, isLongest_iff hmem, ?_⟩
    intro inner hinner hshadows
    exact isLongest_of_shadows hmem hinner hshadows

/-- In `(theme) => theme.theme.x` the second keyword has an accessor, that of the parameter. -/
theorem occursAt_ofParameter :
    OccursAt "(theme) => theme.theme.x".toList 24 ⟨0, .aliased, 23, ['x']⟩ :=
  ⟨⟨"(theme) => theme.".toList, "theme.x".toList, by decide +kernel, by decide +kernel⟩,
    by decide +kernel⟩

/-- At the end of `(theme) => theme.theme.x` the answer is `theme.theme.x`, a plain accessor. The
    longest one is that of the parameter, which starts at the head. -/
theorem at?_isLongest_iff_ofParameter :
    let text : Text := "(theme) => theme.theme.x".toList
    let inner : Accessor := ⟨0, .aliased, 23, ['x']⟩
    ∃ hit, at? text 24 = some hit ∧ hit.accessor.form = .plain ∧ hit.accessor.span = ⟨11, 24⟩ ∧
      ¬ IsLongest text 24 hit.accessor ∧ IsLongest text 24 inner := by
  intro text inner
  let hit : Hit := ⟨⟨11, .plain, 17, "theme.x".toList⟩, "theme.x".toList⟩
  have hhit : at? text 24 = some hit := by decide +kernel
  have hinner : OccursAt text 24 inner := occursAt_ofParameter
  have hhead : Head.before "(theme) => ".toList.reverse = .found 0 (.name themeName) := by
    decide +kernel
  obtain ⟨outside, hends, hsize⟩ := Head.before_eq_found_iff.mp hhead
  have hshadows : Shadows text hit.accessor inner := by
    refine ⟨outside, "(theme) => ".toList, ['x'], by decide +kernel, hends, by decide +kernel, ?_⟩
    rw [← hsize]
    decide +kernel
  obtain ⟨o, hround, -, hanswer⟩ := at?_isLongest_iff text 24
  obtain rfl : o = 24 :=
    Nat.le_antisymm hround.le (hround.last text [] (List.append_nil text).symm (by decide +kernel))
  obtain ⟨-, hlongest, hshadowed⟩ := hanswer hit hhit
  exact ⟨hit, hhit, rfl, by decide +kernel, fun h => hlongest.mp h ⟨inner, hinner, hshadows⟩,
    hshadowed inner hinner hshadows⟩

/-- The answer is not the longest accessor everywhere. -/
theorem not_forall_isLongest :
    ¬ ∀ (text : Text) (offset o : Nat), offset ≤ text.size → text.RoundsDown offset o →
      (∃ a, OccursAt text o a) →
        ∃ hit, at? text offset = some hit ∧ IsLongest text o hit.accessor := by
  intro hall
  let text : Text := "(theme) => theme.theme.x".toList
  have hat : (text.seek 24).offset = 24 := by decide +kernel
  obtain ⟨hit, hhit, hlongest⟩ :=
    hall text 24 24 (by decide +kernel) (hat ▸ text.roundsDown_seek 24) ⟨_, occursAt_ofParameter⟩
  have hanswer : at? text 24 =
      some ⟨⟨11, .plain, 17, "theme.x".toList⟩, "theme.x".toList⟩ := by decide +kernel
  obtain rfl := Option.some.inj (hhit.symm.trans hanswer)
  exact absurd (hlongest _ occursAt_ofParameter) (by decide +kernel)

end ThemeLens.Accessor
