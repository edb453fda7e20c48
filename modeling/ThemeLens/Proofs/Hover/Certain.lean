import ThemeLens.Proofs.Hover.Labels
import ThemeLens.Proofs.Theme.FlatTable

/-!
# What a certain hover is about

A cursor inside the path of an accessor is on one of its segments, and the hover there is about the
path through that segment: up to the next dot, or up to the end, where a dot does not count. `Through`
says so on the path and the bytes typed of it, and a hover is certain exactly when the table has the
path through the segment (`at?_high_iff`).

Many segments, many hovers. But each of them is about a path that the whole path is within, and of two
such paths one is within the other. A table that was made from a theme never has both, so on one
accessor all certain hovers are about one path, and there is none on a segment before the last one of a
leaf.
-/

namespace ThemeLens

open DottedPath (isWithin isWithin_iff isBelow_iff)

namespace Hover

/-! ## 1. The path through a segment -/

/-- A path without the dot at its end, if it has one there. -/
def Undotted (path p : Text) : Prop := path = p ∧ path.getLast? ≠ some '.' ∨ path = p ++ ['.']

/-- `q` is a path through the segment that the bytes typed reach into: the part before the first dot
    at byte `typed` or behind it, or the whole path without a dot at its end if there is no such dot. -/
inductive Through (path : Text) (typed : Nat) : Text → Prop
  | toDot {q rest : Text} (hpath : path = q ++ '.' :: rest) (htyped : typed ≤ q.size)
      (hfirst : ∀ q' rest', path = q' ++ '.' :: rest' → typed ≤ q'.size → q.size ≤ q'.size) :
      Through path typed q
  | toEnd {q : Text} (hnone : ∀ q' rest', path = q' ++ '.' :: rest' → q'.size < typed)
      (hpath : Undotted path q) : Through path typed q

theorem Undotted.isWithin {path p : Text} (h : Undotted path p) : isWithin path p = true := by
  rcases h with ⟨rfl, -⟩ | rfl
  · exact isWithin_iff.mpr (.inl rfl)
  · exact isWithin_iff.mpr (.inr (isBelow_iff.mpr ⟨[], rfl⟩))

theorem Through.isWithin {path q : Text} {typed : Nat} (h : Through path typed q) :
    isWithin path q = true := by
  cases h with
  | toDot hpath => exact isWithin_iff.mpr (.inr (isBelow_iff.mpr ⟨_, hpath⟩))
  | toEnd _ hpath => exact hpath.isWithin

theorem Undotted.unique {path p p' : Text} (h : Undotted path p) (h' : Undotted path p') : p = p' := by
  rcases h with ⟨rfl, hlast⟩ | rfl <;> rcases h' with ⟨h', hlast'⟩ | h'
  · exact h'
  · simp [h'] at hlast
  · simp at hlast'
  · exact (List.append_inj' h' rfl).1

theorem Through.unique {path q q' : Text} {typed : Nat} (h : Through path typed q)
    (h' : Through path typed q') : q = q' := by
  cases h with
  | toDot hpath htyped hfirst =>
    cases h' with
    | toDot hpath' htyped' hfirst' =>
      have hsize := Nat.le_antisymm (hfirst _ _ hpath' htyped') (hfirst' _ _ hpath htyped)
      exact (Text.append_inj_of_size (hpath.symm.trans hpath') hsize).1
    | toEnd hnone => exact absurd (hnone _ _ hpath) (Nat.not_lt_of_le htyped)
  | toEnd hnone hpath =>
    cases h' with
    | toDot hpath' htyped' => exact absurd (hnone _ _ hpath') (Nat.not_lt_of_le htyped')
    | toEnd _ hpath' => exact hpath.unique hpath'

theorem undotted_rdropWhile {path : Text} (hpath : Accessor.pathFrom false path = path) :
    Undotted path (path.rdropWhile (· == '.')) := by
  rcases List.eq_nil_or_concat path with rfl | ⟨front, c, rfl⟩
  · exact .inl ⟨rfl, by simp⟩
  rw [List.concat_eq_append] at hpath ⊢
  by_cases hc : c = '.'
  · subst hc
    have hfront : front.rdropWhile (· == '.') = front :=
      DottedPath.rdropWhile_dot_eq_self_iff.mpr (Accessor.getLast?_ne_dot_of_pathFrom hpath)
    rw [List.rdropWhile_concat_pos _ _ _ (by simp), hfront]
    exact .inr rfl
  · have hlast : (front ++ [c]).getLast? ≠ some '.' := by simpa using hc
    rw [DottedPath.rdropWhile_dot_eq_self_iff.mpr hlast]
    exact .inl ⟨rfl, hlast⟩

/-- **What is looked up is the path through the segment** that was reached. -/
theorem through_pathThrough {typed more : Text}
    (hpath : Accessor.pathFrom false (typed ++ more) = typed ++ more) :
    Through (typed ++ more) typed.size (pathThrough (typed ++ more) typed.length) := by
  have hbehind (q rest : Text) (hsplit : typed ++ more = q ++ '.' :: rest)
      (hle : typed.size ≤ q.size) : ∃ n, q = typed ++ n ∧ more = n ++ '.' :: rest :=
    Text.exists_between hsplit hle
  have hreached : pathThrough (typed ++ more) typed.length =
      (typed ++ more.takeWhile (· != '.')).rdropWhile (· == '.') := by
    rw [pathThrough, List.take_left, List.drop_left]
    rfl
  rw [hreached]
  rcases Text.exists_mark_or_notMem '.' more with hdot | ⟨segment, rest, rfl, hdot⟩
  · have hall : more.takeWhile (· != '.') = more := congrArg Prod.fst (Text.cut_of_notMem hdot)
    rw [hall]
    refine .toEnd ?_ (undotted_rdropWhile hpath)
    intro q rest hsplit
    rw [← Nat.not_le]
    intro hle
    obtain ⟨n, -, rfl⟩ := hbehind q rest hsplit hle
    simp at hdot
  · have hsegment : (segment ++ '.' :: rest).takeWhile (· != '.') = segment :=
      congrArg Prod.fst (Text.cut_mark hdot rest)
    rw [← List.append_assoc] at hpath
    rw [hsegment, DottedPath.rdropWhile_dot_eq_self_iff.mpr (Accessor.getLast?_ne_dot_of_pathFrom hpath)]
    refine .toDot (List.append_assoc _ _ _).symm (by simp) ?_
    intro q rest' hsplit hle
    obtain ⟨n, rfl, hn⟩ := hbehind q rest' hsplit hle
    rw [← Nat.not_lt]
    intro hlt
    simp only [Text.size_append] at hlt
    obtain ⟨m, rfl, hm⟩ := Text.exists_between hn.symm (by omega)
    cases m with
    | nil => simp at hlt
    | cons c m =>
      cases hm
      simp at hdot

/-- With all of a path typed, it is the path itself, without a dot at its end. -/
theorem Through.undotted {path q : Text} (h : Through path path.size q) : Undotted path q := by
  cases h with
  | toDot hpath htyped =>
    have hsize := congrArg Text.size hpath
    rw [Text.size_append, Text.size_cons] at hsize
    have hpos := Char.utf8Size_pos '.'
    omega
  | toEnd _ hpath => exact hpath

/-- A path through a segment goes as far as what is typed, unless the dot at the end is typed. -/
theorem Through.le_or_dotted {typed more q : Text} (h : Through (typed ++ more) typed.size q) :
    typed.size ≤ q.size ∨
      typed ++ more = q ++ ['.'] ∧ typed.size = Text.size (q ++ ['.']) := by
  cases h with
  | toDot _ htyped => exact .inl htyped
  | toEnd hnone hpath =>
    rcases hpath with ⟨rfl, -⟩ | hdot
    · left
      simp
    · right
      have hlt : q.size < typed.size := hnone q [] hdot
      have hsize := congrArg Text.size hdot
      rw [Text.size_append, Text.size_append, Text.size_dot] at hsize
      refine ⟨hdot, ?_⟩
      rw [Text.size_append, Text.size_dot]
      omega

/-! ## 2. Certain hovers -/

variable {text : Text} {table : Table} {offset radius : Nat} {h : Hover}

/-- What `h` is, as the hover on a path that a hit reaches and the table has. -/
def Certain (table : Table) (hit : Accessor.Hit) (h : Hover) : Prop :=
  ∃ q value, Through hit.accessor.path hit.typed.size q ∧ table.get? q = some value ∧
    h = ⟨q, value, .high, ⟨hit.accessor.pathStart, hit.accessor.pathStart + q.size⟩⟩

theorem certain?_eq_some_iff :
    certain? text offset table = some h ↔
      ∃ hit, Accessor.at? text offset = some hit ∧ Certain table hit h := by
  unfold certain?
  rw [Option.bind_eq_some_iff]
  refine exists_congr fun hit => and_congr_right fun hhit => ?_
  obtain ⟨more, hpath, hself, -⟩ := Accessor.exists_path_of_at? hhit
  have hthrough : Through hit.accessor.path hit.typed.size
      (pathThrough hit.accessor.path hit.typed.length) := by
    rw [hpath]
    exact through_pathThrough hself
  rw [Option.map_eq_some_iff]
  constructor
  · rintro ⟨value, hvalue, rfl⟩
    exact ⟨_, value, hthrough, hvalue, rfl⟩
  · rintro ⟨q, value, hq, hvalue, rfl⟩
    obtain rfl := hq.unique hthrough
    exact ⟨value, hvalue, rfl⟩

/-- A certain hover is about a node on the way to the path of its accessor, and the table has it. -/
theorem Certain.node {hit : Accessor.Hit} (hh : Certain table hit h) :
    isWithin hit.accessor.path h.path = true ∧ h.path ∈ table.keys := by
  obtain ⟨q, value, hq, hvalue, rfl⟩ := hh
  exact ⟨hq.isWithin, List.mem_map_of_mem (OrderedMap.get?_eq_some_iff.mp hvalue)⟩

/-- `h` is a certain hover at some offset in the path of `a`. -/
def IsCertainOn (text : Text) (table : Table) (a : Accessor) (h : Hover) : Prop :=
  ∃ offset typed radius, Accessor.at? text offset = some ⟨a, typed⟩ ∧
    at? text offset table radius = some h ∧ h.confidence = .high

theorem IsCertainOn.node {a : Accessor} (hh : IsCertainOn text table a h) :
    isWithin a.path h.path = true ∧ h.path ∈ table.keys := by
  obtain ⟨offset, typed, radius, hhit, hat⟩ := hh
  obtain ⟨hit, hhit', hcertain⟩ := certain?_eq_some_iff.mp (at?_eq_some_high_iff.mp hat)
  rw [hhit] at hhit'
  cases hhit'
  exact hcertain.node

/-- The path of an accessor is one of the table, a dot at its end left out. -/
def Resolves (table : Table) (a : Accessor) : Prop := ∃ leaf, Undotted a.path leaf ∧ leaf ∈ table.keys

/-- The cursor is on a segment that another one follows. -/
def OnInnerSegment (hit : Accessor.Hit) : Prop :=
  ∃ q rest, hit.accessor.path = q ++ '.' :: rest ∧ rest ≠ [] ∧ hit.typed.size ≤ q.size

theorem Certain.not_onInnerSegment {hit : Accessor.Hit} {callableKey : Text}
    (hh : Certain table hit h) (hflat : table.IsFlat callableKey)
    (hleaf : Resolves table hit.accessor) : ¬ OnInnerSegment hit := by
  rintro ⟨q, rest, hpath, hrest, htyped⟩
  obtain ⟨leaf, hundotted, hmem⟩ := hleaf
  obtain rfl : h.path = leaf :=
    hflat.node_unique hh.node.1 hundotted.isWithin hh.node.2 hmem
  obtain ⟨p, value, hthrough, -, rfl⟩ := hh
  -- the hover is about no more than the inner segment, and the leaf is more than that
  have hle : p.size ≤ q.size := by
    cases hthrough with
    | toDot _ _ hfirst => exact hfirst q rest hpath htyped
    | toEnd hnone => exact absurd (hnone q rest hpath) (Nat.not_lt_of_le htyped)
  have hpos : 0 < Text.size rest := Nat.pos_of_ne_zero (mt Text.size_eq_zero_iff.mp hrest)
  rcases hundotted with ⟨hp, -⟩ | hp <;> have hsize := congrArg Text.size (hp.symm.trans hpath)
  · simp only [Text.size_append, Text.size_cons] at hsize
    omega
  · simp only [Text.size_append, Text.size_cons, Text.size_nil] at hsize
    omega

/-- **Certain hovers are exact.** A hover is certain exactly when the table has the path through the
    segment under the cursor; it then gives that path, its value and the bytes that name it. With a
    table that was made from a theme, all certain hovers on one accessor are about one path, so there is
    none on an inner segment of an accessor that resolves to a leaf. -/
theorem at?_high_iff (text : Text) (table : Table) :
    (∀ offset radius h, at? text offset table radius = some h ∧ h.confidence = .high ↔
      ∃ hit q value, Accessor.at? text offset = some hit ∧
        Through hit.accessor.path hit.typed.size q ∧ table.get? q = some value ∧
        h = ⟨q, value, .high, ⟨hit.accessor.pathStart, hit.accessor.pathStart + q.size⟩⟩) ∧
    ∀ (theme : Theme) callableKey, theme.flatten callableKey = .ok table →
      (∀ a h h', IsCertainOn text table a h → IsCertainOn text table a h' → h.path = h'.path) ∧
      ∀ offset radius hit h, Accessor.at? text offset = some hit → Resolves table hit.accessor →
        OnInnerSegment hit → at? text offset table radius = some h → h.confidence ≠ .high := by
  refine ⟨?_, ?_⟩
  · intro offset radius h
    rw [at?_eq_some_high_iff, certain?_eq_some_iff]
    simp only [Certain, exists_and_left]
  · intro theme callableKey hflatten
    have hflat : table.IsFlat callableKey := Theme.isFlat_of_flatten hflatten
    refine ⟨?_, ?_⟩
    · intro a h h' hh hh'
      exact hflat.node_unique hh.node.1 hh'.node.1 hh.node.2 hh'.node.2
    · intro offset radius hit h hhit hleaf hinner hat hhigh
      obtain ⟨hit', hhit', hcertain⟩ :=
        certain?_eq_some_iff.mp (at?_eq_some_high_iff.mp ⟨hat, hhigh⟩)
      rw [hhit] at hhit'
      cases hhit'
      exact hcertain.not_onInnerSegment hflat hleaf hinner

/-- In `theme.a.b.` the hovers in front of `b` and behind the last dot are about `a.b`. The one behind
    `a` is not certain; with another path of the table it is a guess. -/
theorem at?_high_iff_innerSegment :
    let text : Text :=
      ['c', 's', 's', '\x60', '$', '\x7b', 't', 'h', 'e', 'm', 'e', '.', 'a', '.', 'b', '.']
    let theme : Theme :=
      ⟨#[.composite ⟨[(['a'], 1), (['t', 'h', 'e', 'm', 'e', '.', 'a', '.', 'b'], 3)], by decide⟩,
        .composite ⟨[(['b'], 2)], by decide⟩, .scalar (.bool true), .scalar (.bool false)], 0⟩
    let table : Table :=
      ⟨[(['a', '.', 'b'], .scalar (.bool true)),
        (['t', 'h', 'e', 'm', 'e', '.', 'a', '.', 'b'], .scalar (.bool false))], by decide⟩
    theme.flatten ['s'] = .ok table ∧
      (∃ a h h', IsCertainOn text table a h ∧ IsCertainOn text table a h' ∧ h.path = h'.path) ∧
      ∃ h, at? text 13 table 0 = some h ∧ h.confidence ≠ .high := by
  intro text theme table
  let a : Accessor := ⟨6, .plain, 12, ['a', '.', 'b', '.']⟩
  let h : Hover := ⟨['a', '.', 'b'], .scalar (.bool true), .high, ⟨12, 15⟩⟩
  let guess : Hover :=
    ⟨['t', 'h', 'e', 'm', 'e', '.', 'a', '.', 'b'], .scalar (.bool false), .inferred, ⟨6, 15⟩⟩
  have hflatten : theme.flatten ['s'] = .ok table := by
    simp [Theme.flatten, Theme.visitAll, Theme.visit, theme, Theme.node?, Theme.emit]
    rfl
  have hcertain {offset : Nat} {typed : Text} (hhit : Accessor.at? text offset = some ⟨a, typed⟩)
      (hpath : pathThrough a.path typed.length = ['a', '.', 'b']) : IsCertainOn text table a h := by
    have hlook : certain? text offset table = some h := by
      simp only [certain?, hhit, Option.bind_some, hpath]
      rfl
    exact ⟨offset, typed, 0, hhit, at?_eq_some_high_iff.mpr hlook⟩
  have hbefore : IsCertainOn text table a h :=
    hcertain (show Accessor.at? text 14 = some ⟨a, ['a', '.']⟩ by decide +kernel) rfl
  have hbehind : IsCertainOn text table a h :=
    hcertain (show Accessor.at? text 16 = some ⟨a, ['a', '.', 'b', '.']⟩ by decide +kernel) rfl
  have hhit : Accessor.at? text 13 = some ⟨a, ['a']⟩ := by decide +kernel
  have hguess : at? text 13 table 0 = some guess := by
    have hrun : (text.seek 13).dottedRun? = some ⟨6, guess.path⟩ := by decide +kernel
    have hstyled : looksStyled ((text.seek 13).lines 0).text = true := by decide +kernel
    simp only [at?, certain?, hhit, guessed?, hrun, hstyled, Option.bind_some]
    rfl
  have hleaf : Resolves table a := ⟨['a', '.', 'b'], .inr rfl, by decide⟩
  have hinner : OnInnerSegment ⟨a, ['a']⟩ := ⟨['a'], ['b', '.'], rfl, by decide, by decide⟩
  obtain ⟨-, hflat⟩ := at?_high_iff text table
  obtain ⟨hsame, hnone⟩ := hflat theme ['s'] hflatten
  exact ⟨hflatten, ⟨a, h, h, hbefore, hbehind, hsame a h h hbefore hbehind⟩, guess, hguess,
    hnone 13 0 ⟨a, ['a']⟩ guess hhit hleaf hinner hguess⟩

end Hover

end ThemeLens
