import ThemeLens.Proofs.Completion.Listing
import ThemeLens.Proofs.Theme.FlatTable

/-!
# Which leaves completion reaches

Someone who only ever accepts suggestions starts with nothing typed, and each suggestion that the
table goes on below leads to the next list. The suggestions met on the way are the `Offered` ones,
and a leaf is reached when the last segment of its path is among them.

Suggestions are segments, and a segment is never empty. The keys of a theme are less strict: they
may hold dots, so a path may begin or end with one or have two in a row. Such a path has a gap, an
empty part that no suggestion stands for, and completion never gets across it
(`not_forall_reaches`). A gap is the only thing that can be in the way
(`reaches_iff_gapless`): over every other path the list for each beginning has the next part, and
since no path of a theme stands above another one, the last part is offered as a leaf.
-/

namespace ThemeLens

open DottedPath (isBelow isWithin)

/-- No part of a path between its dots is empty. -/
def DottedPath.IsGapless (path : Text) : Prop := ∀ part ∈ path.splitOn '.', part ≠ []

instance (path : Text) : Decidable (DottedPath.IsGapless path) :=
  inferInstanceAs (Decidable (∀ part ∈ path.splitOn '.', part ≠ []))

namespace Suggestion

variable {table : Table} {typed path segment rest tail : Text} {s s' : Suggestion}

/-! ## 1. Chains of suggestions -/

/-- The suggestions that are listed when intermediate ones are accepted one after the other. -/
inductive Offered (table : Table) : Suggestion → Prop
  | first {s : Suggestion} (hs : s ∈ forPath [] table .never) : Offered table s
  | next {s s' : Suggestion} (h : Offered table s) (hinter : s.isIntermediate = true)
      (hs' : s' ∈ forPath (s.fullPath ++ ['.']) table .never) : Offered table s'

/-- The value of a path is offered at the end of some chain of suggestions. -/
def Reaches (table : Table) (path : Text) : Prop :=
  ∃ s, Offered table s ∧ s.isIntermediate = false ∧ s.fullPath = path ∧ s.value = table.get? path

/-! ## 2. Parts that are offered are not empty -/

theorem isGapless_append_segment (hfront : typed = [] ∨ ∃ t, typed = t ++ ['.'] ∧
    DottedPath.IsGapless t) (hs : IsSegment segment) : DottedPath.IsGapless (typed ++ segment) := by
  have hlast : segment.splitOn '.' = [segment] := List.splitOn_eq_singleton hs.2
  intro part hpart
  rcases hfront with rfl | ⟨t, rfl, ht⟩
  · rw [List.nil_append, hlast, List.mem_singleton] at hpart
    exact hpart ▸ hs.1
  · rw [List.append_assoc, List.singleton_append, List.splitOn_append_cons_self, hlast] at hpart
    rcases List.mem_append.mp hpart with hpart | hpart
    · exact ht part hpart
    · exact List.mem_singleton.mp hpart ▸ hs.1

/-- **Every suggestion on the way has a path without gaps.** Each adds one segment to the path of
    the one before it. -/
theorem Offered.isGapless (h : Offered table s) : DottedPath.IsGapless s.fullPath := by
  induction h with
  | first hs =>
    obtain ⟨segment, hsegment, -, rfl⟩ := mem_forPath_iff.mp hs
    exact isGapless_append_segment (.inl rfl) hsegment
  | @next s s' _ _ hs' ih =>
    obtain ⟨segment, hsegment, -, rfl⟩ := mem_forPath_iff.mp hs'
    have hboundary := DottedPath.boundary_eq_self (.inr ⟨s.fullPath, rfl⟩)
    exact isGapless_append_segment (.inr ⟨s.fullPath, hboundary, ih⟩) hsegment

/-! ## 3. Parts that are not empty are offered -/

/-- Behind a boundary, the next segment of every path of the table is listed. -/
theorem exists_mem_forPath (hfront : typed = [] ∨ ∃ t, typed = t ++ ['.']) (hs : IsSegment segment)
    (htail : IsTail tail) (hpath : typed ++ segment ++ tail ∈ table.keys) :
    ∃ s ∈ forPath typed table .never, s.fullPath = typed ++ segment := by
  have hlists := listsNext_forPath typed table
  rw [DottedPath.boundary_eq_self hfront] at hlists
  have hwithin : isWithin (typed ++ segment ++ tail) (typed ++ segment) = true := by
    rw [DottedPath.isWithin_iff]
    rcases htail with rfl | ⟨rest, rfl⟩
    · exact .inl (List.append_nil _)
    · exact .inr (DottedPath.isBelow_iff.mpr ⟨rest, rfl⟩)
  obtain ⟨s, hmem, rfl⟩ := List.mem_map.mp ((hlists.segments segment).mpr ⟨hs, _, hpath, hwithin⟩)
  exact ⟨s, hmem, hlists.fullPath s hmem⟩

theorem isIntermediate_iff (hs : s ∈ forPath typed table .never) :
    s.isIntermediate = true ↔ ∃ path ∈ table.keys, isBelow path s.fullPath = true :=
  (listsNext_forPath typed table).intermediate s hs

/-- **A path without gaps is reached** from any boundary whose suggestions are offered. The induction
    is on the parts that are still missing. -/
theorem exists_offered (hfront : typed = [] ∨ ∃ t, typed = t ++ ['.'])
    (hoffers : ∀ s ∈ forPath typed table .never, Offered table s)
    (hpath : typed ++ rest ∈ table.keys)
    (hleaf : ∀ path ∈ table.keys, isBelow path (typed ++ rest) = false)
    (hgapless : DottedPath.IsGapless rest) :
    ∃ s, Offered table s ∧ s.isIntermediate = false ∧ s.fullPath = typed ++ rest := by
  unfold DottedPath.IsGapless at hgapless
  generalize hparts : rest.splitOn '.' = parts at hgapless
  induction parts generalizing typed rest with
  | nil => exact absurd hparts (List.splitOn_ne_nil _ _)
  | cons part parts ih =>
    rcases Text.exists_mark_or_notMem '.' rest with hdot | ⟨segment, more, rfl, hdot⟩
    · -- the last part: it is listed, and nothing goes on below it
      rw [List.splitOn_eq_singleton hdot] at hparts
      obtain ⟨rfl, rfl⟩ := List.cons_eq_cons.mp hparts
      have hs : IsSegment rest := ⟨hgapless rest List.mem_cons_self, hdot⟩
      obtain ⟨s, hmem, hfull⟩ := exists_mem_forPath hfront hs (.inl rfl)
        (by rwa [List.append_nil])
      refine ⟨s, hoffers s hmem, ?_, hfull⟩
      rw [Bool.eq_false_iff]
      intro hinter
      obtain ⟨path, hbelow, hin⟩ := (isIntermediate_iff hmem).mp hinter
      rw [hfull, hleaf path hbelow] at hin
      cases hin
    · rw [List.splitOn_append_cons_self_of_not_mem hdot] at hparts
      obtain ⟨rfl, rfl⟩ := List.cons_eq_cons.mp hparts
      have hs : IsSegment segment := ⟨hgapless segment List.mem_cons_self, hdot⟩
      have hsplit : typed ++ (segment ++ '.' :: more) = typed ++ segment ++ '.' :: more := by
        rw [List.append_assoc]
      have hnext : typed ++ (segment ++ '.' :: more) = typed ++ segment ++ ['.'] ++ more := by
        rw [hsplit, List.append_assoc _ ['.'], List.singleton_append]
      obtain ⟨s, hmem, hfull⟩ := exists_mem_forPath hfront hs (.inr ⟨more, rfl⟩) (hsplit ▸ hpath)
      have hinter : s.isIntermediate = true := by
        refine (isIntermediate_iff hmem).mpr ⟨_, hpath, ?_⟩
        rw [hfull]
        exact DottedPath.isBelow_iff.mpr ⟨more, hsplit⟩
      rw [hnext] at hpath hleaf ⊢
      refine ih (.inr ⟨_, rfl⟩) ?_ hpath hleaf rfl
        (fun part hpart => hgapless part (List.mem_cons_of_mem _ hpart))
      intro s' hs'
      rw [← hfull] at hs'
      exact .next (hoffers s hmem) hinter hs'

/-! ## 4. Leaves of themes -/

/-- **Completion reaches exactly the leaves whose paths have no gaps**, in the table of any theme. -/
theorem reaches_iff_gapless {theme : Theme} {callableKey : Text}
    (h : theme.flatten callableKey = .ok table) (hpath : path ∈ table.keys) :
    Reaches table path ↔ DottedPath.IsGapless path := by
  constructor
  · rintro ⟨s, hoffered, -, rfl, -⟩
    exact hoffered.isGapless
  · intro hgapless
    have hflat := Theme.isFlat_of_flatten h
    have hleaf : ∀ other ∈ table.keys, isBelow other path = false := fun other hother =>
      hflat.isBelow_eq_false hother hpath
    rw [← List.nil_append path] at hpath hleaf
    obtain ⟨s, hoffered, hterminal, rfl⟩ :=
      exists_offered (.inl rfl) (fun s hs => .first hs) hpath hleaf hgapless
    refine ⟨s, hoffered, hterminal, rfl, ?_⟩
    cases hoffered with
    | first hs => exact (get?_fullPath hs hterminal).2.symm
    | next _ _ hs => exact (get?_fullPath hs hterminal).2.symm

/-- A theme with the paths `a.b` and `c.`: the first is reached through `a`, and nothing leads to the
    second, which ends in an empty part. -/
theorem reaches_iff_gapless_trailingDot :
    let theme : Theme :=
      ⟨#[.composite ⟨[(['a'], 1), (['c', '.'], 2)], by decide⟩,
        .composite ⟨[(['b'], 2)], by decide⟩, .scalar (.bool true)], 0⟩
    let table : Table :=
      ⟨[(['a', '.', 'b'], .scalar (.bool true)), (['c', '.'], .scalar (.bool true))], by decide⟩
    theme.flatten ['s'] = .ok table ∧ Reaches table ['a', '.', 'b'] ∧
      ['c', '.'] ∈ table.keys ∧ ¬ Reaches table ['c', '.'] := by
  intro theme table
  have h : theme.flatten ['s'] = .ok table := by
    simp [Theme.flatten, Theme.visitAll, Theme.visit, theme, Theme.node?, Theme.emit]
    rfl
  have hfirst : ['a', '.', 'b'] ∈ table.keys := by decide
  have hsecond : ['c', '.'] ∈ table.keys := by decide
  refine ⟨h, (reaches_iff_gapless h hfirst).mpr (by decide), hsecond, ?_⟩
  rw [reaches_iff_gapless h hsecond]
  decide

/-- Not every leaf is reached: the only path of this theme ends in a dot. -/
theorem not_forall_reaches :
    ¬ ∀ (theme : Theme) (callableKey : Text) (table : Table),
      theme.flatten callableKey = .ok table → ∀ path ∈ table.keys, Reaches table path := by
  intro hall
  let theme : Theme :=
    ⟨#[.composite ⟨[(['a', '.'], 1)], by decide⟩, .scalar (.bool true)], 0⟩
  let table : Table := ⟨[(['a', '.'], .scalar (.bool true))], by decide⟩
  have h : theme.flatten ['s'] = .ok table := by
    simp [Theme.flatten, Theme.visitAll, Theme.visit, theme, Theme.node?, Theme.emit]
    rfl
  obtain ⟨s, hoffered, -, hfull, -⟩ := hall theme ['s'] table h ['a', '.'] (by decide)
  have hgapless := hoffered.isGapless
  rw [hfull] at hgapless
  exact hgapless [] (by decide) rfl

end Suggestion

end ThemeLens
