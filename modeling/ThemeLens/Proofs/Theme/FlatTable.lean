import Mathlib.Data.List.Forall2
import Mathlib.Data.List.Pairwise
import ThemeLens.Proofs.DottedPath
import ThemeLens.Proofs.Theme.Flattening
import ThemeLens.Proofs.Theme.Growth

/-!
# The tables of themes

Any ordered map of paths is a table, but not every one can come out of a theme. Those that can are
flat: no path is empty or stands above another, and a function stands only under the callable key.
This is exactly what they have in common (`exists_flatten_iff_isFlat`), and it is all that a query
may rely on about a table that was made from a theme.

That a flat table does come out of some theme is seen from the theme that has each of its paths as
one key. So flattening that theme gives the table back, and flattening what was flattened before
changes nothing (`flatten_ofTable_of_flatten`). It works because the callable rule looks at a key
from its last dot on: the whole path of a function and the key that it had have the same last part.
-/

namespace ThemeLens

open DottedPath (Clash partialSegment)

/-- What sets the tables of themes apart. -/
structure Table.IsFlat (table : Table) (callableKey : Text) : Prop where
  path_ne_nil : ∀ row ∈ table.entries, row.1 ≠ []
  function_kept : ∀ row ∈ table.entries, ∀ params, row.2 = .function params →
    partialSegment row.1 = callableKey
  apart : table.entries.Pairwise fun row row' => ¬ Clash row.1 row'.1

/-- Of the paths in the table of a theme none stands above another. -/
theorem Table.IsFlat.isBelow_eq_false {table : Table} {callableKey path node : Text}
    (h : table.IsFlat callableKey) (hpath : path ∈ table.keys) (hnode : node ∈ table.keys) :
    DottedPath.isBelow path node = false := by
  rw [Bool.eq_false_iff]
  intro hbelow
  obtain ⟨rest, hrest⟩ := DottedPath.isBelow_iff.mp hbelow
  obtain ⟨row, hrow, rfl⟩ := List.mem_map.mp hpath
  obtain ⟨row', hrow', rfl⟩ := List.mem_map.mp hnode
  have hne : row ≠ row' := by
    rintro rfl
    simpa using congrArg List.length hrest
  have hsymm : Std.Symm fun row row' : Text × Value => ¬ Clash row.1 row'.1 :=
    ⟨fun _ _ => mt Clash.symm⟩
  exact h.apart.forall hrow hrow' hne (.inr (.inl ⟨rest, hrest⟩))

/-- The table of a theme has at most one of the nodes on the way to a path. -/
theorem Table.IsFlat.node_unique {table : Table} {callableKey path q q' : Text}
    (hflat : table.IsFlat callableKey) (h : DottedPath.isWithin path q = true) (h' : DottedPath.isWithin path q' = true)
    (hq : q ∈ table.keys) (hq' : q' ∈ table.keys) : q = q' := by
  rcases DottedPath.eq_or_isBelow h h' with heq | hbelow | hbelow
  · exact heq
  · rw [hflat.isBelow_eq_false hq hq'] at hbelow
    cases hbelow
  · rw [hflat.isBelow_eq_false hq' hq] at hbelow
    cases hbelow

namespace Theme

variable {theme : Theme} {callableKey : Text} {table : Table} {rows : List (Text × Value)}

/-! ## 1. Tables of themes are flat -/

theorem partialSegment_of_leafValue? {key : Text} {node : Node} {params : List Text}
    (h : leafValue? callableKey key node = some (.function params)) :
    partialSegment key = callableKey := by
  cases node with
  | callable _ => exact (Option.ite_none_right_eq_some.mp h).1
  | _ => cases h

/-- Further up a leaf gets more keys in front of its path, and its last part stays. -/
theorem Unfolds.leaf_kept {branch : List NodeId} {i : Nat} {links : List (Text × NodeId)}
    {leaves : List Leaf} (h : Unfolds theme callableKey branch i links leaves) :
    ∀ l ∈ leaves, l.path ≠ [] ∧
      ∀ params, l.value = .function params → partialSegment l.path = callableKey := by
  induction h with
  | done =>
    intro l hl
    cases hl
  | leaf hkey _ hvalue _ ih =>
    intro l hl
    rcases List.mem_cons.mp hl with rfl | hl
    · refine ⟨hkey, ?_⟩
      rintro params rfl
      exact partialSegment_of_leafValue? hvalue
    · exact ih l hl
  | silent _ _ _ _ _ ih => exact ih
  | inner _ _ _ _ _ _ ihBelow ihRest =>
    intro l hl
    rcases List.mem_append.mp hl with hl | hl
    · obtain ⟨l', hl', rfl⟩ := List.mem_map.mp hl
      refine ⟨by simp [Leaf.under], ?_⟩
      intro params hvalue
      rw [Leaf.under, DottedPath.partialSegment_append_dot]
      exact (ihBelow l' hl').2 params hvalue
    · exact ihRest l hl

theorem isFlat_of_flatten (h : theme.flatten callableKey = .ok table) :
    table.IsFlat callableKey := by
  obtain ⟨links, leaves, -, hunf, hapart, hrows⟩ := flatten_eq_ok_iff_unfolds.mp h
  have hkept : ∀ row ∈ table.entries, row.1 ≠ [] ∧
      ∀ params, row.2 = .function params → partialSegment row.1 = callableKey := by
    intro row hrow
    rw [hrows] at hrow
    obtain ⟨l, hl, rfl⟩ := List.mem_map.mp hrow
    exact hunf.leaf_kept l hl
  refine ⟨?_, ?_, ?_⟩
  · intro row hrow
    exact (hkept row hrow).1
  · intro row hrow
    exact (hkept row hrow).2
  · rwa [hrows]

/-! ## 2. The theme of a table -/

/-- The keys of the root are the paths of the rows, and each leads to the node of the row's value. -/
def Shows (theme : Theme) (rows : List (Text × Value)) : Prop :=
  ∃ links, theme.node? theme.root = some (.composite links) ∧
    List.Forall₂ (fun link row => link.1 = row.1 ∧ theme.node? link.2 = some (nodeOfValue row.2))
      links.entries rows

theorem nodeOfValue_ne_composite (value : Value) (links : OrderedMap NodeId) :
    nodeOfValue value ≠ .composite links := by
  cases value <;> simp [nodeOfValue]

theorem keys_eq_of_forall₂ {α β : Type} {p : Text × α → Text × β → Prop} {xs : List (Text × α)}
    {ys : List (Text × β)} (h : List.Forall₂ (fun x y => x.1 = y.1 ∧ p x y) xs ys) :
    xs.map (·.1) = ys.map (·.1) := by
  induction h with
  | nil => rfl
  | cons hxy _ ih => rw [List.map_cons, List.map_cons, hxy.1, ih]

/-- One more row goes behind the others. Their nodes are kept, since none of them is the root. -/
theorem Shows.insert (h : theme.Shows rows) {path : Text} (value : Value)
    (hnew : path ∉ rows.map (·.1)) :
    (theme.insert theme.root path (nodeOfValue value)).2.Shows (rows ++ [(path, value)]) := by
  obtain ⟨links, hroot, hrows⟩ := h
  obtain ⟨theme', hinsert, hnode, hchild, hsame, hkeeps⟩ :=
    exists_insert hroot path (nodeOfValue value)
  rw [hinsert]
  refine ⟨_, hsame ▸ hnode, ?_⟩
  have hput : (links.insert path theme.nodes.size).entries =
      links.entries ++ [(path, theme.nodes.size)] := by
    refine Entries.put_of_notMem ?_
    rwa [keys_eq_of_forall₂ hrows]
  have hkept : List.Forall₂
      (fun link row => link.1 = row.1 ∧ theme'.node? link.2 = some (nodeOfValue row.2))
      links.entries rows := by
    refine hrows.imp ?_
    intro link row hlink
    refine ⟨hlink.1, hkeeps ?_ hlink.2⟩
    intro heq
    rw [heq, hroot] at hlink
    exact nodeOfValue_ne_composite _ _ (Option.some.inj hlink.2).symm
  rw [hput]
  exact List.rel_append hkept (.cons ⟨rfl, hchild⟩ .nil)

theorem Shows.foldl (h : theme.Shows rows) (more : List (Text × Value))
    (hnodup : ((rows ++ more).map (·.1)).Nodup) :
    (more.foldl (fun theme row => (theme.insert theme.root row.1 (nodeOfValue row.2)).2)
      theme).Shows (rows ++ more) := by
  induction more generalizing theme rows with
  | nil => simpa using h
  | cons row more ih =>
    rw [List.append_cons] at hnodup ⊢
    have hnew : row.1 ∉ rows.map (·.1) := by
      rw [List.map_append, List.map_append] at hnodup
      have hfirst := (List.nodup_append.mp (List.nodup_append.mp hnodup).1).2.2
      intro hmem
      exact hfirst _ hmem _ (by simp) rfl
    exact ih (h.insert row.2 hnew) hnodup

/-- **The theme of a table shows its rows.** -/
theorem shows_ofTable (table : Table) : (ofTable table).Shows table.entries := by
  have hempty : empty.Shows [] := ⟨∅, rfl, .nil⟩
  exact hempty.foldl table.entries table.nodup

/-! ## 3. Flattening it -/

theorem leafValue?_nodeOfValue {key : Text} {value : Value}
    (h : ∀ params, value = .function params → partialSegment key = callableKey) :
    leafValue? callableKey key (nodeOfValue value) = some value := by
  cases value with
  | scalar _ => rfl
  | list _ => rfl
  | function params => exact if_pos (h params rfl)

/-- Links to the nodes of rows unfold to the rows, one leaf for each. -/
theorem exists_unfolds_of_forall₂ (branch : List NodeId) {links : List (Text × NodeId)}
    (h : List.Forall₂
      (fun link row => link.1 = row.1 ∧ theme.node? link.2 = some (nodeOfValue row.2)) links rows)
    (hkept : ∀ row ∈ rows, row.1 ≠ [] ∧
      ∀ params, row.2 = .function params → partialSegment row.1 = callableKey) (i : Nat) :
    ∃ leaves, Unfolds theme callableKey branch i links leaves ∧ leaves.map Leaf.row = rows := by
  induction h generalizing i with
  | nil => exact ⟨[], .done, rfl⟩
  | @cons link row links rows hlink _ ih =>
    obtain ⟨path, child⟩ := link
    obtain ⟨rfl, hnode⟩ := hlink
    obtain ⟨hpath, hfunction⟩ := hkept row List.mem_cons_self
    obtain ⟨leaves, hunf, hleaves⟩ := ih (fun row hrow => hkept row (List.mem_cons_of_mem _ hrow)) (i + 1)
    refine ⟨_, .leaf hpath hnode (leafValue?_nodeOfValue hfunction) hunf, ?_⟩
    rw [List.map_cons, hleaves]
    rfl

/-- **A flat table comes out of the theme of its rows.** -/
theorem flatten_ofTable_of_isFlat (h : table.IsFlat callableKey) :
    (ofTable table).flatten callableKey = .ok table := by
  obtain ⟨links, hroot, hrows⟩ := shows_ofTable table
  have hkept : ∀ row ∈ table.entries, row.1 ≠ [] ∧
      ∀ params, row.2 = .function params → partialSegment row.1 = callableKey := fun row hrow =>
    ⟨h.path_ne_nil row hrow, h.function_kept row hrow⟩
  obtain ⟨leaves, hunf, hleaves⟩ :=
    exists_unfolds_of_forall₂ [(ofTable table).root] hrows hkept 0
  refine flatten_eq_ok_iff_unfolds.mpr ⟨links, leaves, hroot, hunf, ?_, hleaves.symm⟩
  rw [hleaves]
  exact h.apart

/-- The tables of themes are exactly the flat ones. -/
theorem exists_flatten_iff_isFlat :
    (∃ theme : Theme, theme.flatten callableKey = .ok table) ↔ table.IsFlat callableKey := by
  constructor
  · intro h
    obtain ⟨theme, h⟩ := h
    exact isFlat_of_flatten h
  · intro h
    exact ⟨_, flatten_ofTable_of_isFlat h⟩

/-- **Flattening twice is flattening once**: the table of a theme, made into a theme with its paths
    for keys, flattens to itself, row by row. -/
theorem flatten_ofTable_of_flatten (h : theme.flatten callableKey = .ok table) :
    (ofTable table).flatten callableKey = .ok table := by
  have hflat : table.IsFlat callableKey := isFlat_of_flatten h
  exact flatten_ofTable_of_isFlat hflat

/-- A part that is shared under `a.b` and `c` holds a list and, under `s` and `f`, one function. The
    function is kept under `s` alone, and is kept there again. -/
theorem flatten_ofTable_of_flatten_shared :
    let theme : Theme :=
      ⟨#[.composite ⟨[(['a', '.', 'b'], 1), (['c'], 1)], by decide⟩,
        .composite ⟨[(['l'], 2), (['s'], 3), (['f'], 3)], by decide⟩,
        .list [.null], .callable [['n']]], 0⟩
    let table : Table :=
      ⟨[(['a', '.', 'b', '.', 'l'], .list [.null]), (['a', '.', 'b', '.', 's'], .function [['n']]),
        (['c', '.', 'l'], .list [.null]), (['c', '.', 's'], .function [['n']])], by decide⟩
    theme.flatten ['s'] = .ok table ∧ (ofTable table).flatten ['s'] = .ok table := by
  intro theme table
  have h : theme.flatten ['s'] = .ok table := by
    simp [flatten, visitAll, visit, theme, node?, emit]
    rfl
  exact ⟨h, flatten_ofTable_of_flatten h⟩

end Theme

end ThemeLens
