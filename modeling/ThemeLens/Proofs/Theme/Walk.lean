import ThemeLens.Theme.Flatten

/-!
# Walks through a theme

What a theme *says* should not depend on how its graph is traversed. This file says it without a
traversal: a **walk** follows links from one node to another, a **leaf** is what a walk from the
root ends at, and a theme is **sound** when its walks meet nothing that a table could not hold.
Flattening is compared with these definitions and with nothing else.

A walk is named twice. Its *route* holds the place of each link among the links of its composite,
its *keys* the key of each link. Two walks are the same walk exactly when their routes are equal,
so a node that is shared is met once for each route to it; and since a composite lists its links
in declaration order, the depth-first declaration order of leaves is the lexicographic order of
their routes, the `<` of lists of numbers.
-/

namespace ThemeLens

/-- A leaf, as one walk meets it. -/
structure Leaf where
  route : List Nat
  path : Text
  value : Value

namespace Leaf

/-- The leaf as seen from one link further up, the `i`-th one, under `key`. -/
def under (i : Nat) (key : Text) (l : Leaf) : Leaf :=
  ⟨i :: l.route, key ++ '.' :: l.path, l.value⟩

/-- The row that a leaf becomes in the table. -/
def row (l : Leaf) : Text × Value := (l.path, l.value)

end Leaf

namespace Theme

/-! ## 1. Walks -/

/-- `theme.Walk id route keys target`: following `route` from node `id` passes the keys `keys` and
    arrives at `target`. -/
inductive Walk (theme : Theme) : NodeId → List Nat → List Text → NodeId → Prop
  | stay (id : NodeId) : Walk theme id [] [] id
  | follow {id child target : NodeId} {links : OrderedMap NodeId} {i : Nat} {key : Text}
      {route : List Nat} {keys : List Text}
      (hid : theme.node? id = some (.composite links))
      (hlink : links.entries[i]? = some (key, child))
      (rest : Walk theme child route keys target) :
      Walk theme id (i :: route) (key :: keys) target

theorem Walk.single {theme : Theme} {id child : NodeId} {links : OrderedMap NodeId} {i : Nat}
    {key : Text} (hid : theme.node? id = some (.composite links))
    (hlink : links.entries[i]? = some (key, child)) : theme.Walk id [i] [key] child :=
  .follow hid hlink (.stay child)

theorem Walk.append {theme : Theme} {a b c : NodeId} {r₁ r₂ : List Nat} {k₁ k₂ : List Text}
    (h₁ : theme.Walk a r₁ k₁ b) (h₂ : theme.Walk b r₂ k₂ c) :
    theme.Walk a (r₁ ++ r₂) (k₁ ++ k₂) c := by
  induction h₁ with
  | stay => exact h₂
  | follow hid hlink _ ih => exact .follow hid hlink (ih h₂)

theorem Walk.ofMem {theme : Theme} {id child : NodeId} {links : OrderedMap NodeId} {key : Text}
    (hid : theme.node? id = some (.composite links)) (hmem : (key, child) ∈ links.entries) :
    ∃ i, theme.Walk id [i] [key] child := by
  obtain ⟨i, hi⟩ := List.mem_iff_getElem?.mp hmem
  exact ⟨i, .single hid hi⟩

/-! ## 2. Leaves -/

/-- What a node contributes to the table under its own key. Functions count only under the
    callable key, compared with the last part of the key; nulls and composites never do. -/
def leafValue? (callableKey key : Text) : Node → Option Value
  | .scalar s => some (.scalar s)
  | .list items => some (.list items)
  | .callable params =>
    if DottedPath.partialSegment key = callableKey then some (.function params) else none
  | .null => none
  | .composite _ => none

/-- `l` is what the walk along its route, from `id` on, contributes: the walk ends at a node that
    has a value under the last key passed, and the path is all keys passed, joined by dots. -/
def LeafFrom (theme : Theme) (callableKey : Text) (id : NodeId) (l : Leaf) : Prop :=
  ∃ keys key target node, theme.Walk id l.route (keys ++ [key]) target ∧
    theme.node? target = some node ∧ leafValue? callableKey key node = some l.value ∧
    l.path = ['.'].intercalate (keys ++ [key])

/-- The leaves of a theme are those of its root. -/
def IsLeaf (theme : Theme) (callableKey : Text) (l : Leaf) : Prop :=
  theme.LeafFrom callableKey theme.root l

/-- What the `i`-th link contributes: its node's own value, or what is further down. -/
inductive LinkLeaf (theme : Theme) (callableKey : Text) (i : Nat) (key : Text) (child : NodeId) :
    Leaf → Prop
  | own {node : Node} {value : Value} (hnode : theme.node? child = some node)
      (hvalue : leafValue? callableKey key node = some value) :
      LinkLeaf theme callableKey i key child ⟨[i], key, value⟩
  | below {l : Leaf} (h : theme.LeafFrom callableKey child l) :
      LinkLeaf theme callableKey i key child (l.under i key)

/-- The leaves of a composite are those of its links, one link at a time. -/
theorem leafFrom_iff {theme : Theme} {callableKey : Text} {id : NodeId}
    {links : OrderedMap NodeId} (hid : theme.node? id = some (.composite links)) {l : Leaf} :
    theme.LeafFrom callableKey id l ↔
      ∃ i key child, links.entries[i]? = some (key, child) ∧
        LinkLeaf theme callableKey i key child l := by
  constructor
  · intro h
    obtain ⟨keys, key, target, node, hwalk, hnode, hvalue, hpath⟩ := h
    obtain ⟨route, path, value⟩ := l
    simp only at hwalk hvalue hpath
    cases keys with
    | nil =>
      cases hwalk with
      | follow hid' hlink rest =>
        cases rest
        rw [hid] at hid'
        cases hid'
        rw [List.nil_append, List.intercalate_singleton] at hpath
        subst hpath
        exact ⟨_, _, _, hlink, .own hnode hvalue⟩
    | cons first keys =>
      cases hwalk with
      | follow hid' hlink rest =>
        rw [hid] at hid'
        cases hid'
        refine ⟨_, _, _, hlink, ?_⟩
        have hl : path = first ++ '.' :: ['.'].intercalate (keys ++ [key]) := by
          cases keys <;> simpa [List.intercalate_cons_cons] using hpath
        subst hl
        exact .below (l := ⟨_, _, value⟩) ⟨keys, key, target, node, rest, hnode, hvalue, rfl⟩
  · intro h
    obtain ⟨i, key, child, hlink, hl⟩ := h
    cases hl with
    | own hnode hvalue =>
      exact ⟨[], key, child, _, .single hid hlink, hnode, hvalue, by simp⟩
    | below h =>
      obtain ⟨keys, last, target, node, hwalk, hnode, hvalue, hpath⟩ := h
      refine ⟨key :: keys, last, target, node, .follow hid hlink hwalk, hnode, hvalue, ?_⟩
      rw [Leaf.under, hpath]
      cases keys <;> simp [List.intercalate_cons_cons]

/-! ## 3. Sound themes -/

/-- Nothing stands in the way of a table. -/
structure Sound (theme : Theme) (callableKey : Text) : Prop where
  /-- The root is there, and holds keys. -/
  root : ∃ links, theme.node? theme.root = some (.composite links)
  /-- No walk from the root reaches a node that a further walk leads back to. -/
  acyclic : ∀ {route keys id loop names}, theme.Walk theme.root route keys id →
    theme.Walk id loop names id → loop = []
  /-- Every link within reach has a key, and leads somewhere. -/
  linked : ∀ {route keys id links key child}, theme.Walk theme.root route keys id →
    theme.node? id = some (.composite links) → (key, child) ∈ links.entries →
    key ≠ [] ∧ ∃ node, theme.node? child = some node
  /-- Leaves of different walks neither share a path nor stand above one another. -/
  apart : ∀ {l l' : Leaf}, theme.IsLeaf callableKey l → theme.IsLeaf callableKey l' →
    l.route ≠ l'.route → l.path ≠ l'.path ∧ ∀ rest, l'.path ≠ l.path ++ '.' :: rest

/-- The table has one row for each leaf, in depth-first declaration order, and no other row. -/
def Tabulates (theme : Theme) (callableKey : Text) (table : Table) : Prop :=
  ∃ leaves : List Leaf, leaves.Pairwise (fun l l' => l.route < l'.route) ∧
    (∀ l, l ∈ leaves ↔ theme.IsLeaf callableKey l) ∧ table.entries = leaves.map Leaf.row

end Theme

end ThemeLens
