import ThemeLens.Proofs.Theme.Emission
import ThemeLens.Proofs.Theme.Walk

/-!
# Unfolding a theme

Flattening does two things in one pass: it unfolds the graph into the list of its leaves, and it
fills the table with them. The two are taken apart here. `Unfolds` is the first alone, as a
relation: below these links, on this branch, the leaves are these. It holds when the part of the
graph below the links can be unfolded, whatever the table has to say about the paths, and the pass
is then the second on the leaves it gives (`Unfolds.visitAll_eq`).

What a link can be is said once, in `LinkKind`. Everything about a single step of the pass goes
through that case analysis and the equation that belongs to each case.
-/

namespace ThemeLens.Theme

variable {theme : Theme} {callableKey : Text} {branch : List NodeId} {key : Text} {child : NodeId}

/-! ## 1. One link -/

/-- What a link can be, on a branch. Exactly one case applies to each link. -/
inductive LinkKind (theme : Theme) (callableKey : Text) (branch : List NodeId) (key : Text)
    (child : NodeId) : Prop
  | keyless (hkey : key = [])
  | dangling (hkey : key ≠ []) (hnode : theme.node? child = none)
  | leaf {node : Node} {value : Value} (hkey : key ≠ []) (hnode : theme.node? child = some node)
      (hvalue : leafValue? callableKey key node = some value)
  /-- A null, an empty composite, or a function under another key. -/
  | silent {node : Node} (hkey : key ≠ []) (hnode : theme.node? child = some node)
      (hvalue : leafValue? callableKey key node = none)
      (hlinks : ∀ links, node = .composite links → links.entries = [])
  | cycle {links : OrderedMap NodeId} (hkey : key ≠ [])
      (hnode : theme.node? child = some (.composite links)) (hlinks : links.entries ≠ [])
      (hbranch : child ∈ branch)
  | inner {links : OrderedMap NodeId} (hkey : key ≠ [])
      (hnode : theme.node? child = some (.composite links)) (hlinks : links.entries ≠ [])
      (hbranch : child ∉ branch)

theorem linkKind (theme : Theme) (callableKey : Text) (branch : List NodeId) (key : Text)
    (child : NodeId) : LinkKind theme callableKey branch key child := by
  by_cases hkey : key = []
  · exact .keyless hkey
  cases hnode : theme.node? child with
  | none => exact .dangling hkey hnode
  | some node =>
    cases hvalue : leafValue? callableKey key node with
    | some value => exact .leaf hkey hnode hvalue
    | none =>
      cases node with
      | composite links =>
        by_cases hlinks : links.entries = []
        · exact .silent hkey hnode hvalue fun links' h => by cases h; exact hlinks
        · by_cases hbranch : child ∈ branch
          · exact .cycle hkey hnode hlinks hbranch
          · exact .inner hkey hnode hlinks hbranch
      | _ => exact .silent hkey hnode hvalue fun _ h => by cases h

variable {above : Text} {out : Table}

theorem visit_keyless (hkey : key = []) :
    visit theme callableKey branch above (key, child) out =
      .error ⟨DottedPath.join above key, .emptyKey⟩ := by
  rw [visit]
  simp [hkey]

theorem visit_dangling (hkey : key ≠ []) (hnode : theme.node? child = none) :
    visit theme callableKey branch above (key, child) out =
      .error ⟨DottedPath.join above key, .danglingNode⟩ := by
  rw [visit]
  simp only [List.isEmpty_iff, hkey, if_false]
  split <;> simp_all

theorem visit_leaf {node : Node} {value : Value} (hkey : key ≠ [])
    (hnode : theme.node? child = some node) (hvalue : leafValue? callableKey key node = some value) :
    visit theme callableKey branch above (key, child) out =
      emit out (DottedPath.join above key) value := by
  rw [visit]
  simp only [List.isEmpty_iff, hkey, if_false]
  split <;> rename_i hnode' <;> rw [hnode] at hnode' <;> cases hnode' <;>
    simp_all [leafValue?]

theorem visit_silent {node : Node} (hkey : key ≠ []) (hnode : theme.node? child = some node)
    (hvalue : leafValue? callableKey key node = none)
    (hlinks : ∀ links, node = .composite links → links.entries = []) :
    visit theme callableKey branch above (key, child) out = .ok out := by
  rw [visit]
  simp only [List.isEmpty_iff, hkey, if_false]
  split <;> rename_i hnode' <;> rw [hnode] at hnode' <;> cases hnode' <;>
    simp_all [leafValue?, OrderedMap.isEmpty]

theorem visit_cycle {links : OrderedMap NodeId} (hkey : key ≠ [])
    (hnode : theme.node? child = some (.composite links)) (hlinks : links.entries ≠ [])
    (hbranch : child ∈ branch) :
    visit theme callableKey branch above (key, child) out =
      .error ⟨DottedPath.join above key, .cycle⟩ := by
  rw [visit]
  simp only [List.isEmpty_iff, hkey, if_false]
  split <;> simp_all [OrderedMap.isEmpty]

theorem visit_inner {links : OrderedMap NodeId} (hkey : key ≠ [])
    (hnode : theme.node? child = some (.composite links)) (hlinks : links.entries ≠ [])
    (hbranch : child ∉ branch) :
    visit theme callableKey branch above (key, child) out =
      visitAll theme callableKey (child :: branch) (DottedPath.join above key) links.entries out := by
  rw [visit]
  simp only [List.isEmpty_iff, hkey, if_false]
  split <;> simp_all [OrderedMap.isEmpty]

/-! ## 2. All links -/

/-- Below `links`, the first of which is the `i`-th of its composite, the leaves are `leaves`. The
    composites on the way down are `branch`, and none of them comes up again. -/
inductive Unfolds (theme : Theme) (callableKey : Text) :
    List NodeId → Nat → List (Text × NodeId) → List Leaf → Prop
  | done {branch i} : Unfolds theme callableKey branch i [] []
  | leaf {branch i key child rest leaves} {node : Node} {value : Value} (hkey : key ≠ [])
      (hnode : theme.node? child = some node)
      (hvalue : leafValue? callableKey key node = some value)
      (hrest : Unfolds theme callableKey branch (i + 1) rest leaves) :
      Unfolds theme callableKey branch i ((key, child) :: rest) (⟨[i], key, value⟩ :: leaves)
  | silent {branch i key child rest leaves} {node : Node} (hkey : key ≠ [])
      (hnode : theme.node? child = some node)
      (hvalue : leafValue? callableKey key node = none)
      (hlinks : ∀ links, node = .composite links → links.entries = [])
      (hrest : Unfolds theme callableKey branch (i + 1) rest leaves) :
      Unfolds theme callableKey branch i ((key, child) :: rest) leaves
  | inner {branch i key child rest leaves below} {links : OrderedMap NodeId} (hkey : key ≠ [])
      (hnode : theme.node? child = some (.composite links)) (hlinks : links.entries ≠ [])
      (hbranch : child ∉ branch)
      (hbelow : Unfolds theme callableKey (child :: branch) 0 links.entries below)
      (hrest : Unfolds theme callableKey branch (i + 1) rest leaves) :
      Unfolds theme callableKey branch i ((key, child) :: rest) (below.map (Leaf.under i key) ++ leaves)

/-- The row of a leaf whose path goes on from `above`. -/
def Leaf.rowBelow (above : Text) (l : Leaf) : Text × Value := (DottedPath.join above l.path, l.value)

theorem Leaf.rowBelow_nil : Leaf.rowBelow [] = Leaf.row := rfl

theorem Leaf.rowBelow_under (above : Text) (i : Nat) {key : Text} (hkey : key ≠ []) (l : Leaf) :
    Leaf.rowBelow above (l.under i key) = Leaf.rowBelow (DottedPath.join above key) l := by
  cases above <;> simp [Leaf.rowBelow, ThemeLens.Leaf.under, DottedPath.join, hkey]

/-- **The pass is the unfolding, then the filling.** The induction is on the unfolding: each of
    its rules is one case of `LinkKind` that raises no objection. -/
theorem Unfolds.visitAll_eq {i : Nat} {links : List (Text × NodeId)} {leaves : List Leaf}
    (h : Unfolds theme callableKey branch i links leaves) (above : Text) (out : Table) :
    visitAll theme callableKey branch above links out =
      emitAll out (leaves.map (Leaf.rowBelow above)) := by
  induction h generalizing above out with
  | done => rw [visitAll]; rfl
  | leaf hkey hnode hvalue _ ih =>
    rw [visitAll, visit_leaf hkey hnode hvalue, List.map_cons, emitAll_cons]
    exact congrArg _ (funext fun out => ih above out)
  | silent hkey hnode hvalue hlinks _ ih =>
    rw [visitAll, visit_silent hkey hnode hvalue hlinks]
    exact ih above out
  | @inner _ i key _ _ _ _ _ hkey hnode hlinks hbranch _ _ ihBelow ihRest =>
    have hrows (leaves : List Leaf) : (leaves.map (Leaf.under i key)).map (Leaf.rowBelow above) =
        leaves.map (Leaf.rowBelow (DottedPath.join above key)) := by
      rw [List.map_map]
      exact List.map_congr_left fun l _ => Leaf.rowBelow_under above i hkey l
    rw [visitAll, visit_inner hkey hnode hlinks hbranch, ihBelow, List.map_append, hrows,
      emitAll_append]
    exact congrArg _ (funext fun out => ihRest above out)

/-- A pass that succeeds has unfolded the graph. The outer induction is on the nodes still free to
    enter, the measure by which the pass ends; the inner one goes along the links. -/
theorem exists_unfolds_of_visitAll {links : List (Text × NodeId)} {i : Nat} {out' : Table}
    (h : visitAll theme callableKey branch above links out = .ok out') :
    ∃ leaves, Unfolds theme callableKey branch i links leaves := by
  induction hn : theme.free branch using Nat.strongRecOn generalizing branch links i above out out' with
  | _ n ihFree =>
    induction links generalizing i out with
    | nil => exact ⟨[], .done⟩
    | cons link rest ih =>
      obtain ⟨key, child⟩ := link
      rw [visitAll, Except.bind_eq_ok_iff] at h
      obtain ⟨mid, hlink, hrest⟩ := h
      obtain ⟨leaves, hleaves⟩ := ih hrest
      cases linkKind theme callableKey branch key child with
      | keyless hkey => rw [visit_keyless hkey] at hlink; cases hlink
      | dangling hkey hnode => rw [visit_dangling hkey hnode] at hlink; cases hlink
      | leaf hkey hnode hvalue => exact ⟨_, .leaf hkey hnode hvalue hleaves⟩
      | silent hkey hnode hvalue hlinks => exact ⟨_, .silent hkey hnode hvalue hlinks hleaves⟩
      | cycle hkey hnode hlinks hbranch =>
        rw [visit_cycle hkey hnode hlinks hbranch] at hlink; cases hlink
      | inner hkey hnode hlinks hbranch =>
        rw [visit_inner hkey hnode hlinks hbranch] at hlink
        have hfree : theme.free (child :: branch) < n :=
          hn ▸ free_cons_lt (lt_size_of_node? hnode) (by simpa using hbranch)
        obtain ⟨below, hbelow⟩ := ihFree _ hfree (i := 0) hlink rfl
        exact ⟨_, .inner hkey hnode hlinks hbranch hbelow hleaves⟩

/-! ## 3. The leaves of an unfolding -/

theorem LeafFrom.links_ne_nil {id : NodeId} {l : Leaf} (h : theme.LeafFrom callableKey id l) :
    ∃ links, theme.node? id = some (.composite links) ∧ links.entries ≠ [] := by
  obtain ⟨keys, key, target, node, hwalk, -, -, -⟩ := h
  generalize hall : keys ++ [key] = all, l.route = route at hwalk
  cases hwalk with
  | stay => simp at hall
  | follow hid hlink _ => exact ⟨_, hid, fun hnil => by simp [hnil] at hlink⟩

theorem leafValue?_composite {links : OrderedMap NodeId} :
    leafValue? callableKey key (.composite links) = none := rfl

theorem linkLeaf_of_leaf {i : Nat} {node : Node} {value : Value}
    (hnode : theme.node? child = some node) (hvalue : leafValue? callableKey key node = some value)
    {l : Leaf} : LinkLeaf theme callableKey i key child l ↔ l = ⟨[i], key, value⟩ := by
  constructor
  · intro h
    cases h with
    | own hnode' hvalue' =>
      rw [hnode] at hnode'; cases hnode'
      rw [hvalue] at hvalue'; cases hvalue'
      rfl
    | below h =>
      obtain ⟨links, hlinks, -⟩ := h.links_ne_nil
      rw [hnode] at hlinks; cases hlinks
      rw [leafValue?_composite] at hvalue; cases hvalue
  · rintro rfl
    exact .own hnode hvalue

theorem not_linkLeaf_of_silent {i : Nat} {node : Node} (hnode : theme.node? child = some node)
    (hvalue : leafValue? callableKey key node = none)
    (hlinks : ∀ links, node = .composite links → links.entries = []) {l : Leaf} :
    ¬ LinkLeaf theme callableKey i key child l := by
  intro h
  cases h with
  | own hnode' hvalue' =>
    rw [hnode] at hnode'; cases hnode'
    rw [hvalue] at hvalue'; cases hvalue'
  | below h =>
    obtain ⟨links, hnode', hne⟩ := h.links_ne_nil
    rw [hnode] at hnode'; cases hnode'
    exact hne (hlinks links rfl)

theorem linkLeaf_of_inner {i : Nat} {links : OrderedMap NodeId}
    (hnode : theme.node? child = some (.composite links)) {l : Leaf} :
    LinkLeaf theme callableKey i key child l ↔
      ∃ l', theme.LeafFrom callableKey child l' ∧ l = l'.under i key := by
  constructor
  · intro h
    cases h with
    | own hnode' hvalue =>
      rw [hnode] at hnode'; cases hnode'
      rw [leafValue?_composite] at hvalue; cases hvalue
    | below h => exact ⟨_, h, rfl⟩
  · intro h
    obtain ⟨l', h, rfl⟩ := h
    exact .below h

/-- The links of a list are the first one and, each one place further on, the links of the rest. -/
theorem exists_linkLeaf_cons {i : Nat} {rest : List (Text × NodeId)} {l : Leaf} :
    (∃ j key' child', ((key, child) :: rest)[j]? = some (key', child') ∧
      LinkLeaf theme callableKey (i + j) key' child' l) ↔
    LinkLeaf theme callableKey i key child l ∨
    ∃ j key' child', rest[j]? = some (key', child') ∧
      LinkLeaf theme callableKey (i + 1 + j) key' child' l := by
  constructor
  · intro h
    obtain ⟨j, key', child', hj, hl⟩ := h
    cases j with
    | zero => cases hj; exact .inl hl
    | succ j => exact .inr ⟨j, key', child', hj, by rwa [Nat.add_right_comm]⟩
  · rintro (hl | ⟨j, key', child', hj, hl⟩)
    · exact ⟨0, key, child, rfl, hl⟩
    · exact ⟨j + 1, key', child', hj, by rwa [Nat.add_right_comm] at hl⟩

theorem Unfolds.mem_iff {i : Nat} {links : List (Text × NodeId)} {leaves : List Leaf}
    (h : Unfolds theme callableKey branch i links leaves) {l : Leaf} :
    l ∈ leaves ↔ ∃ j key child, links[j]? = some (key, child) ∧
      LinkLeaf theme callableKey (i + j) key child l := by
  induction h generalizing l with
  | done => simp
  | leaf _ hnode hvalue _ ih =>
    rw [exists_linkLeaf_cons, linkLeaf_of_leaf hnode hvalue, List.mem_cons, ih]
  | silent _ hnode hvalue hlinks _ ih =>
    rw [exists_linkLeaf_cons, ih, or_iff_right (not_linkLeaf_of_silent hnode hvalue hlinks)]
  | inner _ hnode _ _ _ _ ihBelow ihRest =>
    rw [exists_linkLeaf_cons, linkLeaf_of_inner hnode, List.mem_append, List.mem_map, ihRest]
    refine or_congr (exists_congr fun l' => ?_) Iff.rfl
    rw [ihBelow, leafFrom_iff hnode]
    simp only [Nat.zero_add, eq_comm]

/-- Every leaf is below some link, so its route begins with the place of that link. -/
theorem Unfolds.route_head {i : Nat} {links : List (Text × NodeId)} {leaves : List Leaf}
    (h : Unfolds theme callableKey branch i links leaves) {l : Leaf} (hl : l ∈ leaves) :
    ∃ j route, i ≤ j ∧ l.route = j :: route := by
  obtain ⟨j, _, _, -, hleaf⟩ := h.mem_iff.mp hl
  cases hleaf with
  | own => exact ⟨i + j, _, Nat.le_add_right i j, rfl⟩
  | below => exact ⟨i + j, _, Nat.le_add_right i j, rfl⟩

theorem route_lt_of_head_lt {i j : Nat} {r r' route : List Nat} (hij : i < j)
    (hroute : route = j :: r') : i :: r < route := by
  rw [hroute]
  exact List.cons_lt_cons_iff.mpr (.inl hij)

/-- Leaves come in the order of their routes: those of one link before those of the next, and
    below one link in the order of their routes there. -/
theorem Unfolds.sorted {i : Nat} {links : List (Text × NodeId)} {leaves : List Leaf}
    (h : Unfolds theme callableKey branch i links leaves) :
    leaves.Pairwise fun l l' => l.route < l'.route := by
  induction h with
  | done => exact .nil
  | leaf _ _ _ hrest ih =>
    refine List.pairwise_cons.mpr ⟨fun l hl => ?_, ih⟩
    obtain ⟨j, route, hj, hroute⟩ := hrest.route_head hl
    exact route_lt_of_head_lt hj hroute
  | silent _ _ _ _ _ ih => exact ih
  | inner _ _ _ _ _ hrest ihBelow ihRest =>
    refine List.pairwise_append.mpr ⟨List.pairwise_map.mpr ?_, ihRest, fun l hl l' hl' => ?_⟩
    · exact ihBelow.imp fun hlt => List.cons_lt_cons_iff.mpr (.inr ⟨rfl, hlt⟩)
    · obtain ⟨_, -, rfl⟩ := List.mem_map.mp hl
      obtain ⟨j, route, hj, hroute⟩ := hrest.route_head hl'
      exact route_lt_of_head_lt hj hroute

end ThemeLens.Theme
