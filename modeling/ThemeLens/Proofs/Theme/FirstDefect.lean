import Mathlib.Data.List.Lex
import ThemeLens.Proofs.Theme.Flattening

/-!
# The first defect of a theme

Many things can be wrong with one theme at once, and a node that is shared may be fine on one walk and
close a loop on another. Flattening reports a single defect. Which one should again not depend on how
the graph is traversed, so this file says it with walks alone.

A link is met once for each walk that ends with it, and the route of the walk names the meeting.
`Fault` says what is wrong with the link at the end of a route: it looks at the link, at the nodes the
walk has come by, and at the leaves on smaller routes. The defect of a theme is the fault on the
smallest route that has one (`flatten_eq_error_iff_first`).

While the pass is under way its table is described by a *place*, a route that it has yet to follow.
`Settled` is the invariant: no smaller route has a fault, and the table has the leaves of the smaller
routes. Passing one link moves the place past everything below that link (`Arrived.visit`), and the
induction over the links is the one by which the pass ends (`Arrived.visitAll`).
-/

namespace ThemeLens

namespace Theme

variable {theme : Theme} {callableKey key : Text} {keys : List Text} {id child : NodeId}
  {branch : List NodeId} {route place : List Nat} {i : Nat} {out : Table}

/-! ## 1. Faults -/

/-- What is wrong with a link at the end of a walk. The walk follows `route`, its last link has the
    key `key` and leads to `child`, and `path` is all its keys joined. -/
inductive Fault (theme : Theme) (callableKey : Text) (route : List Nat) (path key : Text)
    (child : NodeId) : Flaw → Prop
  | emptyKey (hkey : key = []) : Fault theme callableKey route path key child .emptyKey
  | danglingNode (hkey : key ≠ []) (hnode : theme.node? child = none) :
      Fault theme callableKey route path key child .danglingNode
  /-- A leaf of a smaller route is in the way of this one. -/
  | duplicatePath {node : Node} {value : Value} {l : Leaf} (hkey : key ≠ [])
      (hnode : theme.node? child = some node)
      (hvalue : leafValue? callableKey key node = some value)
      (hleaf : theme.IsLeaf callableKey l) (hearlier : l.route < route)
      (hclash : DottedPath.Clash l.path path) :
      Fault theme callableKey route path key child .duplicatePath
  /-- The walk has come by the node before, and from there back to it. -/
  | cycle {links : OrderedMap NodeId} {r r' : List Nat} {names names' : List Text} (hkey : key ≠ [])
      (hnode : theme.node? child = some (.composite links)) (hlinks : links.entries ≠ [])
      (hroute : route = r ++ r') (hback : r' ≠ []) (hto : theme.Walk theme.root r names child)
      (hloop : theme.Walk child r' names' child) :
      Fault theme callableKey route path key child .cycle

/-- The walk along `route` ends with a link at fault, and `d` says where and how. -/
def Offends (theme : Theme) (callableKey : Text) (route : List Nat) (d : Defect) : Prop :=
  ∃ keys key child, theme.Walk theme.root route (keys ++ [key]) child ∧
    d.path = ['.'].intercalate (keys ++ [key]) ∧
    theme.Fault callableKey route d.path key child d.flaw

/-- Nothing is wrong on the routes that come before a place. -/
def Faultless (theme : Theme) (callableKey : Text) (place : List Nat) : Prop :=
  ∀ route, route < place → ∀ d, ¬ theme.Offends callableKey route d

/-- The first fault in depth-first declaration order. -/
def FirstDefect (theme : Theme) (callableKey : Text) (d : Defect) : Prop :=
  ∃ route, theme.Offends callableKey route d ∧ theme.Faultless callableKey route

theorem Fault.unique {path : Text} {f f' : Flaw}
    (h : theme.Fault callableKey route path key child f)
    (h' : theme.Fault callableKey route path key child f') : f = f' := by
  cases h with
  | emptyKey hkey =>
    cases h' with
    | emptyKey => rfl
    | _ => contradiction
  | danglingNode hkey hnode =>
    cases h' with
    | danglingNode => rfl
    | _ => simp_all
  | duplicatePath hkey hnode hvalue =>
    cases h' with
    | duplicatePath => rfl
    | cycle _ hnode' =>
      rw [hnode] at hnode'; cases hnode'
      rw [leafValue?_composite] at hvalue; cases hvalue
    | _ => simp_all
  | cycle hkey hnode hlinks =>
    cases h' with
    | cycle => rfl
    | duplicatePath _ hnode' hvalue =>
      rw [hnode] at hnode'; cases hnode'
      rw [leafValue?_composite] at hvalue; cases hvalue
    | _ => simp_all

/-! ## 2. Routes and walks -/

theorem lt_append_iff {r p q : List Nat} : r < p ++ q ↔ r < p ∨ ∃ s, r = p ++ s ∧ s < q := by
  induction p generalizing r with
  | nil => simp
  | cons a p ih =>
    cases r with
    | nil => simp
    | cons b r =>
      rw [List.cons_append, List.cons_lt_cons_iff, List.cons_lt_cons_iff, ih]
      constructor
      · rintro (hlt | ⟨rfl, hlt | ⟨s, rfl, hs⟩⟩)
        · exact .inl (.inl hlt)
        · exact .inl (.inr ⟨rfl, hlt⟩)
        · exact .inr ⟨s, rfl, hs⟩
      · rintro ((hlt | ⟨rfl, hlt⟩) | ⟨s, hr, hs⟩)
        · exact .inl hlt
        · exact .inr ⟨rfl, .inl hlt⟩
        · obtain ⟨rfl, rfl⟩ := List.cons_eq_cons.mp hr
          exact .inr ⟨rfl, .inr ⟨s, rfl, hs⟩⟩

theorem lt_append_zero_iff {r p : List Nat} : r < p ++ [0] ↔ r < p ∨ r = p := by
  have hnil (s : List Nat) : s < [0] ↔ s = [] := by
    cases s with
    | nil => simp
    | cons i s => simp [List.cons_lt_cons_iff]
  simp [lt_append_iff, hnil]

/-- A route leads to one node, by one row of keys. -/
theorem Walk.unique {a b b' : NodeId} {keys' : List Text} (h : theme.Walk a route keys b)
    (h' : theme.Walk a route keys' b') : keys = keys' ∧ b = b' := by
  induction h generalizing keys' with
  | stay => cases h'; exact ⟨rfl, rfl⟩
  | follow hid hlink _ ih =>
    cases h' with
    | follow hid' hlink' rest =>
      rw [hid] at hid'; cases hid'
      rw [hlink] at hlink'; cases hlink'
      obtain ⟨rfl, rfl⟩ := ih rest
      exact ⟨rfl, rfl⟩

theorem Walk.unique_concat {a b b' : NodeId} {keys' : List Text} {key' : Text}
    (h : theme.Walk a route (keys ++ [key]) b) (h' : theme.Walk a route (keys' ++ [key']) b') :
    keys = keys' ∧ key = key' ∧ b = b' := by
  obtain ⟨hkeys, hnode⟩ := h.unique h'
  obtain ⟨hfront, hlast⟩ := List.append_inj' hkeys rfl
  exact ⟨hfront, List.singleton_inj.mp hlast, hnode⟩

theorem Walk.exists_split {a c : NodeId} {r r' : List Nat} (h : theme.Walk a (r ++ r') keys c) :
    ∃ b names names', keys = names ++ names' ∧ theme.Walk a r names b ∧
      theme.Walk b r' names' c := by
  induction r generalizing a keys with
  | nil => exact ⟨a, [], keys, rfl, .stay a, h⟩
  | cons i r ih =>
    cases h with
    | follow hid hlink rest =>
      obtain ⟨b, names, names', rfl, hto, hon⟩ := ih rest
      exact ⟨b, _ :: names, names', rfl, .follow hid hlink hto, hon⟩

theorem Walk.route_ne_nil {a b : NodeId} (h : theme.Walk a route (keys ++ [key]) b) : route ≠ [] := by
  rintro rfl
  generalize hkeys : keys ++ [key] = all at h
  cases h
  simp at hkeys

/-- A walk that goes on from a node follows one of its links. -/
theorem Walk.head_lt {target : NodeId} (h : theme.Walk id (i :: route) keys target) :
    ∃ links, theme.node? id = some (.composite links) ∧ i < links.entries.length := by
  cases h with
  | follow hid hlink _ =>
    obtain ⟨hlt, -⟩ := List.getElem?_eq_some_iff.mp hlink
    exact ⟨_, hid, hlt⟩

theorem Offends.exists_walk {d : Defect} (h : theme.Offends callableKey route d) :
    ∃ keys target, theme.Walk theme.root route keys target := by
  obtain ⟨keys, key, child, hwalk, -⟩ := h
  exact ⟨keys ++ [key], child, hwalk⟩

theorem Offends.unique {d d' : Defect} (h : theme.Offends callableKey route d)
    (h' : theme.Offends callableKey route d') : d = d' := by
  obtain ⟨path, flaw⟩ := d
  obtain ⟨path', flaw'⟩ := d'
  obtain ⟨keys, key, child, hwalk, hpath, hfault⟩ := h
  obtain ⟨keys', key', child', hwalk', hpath', hfault'⟩ := h'
  obtain ⟨rfl, rfl, rfl⟩ := hwalk.unique_concat hwalk'
  simp only at hpath hpath' hfault hfault'
  subst hpath hpath'
  rw [hfault.unique hfault']

theorem not_offends (hwalk : theme.Walk theme.root place (keys ++ [key]) child)
    (h : ∀ flaw, ¬ theme.Fault callableKey place (['.'].intercalate (keys ++ [key])) key child flaw)
    (d : Defect) : ¬ theme.Offends callableKey place d := by
  rintro ⟨keys', key', child', hwalk', hpath, hfault⟩
  obtain ⟨rfl, rfl, rfl⟩ := hwalk.unique_concat hwalk'
  rw [hpath] at hfault
  exact h _ hfault

/-- Whether a walk ends at a leaf is up to the node it ends at. -/
theorem exists_leaf_iff (hwalk : theme.Walk theme.root place (keys ++ [key]) child) {path : Text} :
    (∃ l, theme.IsLeaf callableKey l ∧ l.route = place ∧ l.path = path) ↔
      path = ['.'].intercalate (keys ++ [key]) ∧
        ∃ node value, theme.node? child = some node ∧ leafValue? callableKey key node = some value := by
  constructor
  · rintro ⟨l, ⟨keys', key', child', node, hwalk', hnode, hvalue, hpath⟩, rfl, rfl⟩
    obtain ⟨rfl, rfl, rfl⟩ := hwalk.unique_concat hwalk'
    exact ⟨hpath, node, l.value, hnode, hvalue⟩
  · rintro ⟨rfl, node, value, hnode, hvalue⟩
    exact ⟨⟨place, _, value⟩, ⟨keys, key, child, node, hwalk, hnode, hvalue, rfl⟩, rfl, rfl⟩

/-! ## 3. What the pass has settled -/

/-- Everything before a place is done: it has no fault, and its leaves are in the table. -/
structure Settled (theme : Theme) (callableKey : Text) (place : List Nat) (out : Table) : Prop where
  faultless : theme.Faultless callableKey place
  mem_keys_iff : ∀ path, path ∈ out.keys ↔
    ∃ l, theme.IsLeaf callableKey l ∧ l.route < place ∧ l.path = path

theorem settled_nil : theme.Settled callableKey [] ∅ where
  faultless := by
    intro route hlt
    exact absurd hlt (List.not_lt_nil route)
  mem_keys_iff := by
    intro path
    constructor
    · intro hpath
      cases hpath
    · rintro ⟨l, -, hlt, -⟩
      exact absurd hlt (List.not_lt_nil l.route)

/-- A place may be named by another route, if no walk goes in between. -/
theorem Settled.congr {place' : List Nat} (h : theme.Settled callableKey place out)
    (hsame : ∀ route keys target, theme.Walk theme.root route keys target →
      (route < place' ↔ route < place)) :
    theme.Settled callableKey place' out where
  faultless := by
    intro route hlt d hd
    obtain ⟨keys, target, hwalk⟩ := hd.exists_walk
    exact h.faultless route ((hsame route keys target hwalk).mp hlt) d hd
  mem_keys_iff := by
    intro path
    rw [h.mem_keys_iff]
    refine exists_congr fun l => and_congr_right fun hl => and_congr_left fun _ => ?_
    obtain ⟨keys, key, target, node, hwalk, -⟩ := hl
    exact (hsame l.route _ target hwalk).symm

/-- A link without a fault is passed, once the table has its leaf if there is one. -/
theorem Settled.pass {out' : Table} (h : theme.Settled callableKey place out)
    (hfault : ∀ d, ¬ theme.Offends callableKey place d)
    (hkeys : ∀ path, path ∈ out'.keys ↔
      path ∈ out.keys ∨ ∃ l, theme.IsLeaf callableKey l ∧ l.route = place ∧ l.path = path) :
    theme.Settled callableKey (place ++ [0]) out' where
  faultless := by
    intro route hlt d hd
    rcases lt_append_zero_iff.mp hlt with hlt | rfl
    · exact h.faultless route hlt d hd
    · exact hfault d hd
  mem_keys_iff := by
    intro path
    rw [hkeys, h.mem_keys_iff, ← exists_or]
    refine exists_congr fun l => ?_
    rw [lt_append_zero_iff, ← and_or_left, ← or_and_right]

/-- Past the links below a link the next one follows. -/
theorem Settled.next {n : Nat} (h : theme.Settled callableKey (place ++ [i] ++ [n]) out)
    (hwalk : theme.Walk theme.root (place ++ [i]) keys child)
    (hlast : ∀ j route names target, theme.Walk child (j :: route) names target → j < n) :
    theme.Settled callableKey (place ++ [i + 1]) out := by
  refine h.congr fun route names target hroute => ?_
  have hbelow (s : List Nat) (hs : route = place ++ i :: s) : s < [n] := by
    cases s with
    | nil => simp
    | cons j s =>
      rw [hs, List.append_cons] at hroute
      obtain ⟨b, _, _, -, hto, hon⟩ := hroute.exists_split
      obtain ⟨-, rfl⟩ := hto.unique hwalk
      exact List.cons_lt_cons_iff.mpr (.inl (hlast j s _ _ hon))
  rw [List.append_assoc, lt_append_iff, lt_append_iff]
  refine or_congr_right (exists_congr fun s => and_congr_right fun hs => ?_)
  cases s with
  | nil => simp
  | cons j s =>
    rw [List.singleton_append, List.cons_lt_cons_iff, List.cons_lt_cons_iff]
    constructor
    · rintro (hlt | ⟨-, hs⟩)
      · rcases Nat.lt_succ_iff_lt_or_eq.mp hlt with hlt | rfl
        · exact .inl hlt
        · exact .inr ⟨rfl, hbelow s hs⟩
      · exact absurd hs (List.not_lt_nil s)
    · rintro (hlt | ⟨rfl, -⟩)
      · exact .inl (Nat.lt_succ_of_lt hlt)
      · exact .inl (Nat.lt_succ_self j)

/-- The pass has come along `route` to `id`, and the branch is the nodes that the walk comes by. -/
structure Arrived (theme : Theme) (route : List Nat) (keys : List Text) (id : NodeId)
    (branch : List NodeId) : Prop where
  walk : theme.Walk theme.root route keys id
  named : ∀ key ∈ keys, key ≠ []
  mem_branch_iff : ∀ b, b ∈ branch ↔ ∃ r r' names names', route = r ++ r' ∧
    theme.Walk theme.root r names b ∧ theme.Walk b r' names' id

theorem arrived_root (theme : Theme) : theme.Arrived [] [] theme.root [theme.root] where
  walk := .stay theme.root
  named := by simp
  mem_branch_iff := by
    intro b
    rw [List.mem_singleton]
    constructor
    · rintro rfl
      exact ⟨[], [], [], [], rfl, .stay _, .stay _⟩
    · rintro ⟨r, r', names, names', hroute, hto, -⟩
      obtain ⟨rfl, -⟩ := List.append_eq_nil_iff.mp hroute.symm
      cases hto
      rfl

namespace Arrived

variable {links : OrderedMap NodeId}

/-- The branch of a node is what a walk one link further has come by before its end. -/
theorem mem_branch_iff_of_link (h : theme.Arrived route keys id branch)
    (hlink : theme.Walk id [i] [key] child) {b : NodeId} :
    b ∈ branch ↔ ∃ r r' names names', route ++ [i] = r ++ r' ∧ r' ≠ [] ∧
      theme.Walk theme.root r names b ∧ theme.Walk b r' names' child := by
  rw [h.mem_branch_iff]
  constructor
  · rintro ⟨r, r', names, names', rfl, hto, hon⟩
    exact ⟨r, r' ++ [i], names, _, List.append_assoc r r' [i], by simp, hto, hon.append hlink⟩
  · rintro ⟨r, r', names, names', hroute, hne, hto, hon⟩
    rcases List.eq_nil_or_concat r' with rfl | ⟨r', j, rfl⟩
    · exact absurd rfl hne
    rw [List.concat_eq_append] at hroute hon
    rw [← List.append_assoc] at hroute
    obtain ⟨rfl, hj⟩ := List.append_inj' hroute rfl
    cases hj
    obtain ⟨x, n, n', -, hx, -⟩ := hon.exists_split
    -- the walk has one node in front of its last link, and that is `id`
    obtain ⟨-, rfl⟩ := (hto.append hx).unique h.walk
    exact ⟨r, r', names, n, rfl, hto, hx⟩

theorem follow (h : theme.Arrived route keys id branch) (hlink : theme.Walk id [i] [key] child)
    (hkey : key ≠ []) :
    theme.Arrived (route ++ [i]) (keys ++ [key]) child (child :: branch) where
  walk := h.walk.append hlink
  named := by
    intro name hname
    rcases List.mem_append.mp hname with hname | hname
    · exact h.named name hname
    · rw [List.mem_singleton.mp hname]
      exact hkey
  mem_branch_iff := by
    intro b
    rw [List.mem_cons, h.mem_branch_iff_of_link hlink]
    constructor
    · rintro (rfl | ⟨r, r', names, names', hroute, -, hto, hon⟩)
      · exact ⟨route ++ [i], [], keys ++ [key], [], by simp, h.walk.append hlink, .stay b⟩
      · exact ⟨r, r', names, names', hroute, hto, hon⟩
    · rintro ⟨r, r', names, names', hroute, hto, hon⟩
      cases r' with
      | nil =>
        cases hon
        exact .inl rfl
      | cons j r' => exact .inr ⟨r, _, names, names', hroute, by simp, hto, hon⟩

end Arrived

/-! ## 4. The pass -/

/-- How the pass ends that was to settle everything before a place. -/
def Concludes (theme : Theme) (callableKey : Text) (place : List Nat) : Except Defect Table → Prop
  | .ok out => theme.Settled callableKey place out
  | .error d => theme.FirstDefect callableKey d

theorem Concludes.bind {place' : List Nat} {result : Except Defect Table}
    {f : Table → Except Defect Table} (h : theme.Concludes callableKey place result)
    (hf : ∀ out, theme.Settled callableKey place out →
      theme.Concludes callableKey place' (f out)) :
    theme.Concludes callableKey place' (result.bind f) := by
  cases result with
  | ok out => exact hf out h
  | error d => exact h

theorem Concludes.mono {place' : List Nat} {result : Except Defect Table}
    (h : theme.Concludes callableKey place result)
    (hmono : ∀ out, theme.Settled callableKey place out → theme.Settled callableKey place' out) :
    theme.Concludes callableKey place' result := by
  cases result with
  | ok out => exact hmono out h
  | error d => exact h

theorem concludes_error {flaw : Flaw} (hset : theme.Settled callableKey place out)
    (hwalk : theme.Walk theme.root place (keys ++ [key]) child)
    (hfault : theme.Fault callableKey place (['.'].intercalate (keys ++ [key])) key child flaw)
    (place' : List Nat) :
    theme.Concludes callableKey place' (.error ⟨['.'].intercalate (keys ++ [key]), flaw⟩) :=
  ⟨place, ⟨keys, key, child, hwalk, rfl, hfault⟩, hset.faultless⟩

/-- A link that is no leaf leaves the table as it is. -/
theorem Settled.pass_quiet {node : Node} (hset : theme.Settled callableKey place out)
    (hwalk : theme.Walk theme.root place (keys ++ [key]) child) (hkey : key ≠ [])
    (hnode : theme.node? child = some node) (hvalue : leafValue? callableKey key node = none)
    (hcycle : ¬ theme.Fault callableKey place (['.'].intercalate (keys ++ [key])) key child .cycle) :
    theme.Settled callableKey (place ++ [0]) out := by
  refine hset.pass (not_offends hwalk fun flaw hfault => ?_) fun path => ?_
  · cases hfault with
    | emptyKey hkey' => exact hkey hkey'
    | danglingNode _ hnode' => rw [hnode] at hnode'; cases hnode'
    | duplicatePath _ hnode' hvalue' =>
      rw [hnode] at hnode'; cases hnode'
      rw [hvalue] at hvalue'; cases hvalue'
    | cycle hkey hnode hlinks hroute hback hto hloop =>
      exact hcycle (.cycle hkey hnode hlinks hroute hback hto hloop)
  · rw [exists_leaf_iff hwalk]
    simp [hnode, hvalue]

/-- A leaf goes into the table, unless one that is there is in its way. -/
theorem concludes_emit {node : Node} {value : Value} (hset : theme.Settled callableKey place out)
    (hwalk : theme.Walk theme.root place (keys ++ [key]) child) (hkey : key ≠ [])
    (hnode : theme.node? child = some node) (hvalue : leafValue? callableKey key node = some value) :
    theme.Concludes callableKey (place ++ [0])
      (emit out (['.'].intercalate (keys ++ [key])) value) := by
  by_cases hcollides : out.collides (['.'].intercalate (keys ++ [key])) = true
  · obtain ⟨row, hrow, hclash⟩ := Table.collides_iff.mp hcollides
    obtain ⟨l, hleaf, hearlier, hpath⟩ := (hset.mem_keys_iff row.1).mp (List.mem_map_of_mem hrow)
    rw [emit, if_pos hcollides]
    exact concludes_error hset hwalk
      (.duplicatePath hkey hnode hvalue hleaf hearlier (hpath ▸ hclash)) _
  · have hemit : emit out (['.'].intercalate (keys ++ [key])) value =
        .ok (out.insert (['.'].intercalate (keys ++ [key])) value) := by
      rw [emit, if_neg hcollides]
    obtain ⟨hfree, hentries⟩ := emit_eq_ok_iff.mp hemit
    rw [hemit]
    refine hset.pass (not_offends hwalk fun flaw hfault => ?_) fun path => ?_
    · cases hfault with
      | emptyKey hkey' => exact hkey hkey'
      | danglingNode _ hnode' => rw [hnode] at hnode'; cases hnode'
      | @duplicatePath _ _ l _ _ _ hleaf hearlier hclash =>
        have hmem : l.path ∈ out.keys := (hset.mem_keys_iff l.path).mpr ⟨l, hleaf, hearlier, rfl⟩
        obtain ⟨row, hrow, hpath⟩ := List.mem_map.mp hmem
        exact hfree row hrow (hpath ▸ hclash)
      | cycle _ hnode' =>
        rw [hnode] at hnode'; cases hnode'
        rw [leafValue?_composite] at hvalue; cases hvalue
    · rw [exists_leaf_iff hwalk, and_iff_left ⟨node, value, hnode, hvalue⟩]
      simp only [OrderedMap.keys, hentries, List.map_append, List.mem_append, List.map_cons,
        List.map_nil, List.mem_singleton]

namespace Arrived

variable {links : OrderedMap NodeId}

/-- **One link settles everything below it.** What is asked of the pass over the links of a child is
    that it settles what is below them. -/
theorem visit (h : theme.Arrived route keys id branch)
    (hlink : theme.Walk id [i] [key] child)
    (hset : theme.Settled callableKey (route ++ [i]) out)
    (hinner : ∀ links, theme.node? child = some (.composite links) → child ∉ branch →
      theme.Arrived (route ++ [i]) (keys ++ [key]) child (child :: branch) →
      theme.Settled callableKey (route ++ [i] ++ [0]) out →
      theme.Concludes callableKey (route ++ [i] ++ [links.entries.length])
        (visitAll theme callableKey (child :: branch) (['.'].intercalate (keys ++ [key]))
          links.entries out)) :
    theme.Concludes callableKey (route ++ [i + 1])
      (Theme.visit theme callableKey branch (['.'].intercalate keys) (key, child) out) := by
  have hwalk := h.walk.append hlink
  have hjoin := DottedPath.join_intercalate h.named key
  cases linkKind theme callableKey branch key child with
  | keyless hkey =>
    rw [visit_keyless hkey, hjoin]
    exact concludes_error hset hwalk (.emptyKey hkey) _
  | dangling hkey hnode =>
    rw [visit_dangling hkey hnode, hjoin]
    exact concludes_error hset hwalk (.danglingNode hkey hnode) _
  | cycle hkey hnode hlinks hbranch =>
    obtain ⟨r, r', _, _, hroute, hback, hto, hloop⟩ := (h.mem_branch_iff_of_link hlink).mp hbranch
    rw [visit_cycle hkey hnode hlinks hbranch, hjoin]
    exact concludes_error hset hwalk (.cycle hkey hnode hlinks hroute hback hto hloop) _
  | leaf hkey hnode hvalue =>
    rw [visit_leaf hkey hnode hvalue, hjoin]
    refine (concludes_emit hset hwalk hkey hnode hvalue).mono fun out hout => ?_
    refine hout.next hwalk fun j _ _ _ hbelow => ?_
    obtain ⟨links, hlinks, -⟩ := hbelow.head_lt
    rw [hnode] at hlinks; cases hlinks
    rw [leafValue?_composite] at hvalue; cases hvalue
  | silent hkey hnode hvalue hlinks =>
    rw [visit_silent hkey hnode hvalue hlinks]
    have hquiet := hset.pass_quiet hwalk hkey hnode hvalue ?_
    · refine hquiet.next hwalk fun j _ _ _ hbelow => ?_
      obtain ⟨links, hcomposite, hlt⟩ := hbelow.head_lt
      rw [hnode] at hcomposite; cases hcomposite
      rw [hlinks links rfl] at hlt
      exact absurd hlt (Nat.not_lt_zero j)
    · intro hfault
      cases hfault with
      | cycle _ hcomposite hne =>
        rw [hnode] at hcomposite; cases hcomposite
        exact hne (hlinks _ rfl)
  | @inner links hkey hnode hlinks hbranch =>
    rw [visit_inner hkey hnode hlinks hbranch, hjoin]
    have hquiet := hset.pass_quiet hwalk hkey hnode rfl ?_
    · refine (hinner links hnode hbranch (h.follow hlink hkey) hquiet).mono fun out hout => ?_
      refine hout.next hwalk fun j _ _ _ hbelow => ?_
      obtain ⟨links', hcomposite, hlt⟩ := hbelow.head_lt
      rw [hnode] at hcomposite; cases hcomposite
      exact hlt
    · intro hfault
      cases hfault with
      | cycle _ _ _ hroute hback hto hloop =>
        exact hbranch ((h.mem_branch_iff_of_link hlink).mpr ⟨_, _, _, _, hroute, hback, hto, hloop⟩)

/-- **The links of a node settle everything below it**, or the first fault below it is reported. The
    outer induction is on the nodes still free to enter, as for the pass itself; the inner one is on
    the links that are left, `rest`. -/
theorem visitAll (h : theme.Arrived route keys id branch)
    (hid : theme.node? id = some (.composite links)) {done rest : List (Text × NodeId)}
    (hlinks : links.entries = done ++ rest)
    (hset : theme.Settled callableKey (route ++ [done.length]) out) :
    theme.Concludes callableKey (route ++ [links.entries.length])
      (Theme.visitAll theme callableKey branch (['.'].intercalate keys) rest out) := by
  induction hn : theme.free branch using Nat.strongRecOn
    generalizing route keys id branch links done rest out with
  | _ n ihFree =>
    induction rest generalizing done out with
    | nil =>
      rw [Theme.visitAll]
      rw [List.append_nil] at hlinks
      rw [hlinks]
      exact hset
    | cons link rest ih =>
      obtain ⟨key, child⟩ := link
      have hlink : theme.Walk id [done.length] [key] child :=
        .single hid (by rw [hlinks, List.getElem?_append_right (Nat.le_refl _), Nat.sub_self]; rfl)
      rw [Theme.visitAll]
      refine Concludes.bind (h.visit hlink hset ?_) fun out hout => ?_
      · intro inner hinner hnew harrived hset
        have hfree : theme.free (child :: branch) < n :=
          hn ▸ free_cons_lt (lt_size_of_node? hinner) (by simpa using hnew)
        exact ihFree _ hfree harrived hinner (List.nil_append _).symm hset rfl
      · have hlinks' : links.entries = (done ++ [(key, child)]) ++ rest := by
          rw [hlinks, List.append_assoc, List.singleton_append]
        refine ih hlinks' ?_
        rwa [List.length_append, List.length_singleton]

end Arrived

/-! ## 5. The defect of a theme -/

theorem concludes_flatten {links : OrderedMap NodeId}
    (hroot : theme.node? theme.root = some (.composite links)) :
    theme.Concludes callableKey [links.entries.length] (theme.flatten callableKey) := by
  have hstart : theme.Settled callableKey [0] ∅ := by
    refine settled_nil.pass ?_ ?_
    · rintro d ⟨keys, key, child, hwalk, -⟩
      exact hwalk.route_ne_nil rfl
    · intro path
      rw [iff_self_or]
      rintro ⟨l, ⟨keys, key, child, _, hwalk, -⟩, hroute, -⟩
      exact absurd hroute hwalk.route_ne_nil
  rw [flatten_composite hroot]
  exact (arrived_root theme).visitAll hroot (List.nil_append _).symm hstart

theorem Offends.head_lt {d : Defect} (h : theme.Offends callableKey route d) :
    ∃ links, theme.node? theme.root = some (.composite links) ∧ route < [links.entries.length] := by
  obtain ⟨keys, key, child, hwalk, -⟩ := h
  cases route with
  | nil => exact absurd rfl hwalk.route_ne_nil
  | cons i route =>
    obtain ⟨links, hroot, hlt⟩ := hwalk.head_lt
    exact ⟨links, hroot, List.cons_lt_cons_iff.mpr (.inl hlt)⟩

theorem FirstDefect.unique {d d' : Defect} (h : theme.FirstDefect callableKey d)
    (h' : theme.FirstDefect callableKey d') : d = d' := by
  obtain ⟨route, hd, hfirst⟩ := h
  obtain ⟨route', hd', hfirst'⟩ := h'
  rcases lt_trichotomy route route' with hlt | rfl | hlt
  · exact absurd hd (hfirst' route hlt d)
  · exact hd.unique hd'
  · exact absurd hd' (hfirst route' hlt d')

theorem flatten_eq_error_iff_of_composite {links : OrderedMap NodeId} {d : Defect}
    (hroot : theme.node? theme.root = some (.composite links)) :
    theme.flatten callableKey = .error d ↔ theme.FirstDefect callableKey d := by
  have hconcludes : theme.Concludes callableKey [links.entries.length] (theme.flatten callableKey) :=
    concludes_flatten hroot
  cases hflatten : theme.flatten callableKey with
  | ok out =>
    rw [hflatten] at hconcludes
    refine ⟨fun h => (by cases h), fun h => ?_⟩
    obtain ⟨route, hd, -⟩ := h
    obtain ⟨links', hroot', hlt⟩ := hd.head_lt
    rw [hroot] at hroot'; cases hroot'
    exact absurd hd (hconcludes.faultless route hlt d)
  | error d' =>
    rw [hflatten] at hconcludes
    constructor
    · intro h
      cases h
      exact hconcludes
    · intro h
      rw [h.unique hconcludes]

/-- **A theme is refused for its first defect.** Without a root, or with one that is no composite, it
    is the root that is reported, under the empty path. Otherwise it is the first link at fault in
    depth-first declaration order, and no link before that one has a fault of any kind. -/
theorem flatten_eq_error_iff_first (theme : Theme) (callableKey : Text) (d : Defect) :
    theme.flatten callableKey = .error d ↔
      (theme.node? theme.root = none ∧ d = ⟨[], .danglingNode⟩) ∨
      (∃ node, theme.node? theme.root = some node ∧ (∀ links, node ≠ .composite links) ∧
        d = ⟨[], .rootNotComposite⟩) ∨
      theme.FirstDefect callableKey d := by
  have hcomposite (h : theme.FirstDefect callableKey d) :
      ∃ links, theme.node? theme.root = some (.composite links) := by
    obtain ⟨route, hd, -⟩ := h
    obtain ⟨links, hroot, -⟩ := hd.head_lt
    exact ⟨links, hroot⟩
  cases hroot : theme.node? theme.root with
  | none =>
    rw [flatten, hroot]
    constructor
    · intro h
      cases h
      exact .inl ⟨rfl, rfl⟩
    · rintro (⟨-, rfl⟩ | ⟨_, hnode, -⟩ | hfirst)
      · rfl
      · cases hnode
      · obtain ⟨links, hlinks⟩ := hcomposite hfirst
        rw [hroot] at hlinks; cases hlinks
  | some node =>
    cases node with
    | composite links =>
      rw [flatten_eq_error_iff_of_composite hroot]
      simp
    | _ =>
      rw [flatten, hroot]
      constructor
      · intro h
        cases h
        exact .inr (.inl ⟨_, rfl, by simp, rfl⟩)
      · rintro (⟨hnone, -⟩ | ⟨_, -, -, rfl⟩ | hfirst)
        · cases hnone
        · rfl
        · obtain ⟨links, hlinks⟩ := hcomposite hfirst
          rw [hroot] at hlinks; cases hlinks

end Theme

end ThemeLens
