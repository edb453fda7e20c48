import Mathlib.Data.List.Pairwise
import Mathlib.Data.List.Sort
import ThemeLens.Proofs.Theme.Unfolding

/-!
# When a theme has a table, and which

The two halves of `Unfolding` and `Emission` are joined here with the walks of `Walk`. A theme that
unfolds has no cycle within reach of its root: the branch of an unfolding holds every composite on
the way down, so a walk that came back to one of them would have been refused there
(`Unfolds.follow`). In the other direction the unfolding is built along walks, and the one thing
that could stop it is a composite that is already on the branch, hence on a cycle
(`Sound.exists_unfolds`).

The last theorem is what the library promises about flattening as a whole. Since `flatten` is a
total function, that it ends on every graph is part of its definition.
-/

namespace ThemeLens.Theme

variable {theme : Theme} {callableKey : Text} {branch : List NodeId}

/-! ## 1. From an unfolding to the graph -/

/-- What an unfolding knows about each of its links. -/
theorem Unfolds.link {i : Nat} {links : List (Text × NodeId)} {leaves : List Leaf}
    (h : Unfolds theme callableKey branch i links leaves) {key : Text} {child : NodeId}
    (hmem : (key, child) ∈ links) :
    key ≠ [] ∧ (∃ node, theme.node? child = some node) ∧
      ∀ inner, theme.node? child = some (.composite inner) → inner.entries ≠ [] →
        child ∉ branch ∧
        ∃ below, Unfolds theme callableKey (child :: branch) 0 inner.entries below := by
  induction h with
  | done => cases hmem
  | leaf hkey hnode hvalue _ ih =>
    rcases List.mem_cons.mp hmem with heq | hmem
    · cases heq
      refine ⟨hkey, ⟨_, hnode⟩, fun inner hinner _ => ?_⟩
      rw [hnode] at hinner; cases hinner
      rw [leafValue?_composite] at hvalue; cases hvalue
    · exact ih hmem
  | silent hkey hnode _ hlinks _ ih =>
    rcases List.mem_cons.mp hmem with heq | hmem
    · cases heq
      refine ⟨hkey, ⟨_, hnode⟩, fun inner hinner hne => ?_⟩
      rw [hnode] at hinner; cases hinner
      exact absurd (hlinks inner rfl) hne
    · exact ih hmem
  | inner hkey hnode _ hbranch hbelow _ _ ih =>
    rcases List.mem_cons.mp hmem with heq | hmem
    · cases heq
      refine ⟨hkey, ⟨_, hnode⟩, fun inner hinner _ => ?_⟩
      rw [hnode] at hinner; cases hinner
      exact ⟨hbranch, _, hbelow⟩
    · exact ih hmem

theorem Walk.source_composite {id target : NodeId} {route : List Nat} {keys : List Text}
    (hwalk : theme.Walk id route keys target) {links : OrderedMap NodeId}
    (htarget : theme.node? target = some (.composite links)) (hlinks : links.entries ≠ []) :
    ∃ links', theme.node? id = some (.composite links') ∧ links'.entries ≠ [] := by
  cases hwalk with
  | stay => exact ⟨links, htarget, hlinks⟩
  | follow hid hlink _ => exact ⟨_, hid, fun hnil => by simp [hnil] at hlink⟩

/-- **An unfolding goes wherever a walk goes**, on a longer branch. The node it arrives at is on
    that branch, and it was not on the branch from which the walk set out. -/
theorem Unfolds.follow {id target : NodeId} {links tlinks : OrderedMap NodeId} {leaves : List Leaf}
    {route : List Nat} {keys : List Text}
    (h : Unfolds theme callableKey branch 0 links.entries leaves)
    (hid : theme.node? id = some (.composite links)) (hmem : id ∈ branch)
    (hwalk : theme.Walk id route keys target)
    (htarget : theme.node? target = some (.composite tlinks)) (htlinks : tlinks.entries ≠ []) :
    ∃ branch', target ∈ branch' ∧ (route ≠ [] → target ∉ branch) ∧ (∀ b ∈ branch, b ∈ branch') ∧
      ∃ leaves', Unfolds theme callableKey branch' 0 tlinks.entries leaves' := by
  induction hwalk generalizing branch links leaves with
  | stay =>
    rw [hid] at htarget; cases htarget
    exact ⟨branch, hmem, fun hne => absurd rfl hne, fun _ hb => hb, leaves, h⟩
  | @follow id child target _ i key route keys hid' hlink rest ih =>
    rw [hid] at hid'; cases hid'
    obtain ⟨clinks, hchild, hclinks⟩ := rest.source_composite htarget htlinks
    -- the rest of the walk is followed on the branch that the child has joined
    obtain ⟨-, -, hinner⟩ := h.link (List.mem_of_getElem? hlink)
    obtain ⟨hnew, below, hbelow⟩ := hinner clinks hchild hclinks
    obtain ⟨branch', htmem, hfresh, hgrow, hunf⟩ :=
      ih hbelow hchild List.mem_cons_self htarget
    refine ⟨branch', htmem, fun _ => ?_, fun b hb => hgrow b (List.mem_cons_of_mem _ hb), hunf⟩
    cases route with
    | nil => cases rest; exact hnew
    | cons _ _ => exact fun hb => hfresh (by simp) (List.mem_cons_of_mem _ hb)

theorem Unfolds.mem_iff_isLeaf {links : OrderedMap NodeId} {leaves : List Leaf}
    (hroot : theme.node? theme.root = some (.composite links))
    (h : Unfolds theme callableKey branch 0 links.entries leaves) (l : Leaf) :
    l ∈ leaves ↔ theme.IsLeaf callableKey l := by
  rw [h.mem_iff, IsLeaf, leafFrom_iff hroot]
  simp only [Nat.zero_add]

theorem sound_of_unfolds {links : OrderedMap NodeId} {leaves : List Leaf}
    (hroot : theme.node? theme.root = some (.composite links))
    (h : Unfolds theme callableKey [theme.root] 0 links.entries leaves)
    (hrows : (leaves.map Leaf.row).Pairwise fun row new => ¬ DottedPath.Clash row.1 new.1) :
    theme.Sound callableKey where
  root := ⟨links, hroot⟩
  acyclic := by
    intro route keys id loop names hwalk hloop
    cases loop with
    | nil => rfl
    | cons i loop =>
      cases hloop with
      | @follow _ _ _ ilinks _ _ _ _ hid hlink rest =>
        have hilinks : ilinks.entries ≠ [] := fun hnil => by simp [hnil] at hlink
        obtain ⟨branch', hmem, -, -, leaves', hunf⟩ :=
          h.follow hroot (by simp) hwalk hid hilinks
        -- From here on `id` is on the branch, and the loop would arrive at it a second time.
        obtain ⟨_, -, hfresh, -, -⟩ :=
          hunf.follow hid hmem (.follow hid hlink rest) hid hilinks
        exact absurd hmem (hfresh (by simp))
  linked := by
    intro route keys id ilinks key child hwalk hid hmem
    have hilinks : ilinks.entries ≠ [] := List.ne_nil_of_mem hmem
    obtain ⟨_, -, -, -, leaves', hunf⟩ := h.follow hroot (by simp) hwalk hid hilinks
    obtain ⟨hkey, hnode, -⟩ := hunf.link hmem
    exact ⟨hkey, hnode⟩
  apart := by
    intro l l' hl hl' hne
    have : Std.Symm fun a b : Leaf => ¬ DottedPath.Clash a.path b.path :=
      ⟨fun _ _ hab hba => hab hba.symm⟩
    have hpair : leaves.Pairwise fun a b => ¬ DottedPath.Clash a.path b.path :=
      List.pairwise_map.mp hrows
    have hclash := hpair.forall ((h.mem_iff_isLeaf hroot l).mpr hl)
      ((h.mem_iff_isLeaf hroot l').mpr hl') fun heq => hne (congrArg Leaf.route heq)
    exact ⟨fun heq => hclash (.inl heq), fun rest heq => hclash (.inr (.inr ⟨rest, heq⟩))⟩

/-! ## 2. From the graph to an unfolding -/

/-- Below a node within reach, whose branch leads down to it, every list of its links unfolds. The
    outer induction is on the nodes still free to enter, as for the pass itself. -/
theorem Sound.exists_unfolds (hs : theme.Sound callableKey) {id : NodeId}
    {links : OrderedMap NodeId} {route : List Nat} {keys : List Text}
    (hid : theme.node? id = some (.composite links))
    (hreach : theme.Walk theme.root route keys id)
    (hbranch : ∀ b ∈ branch, ∃ route keys, theme.Walk b route keys id)
    (i : Nat) (part : List (Text × NodeId)) (hpart : ∀ link ∈ part, link ∈ links.entries) :
    ∃ leaves, Unfolds theme callableKey branch i part leaves := by
  induction hn : theme.free branch using Nat.strongRecOn
    generalizing branch id links route keys i part with
  | _ n ihFree =>
    induction part generalizing i with
    | nil => exact ⟨[], .done⟩
    | cons link rest ih =>
      obtain ⟨key, child⟩ := link
      have hmem : (key, child) ∈ links.entries := hpart _ List.mem_cons_self
      obtain ⟨hkey', node', hnode'⟩ := hs.linked hreach hid hmem
      obtain ⟨j, hstep⟩ := Walk.ofMem hid hmem
      have hdown := hreach.append hstep
      obtain ⟨leaves, hleaves⟩ := ih (i + 1) fun link hl => hpart link (List.mem_cons_of_mem _ hl)
      cases linkKind theme callableKey branch key child with
      | keyless hkey => exact absurd hkey hkey'
      | dangling _ hnode => rw [hnode] at hnode'; cases hnode'
      | leaf hkey hnode hvalue => exact ⟨_, .leaf hkey hnode hvalue hleaves⟩
      | silent hkey hnode hvalue hlinks => exact ⟨_, .silent hkey hnode hvalue hlinks hleaves⟩
      | cycle _ _ _ hmemb =>
        -- the branch leads down to `id`, so the link back to it closes a loop
        obtain ⟨back, names, hback⟩ := hbranch child hmemb
        have hloop := hs.acyclic hdown (hback.append hstep)
        simp at hloop
      | @inner clinks hkey hnode hlinks hnew =>
        have hfree : theme.free (child :: branch) < n :=
          hn ▸ free_cons_lt (lt_size_of_node? hnode) (by simpa using hnew)
        have hdownAll : ∀ b ∈ child :: branch, ∃ route keys, theme.Walk b route keys child := by
          intro b hb
          rcases List.mem_cons.mp hb with rfl | hb
          · exact ⟨_, _, .stay b⟩
          · obtain ⟨r, k, hw⟩ := hbranch b hb
            exact ⟨_, _, hw.append hstep⟩
        obtain ⟨below, hbelow⟩ :=
          ihFree _ hfree hnode hdown hdownAll 0 clinks.entries (fun _ hl => hl) rfl
        exact ⟨_, .inner hkey hnode hlinks hnew hbelow hleaves⟩

/-! ## 3. Flattening -/

theorem flatten_composite {links : OrderedMap NodeId}
    (hroot : theme.node? theme.root = some (.composite links)) :
    theme.flatten callableKey = visitAll theme callableKey [theme.root] [] links.entries ∅ := by
  rw [flatten, hroot]

theorem flatten_eq_ok_iff_unfolds {table : Table} :
    theme.flatten callableKey = .ok table ↔
      ∃ links leaves, theme.node? theme.root = some (.composite links) ∧
        Unfolds theme callableKey [theme.root] 0 links.entries leaves ∧
        (leaves.map Leaf.row).Pairwise (fun row new => ¬ DottedPath.Clash row.1 new.1) ∧
        table.entries = leaves.map Leaf.row := by
  constructor
  · intro h
    have hroot : ∃ links, theme.node? theme.root = some (.composite links) := by
      rw [flatten] at h
      split at h
      · exact ⟨_, ‹_›⟩
      · cases h
      · cases h
    obtain ⟨links, hroot⟩ := hroot
    rw [flatten_composite hroot] at h
    obtain ⟨leaves, hunf⟩ := exists_unfolds_of_visitAll (i := 0) h
    rw [hunf.visitAll_eq, Leaf.rowBelow_nil, emitAll_empty_eq_ok_iff] at h
    exact ⟨links, leaves, hroot, hunf, h⟩
  · intro h
    obtain ⟨links, leaves, hroot, hunf, hrows⟩ := h
    rw [flatten_composite hroot, hunf.visitAll_eq, Leaf.rowBelow_nil, emitAll_empty_eq_ok_iff]
    exact hrows

theorem Sound.exists_flatten (hs : theme.Sound callableKey) :
    ∃ table, theme.flatten callableKey = .ok table := by
  obtain ⟨links, hroot⟩ := hs.root
  have hreach : ∀ b ∈ [theme.root], ∃ route keys, theme.Walk b route keys theme.root := by
    intro b hb
    obtain rfl := List.mem_singleton.mp hb
    exact ⟨_, _, .stay _⟩
  obtain ⟨leaves, hunf⟩ :=
    hs.exists_unfolds hroot (.stay theme.root) hreach 0 links.entries fun _ hl => hl
  have hapart : leaves.Pairwise fun l l' => ¬ DottedPath.Clash l.path l'.path := by
    -- the order of the leaves tells them apart, so soundness speaks of each pair
    refine hunf.sorted.imp_of_mem fun {l l'} hl hl' hlt => ?_
    have hl := (hunf.mem_iff_isLeaf hroot l).mp hl
    have hl' := (hunf.mem_iff_isLeaf hroot l').mp hl'
    have hne : l.route ≠ l'.route := fun heq => List.lt_irrefl _ (heq ▸ hlt)
    rintro (h | ⟨rest, h⟩ | ⟨rest, h⟩)
    · exact (hs.apart hl hl' hne).1 h
    · exact (hs.apart hl' hl hne.symm).2 rest h
    · exact (hs.apart hl hl' hne).2 rest h
  have hrows : (leaves.map Leaf.row).Pairwise fun row new => ¬ DottedPath.Clash row.1 new.1 :=
    List.pairwise_map.mpr hapart
  obtain ⟨table, htable⟩ := exists_emitAll_empty hrows
  exact ⟨table, flatten_eq_ok_iff_unfolds.mpr
    ⟨links, leaves, hroot, hunf, emitAll_empty_eq_ok_iff.mp htable⟩⟩

theorem sound_and_tabulates_of_flatten {table : Table}
    (h : theme.flatten callableKey = .ok table) :
    theme.Sound callableKey ∧ theme.Tabulates callableKey table := by
  obtain ⟨links, leaves, hroot, hunf, hpair, hrows⟩ := flatten_eq_ok_iff_unfolds.mp h
  exact ⟨sound_of_unfolds hroot hunf hpair, leaves, hunf.sorted, hunf.mem_iff_isLeaf hroot, hrows⟩

/-- The leaves of a theme have one order, so it has one table. -/
theorem Tabulates.unique {table table' : Table} (h : theme.Tabulates callableKey table)
    (h' : theme.Tabulates callableKey table') : table = table' := by
  obtain ⟨leaves, hsorted, hmem, hrows⟩ := h
  obtain ⟨leaves', hsorted', hmem', hrows'⟩ := h'
  have : Std.Antisymm fun l l' : Leaf => l.route < l'.route :=
    ⟨fun _ _ hlt hgt => absurd hgt (List.lt_asymm hlt)⟩
  have : Std.Irrefl fun l l' : Leaf => l.route < l'.route := ⟨fun _ => List.lt_irrefl _⟩
  have hleaves : leaves = leaves' :=
    hsorted.eq_of_mem_iff hsorted' fun l => (hmem l).trans (hmem' l).symm
  exact OrderedMap.ext (by rw [hrows, hrows', hleaves])

/-- **Flattening gives a table exactly for the sound themes**, and it is the table of their leaves,
    in depth-first declaration order. -/
theorem flatten_ok_iff_sound (theme : Theme) (callableKey : Text) :
    ((∃ table, theme.flatten callableKey = .ok table) ↔ theme.Sound callableKey) ∧
      ∀ table, theme.flatten callableKey = .ok table ↔
        theme.Sound callableKey ∧ theme.Tabulates callableKey table := by
  refine ⟨⟨?_, Sound.exists_flatten⟩, fun table => ⟨sound_and_tabulates_of_flatten, ?_⟩⟩
  · intro h
    obtain ⟨table, h⟩ := h
    exact (sound_and_tabulates_of_flatten h).1
  · intro h
    obtain ⟨hs, htab⟩ := h
    obtain ⟨table', h⟩ := hs.exists_flatten
    rw [h, htab.unique (sound_and_tabulates_of_flatten h).2]

end ThemeLens.Theme
