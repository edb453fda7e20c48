import ThemeLens.Proofs.OrderedMap
import ThemeLens.Theme.Flatten

/-!
# Growing a theme

A theme is built in two kinds of steps, adding a node and linking it, and neither takes anything
away: a new node gets a number of its own, and a link changes the composite that it starts from and
nothing else. Everything known about a theme that was built rather than given comes from that, so it
is said once here, with one relation for what a step leaves as it was.

`theme.Keeps theme' p` says that the nodes of `theme` with a number in `p` are nodes of `theme'` too.
The set is there because a composite that is being filled is the one node that does not stay.
-/

namespace ThemeLens.Theme

variable {theme theme' theme'' : Theme} {p q : NodeId → Prop} {parent child : NodeId} {key : Text}
  {links : OrderedMap NodeId} {node : Node}

/-- The nodes of `theme` whose numbers have `p` are unchanged in `theme'`. -/
def Keeps (theme theme' : Theme) (p : NodeId → Prop) : Prop :=
  ∀ ⦃id node⦄, p id → theme.node? id = some node → theme'.node? id = some node

theorem Keeps.trans (h : theme.Keeps theme' p) (h' : theme'.Keeps theme'' p) :
    theme.Keeps theme'' p := by
  intro id node hid hnode
  exact h' hid (h hid hnode)

theorem Keeps.mono (h : theme.Keeps theme' p) (hq : ∀ id, q id → p id) : theme.Keeps theme' q := by
  intro id node hid hnode
  exact h (hq id hid) hnode

/-! ## 1. Adding a node -/

theorem node?_add_self (theme : Theme) (node : Node) :
    (theme.add node).2.node? theme.nodes.size = some node := by
  simp [add, node?]

theorem keeps_add (theme : Theme) (node : Node) (p : NodeId → Prop) :
    theme.Keeps (theme.add node).2 p := by
  intro id old _ hold
  have hlt := lt_size_of_node? hold
  have hne : id ≠ theme.nodes.size := Nat.ne_of_lt hlt
  simpa [add, node?, Array.getElem?_push, hne] using hold

/-! ## 2. Linking -/

/-- A link goes into the composite it starts from and changes nothing else. -/
theorem exists_link (hparent : theme.node? parent = some (.composite links)) (key : Text)
    (child : NodeId) :
    ∃ theme', theme.link? parent key child = some theme' ∧
      theme'.node? parent = some (.composite (links.insert key child)) ∧
      theme'.root = theme.root ∧ theme.Keeps theme' (· ≠ parent) := by
  have hlt := lt_size_of_node? hparent
  refine ⟨{ theme with
    nodes := theme.nodes.setIfInBounds parent (.composite (links.insert key child)) }, ?_, ?_, rfl, ?_⟩
  · unfold link?
    rw [hparent]
  · simp [node?, hlt]
  · intro id node hne hnode
    simpa [node?, Array.getElem?_setIfInBounds, Ne.symm hne] using hnode

/-- Inserting is adding and then linking. -/
theorem exists_insert (hparent : theme.node? parent = some (.composite links)) (key : Text)
    (node : Node) :
    ∃ theme', (theme.insert parent key node).2 = theme' ∧
      theme'.node? parent = some (.composite (links.insert key theme.nodes.size)) ∧
      theme'.node? theme.nodes.size = some node ∧ theme'.root = theme.root ∧
      theme.Keeps theme' (· ≠ parent) := by
  have hkept := keeps_add theme node fun _ => True
  obtain ⟨theme', hlink, hnode, hroot, hrest⟩ :=
    exists_link (hkept trivial hparent) key theme.nodes.size
  have hne : theme.nodes.size ≠ parent := Nat.ne_of_gt (lt_size_of_node? hparent)
  refine ⟨theme', ?_, hnode, hrest hne (node?_add_self theme node), hroot, ?_⟩
  · show (((theme.add node).2.link? parent key theme.nodes.size).getD (theme.add node).2) = theme'
    rw [hlink]
    rfl
  · exact (keeps_add theme node _).trans hrest

end ThemeLens.Theme
