import ThemeLens.Theme.Graph

/-!
# Flattening a theme

The table of a theme is made by walking its graph depth first from the root, in declaration order,
with the path so far and the composites on the current branch. Every link met is checked before it
is followed, so the first link at fault is the one reported. A composite that is already on the
branch would repeat it for ever and is a defect; one that was met on another branch is shared and
flattens again under its new path.

A branch never holds a node twice, and only nodes that exist, so the walk ends: the nodes still
`free` to enter get fewer on the way down.
-/

namespace ThemeLens.Theme

/-- Adds a leaf to the table, unless its path is in the way of another. -/
def emit (out : Table) (path : Text) (value : Value) : Except Defect Table :=
  if out.collides path then .error ⟨path, .duplicatePath⟩ else .ok (out.insert path value)

/-- The number of nodes that are not on a branch. -/
def free (theme : Theme) (branch : List NodeId) : Nat :=
  (List.range theme.nodes.size).countP fun id => !branch.contains id

theorem lt_size_of_node? {theme : Theme} {id : NodeId} {node : Node}
    (h : theme.node? id = some node) : id < theme.nodes.size :=
  (Array.getElem?_eq_some_iff.mp h).1

/-- Entering a node that is not yet on the branch leaves fewer to enter. -/
theorem free_cons_lt {theme : Theme} {branch : List NodeId} {id : NodeId}
    (hid : id < theme.nodes.size) (hnew : branch.contains id = false) :
    theme.free (id :: branch) < theme.free branch := by
  have hmem : id ∈ List.range theme.nodes.size := List.mem_range.mpr hid
  obtain ⟨pre, post, hsplit⟩ := List.append_of_mem hmem
  have hle : ∀ l : List NodeId, l.countP (fun i => !(id :: branch).contains i) ≤
      l.countP (fun i => !branch.contains i) := fun l =>
    List.countP_mono_left fun i _ h => by
      simp only [List.contains_cons, Bool.not_or, Bool.and_eq_true] at h
      exact h.2
  have h₁ := hle pre
  have h₂ := hle post
  simp only [free, hsplit, List.countP_append, List.countP_cons, hnew, List.contains_cons,
    beq_self_eq_true, Bool.true_or, Bool.not_true, Bool.not_false, if_true]
  simp only [List.contains_cons] at h₁ h₂
  simp only [Bool.false_eq_true, if_false]
  omega

mutual

/-- Follows one link: checks it, and adds the leaves it leads to. -/
def visit (theme : Theme) (callableKey : Text) (branch : List NodeId) (above : Text)
    (link : Text × NodeId) (out : Table) : Except Defect Table :=
  let path := DottedPath.join above link.1
  if link.1.isEmpty then .error ⟨path, .emptyKey⟩
  else
    match _h : theme.node? link.2 with
    | none => .error ⟨path, .danglingNode⟩
    | some (.scalar s) => emit out path (.scalar s)
    | some (.list items) => emit out path (.list items)
    | some (.callable params) =>
      if DottedPath.partialSegment link.1 = callableKey then emit out path (.function params)
      else .ok out
    | some .null => .ok out
    | some (.composite links) =>
      if links.isEmpty then .ok out
      else if _hb : branch.contains link.2 then .error ⟨path, .cycle⟩
      else visitAll theme callableKey (link.2 :: branch) path links.entries out
termination_by (theme.free branch, 0)
decreasing_by
  exact Prod.Lex.left _ _ (free_cons_lt (lt_size_of_node? _h) (by simpa using _hb))

/-- Follows links in their order, up to the first defect. -/
def visitAll (theme : Theme) (callableKey : Text) (branch : List NodeId) (above : Text)
    (links : List (Text × NodeId)) (out : Table) : Except Defect Table :=
  match links with
  | [] => .ok out
  | link :: rest =>
    (visit theme callableKey branch above link out).bind fun out =>
      visitAll theme callableKey branch above rest out
termination_by (theme.free branch, links.length)
decreasing_by
  · exact Prod.Lex.right _ (by simp)
  · exact Prod.Lex.right _ (by simp)

end

/-- The table of a theme, or the first defect on the way. A function is kept only under
`callableKey`, the last segment of its own key. -/
def flatten (theme : Theme) (callableKey : Text) : Except Defect Table :=
  match theme.node? theme.root with
  | some (.composite links) => visitAll theme callableKey [theme.root] [] links.entries ∅
  | some _ => .error ⟨[], .rootNotComposite⟩
  | none => .error ⟨[], .danglingNode⟩

end ThemeLens.Theme
