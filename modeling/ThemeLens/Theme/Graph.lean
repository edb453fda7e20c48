import ThemeLens.Theme.Defect
import ThemeLens.Theme.Table

/-!
# Themes as graphs

A theme is a numbered collection of nodes with a root. Composite nodes link to others by number,
so a theme built by a tool may share a part, refer to a node that is missing, or loop; whether it
does is asked when it is flattened. Nodes are only ever added, and the number of a node is its
place in the order of adding.

A theme comes from JSON (`ofJson`), where every object becomes a composite, or from a table
(`ofTable`), where every path becomes one key of a flat root.
-/

namespace ThemeLens

/-- A node by its number. -/
abbrev NodeId := Nat

/-- A node of a theme. -/
inductive Node
  | scalar (s : Scalar)
  /-- Links by key. One without links says nothing and is left out of the table. -/
  | composite (links : OrderedMap NodeId)
  /-- A function, known by the names of its parameters. -/
  | callable (params : List Text)
  | list (items : List Json)
  /-- A value that is deliberately absent. -/
  | null

/-- Nodes in order of adding, and the number of the root. -/
structure Theme where
  nodes : Array Node
  root : NodeId

namespace Theme

/-- The theme of an empty root. -/
def empty : Theme := ⟨#[.composite ∅], 0⟩

def node? (theme : Theme) (id : NodeId) : Option Node := theme.nodes[id]?

/-- Adds a node that nothing links to yet. -/
def add (theme : Theme) (node : Node) : NodeId × Theme :=
  (theme.nodes.size, { theme with nodes := theme.nodes.push node })

/-- Links `child` under `parent`, if that is a composite. A key already there leads to the new
child from its old place. -/
def link? (theme : Theme) (parent : NodeId) (key : Text) (child : NodeId) : Option Theme :=
  match theme.node? parent with
  | some (.composite links) =>
    some { theme with
      nodes := theme.nodes.setIfInBounds parent (.composite (links.insert key child)) }
  | _ => none

/-- Adds a node and links it; a parent that is no composite leaves the node unlinked. -/
def insert (theme : Theme) (parent : NodeId) (key : Text) (node : Node) : NodeId × Theme :=
  let (id, theme) := theme.add node
  (id, (theme.link? parent key id).getD theme)

/-! ## From JSON -/

/-- The one key of an object that stands for a function. -/
def callableMarker : Text := "$callable".toList

/-- The parameters of a function, if a value lists them: an array of strings, or nothing. -/
def params? : Json → Option (List Text)
  | .null => some []
  | .arr items => items.mapM fun item =>
    match item with
    | .str s => some s
    | _ => none
  | _ => none

/-- The parameters of the function that an object stands for, if it stands for one. -/
def callable? : List (Text × Json) → Option (List Text)
  | [(key, value)] => if key = callableMarker then params? value else none
  | _ => none

mutual

/-- Adds the nodes of a JSON value; the first number is that of the value itself. -/
def addJson (theme : Theme) : Json → NodeId × Theme
  | .null => theme.add .null
  | .bool b => theme.add (.scalar (.bool b))
  | .num n => theme.add (.scalar (.number n))
  | .str s => theme.add (.scalar (.string s))
  | .arr items => theme.add (.list items)
  | .obj fields =>
    match callable? fields with
    | some params => theme.add (.callable params)
    | none =>
      let (id, theme) := theme.add (.composite ∅)
      (id, addFields theme id fields)

/-- Adds the nodes of the fields of an object and links them under its node. -/
def addFields (theme : Theme) (parent : NodeId) : List (Text × Json) → Theme
  | [] => theme
  | (key, value) :: fields =>
    let (child, theme) := addJson theme value
    addFields ((theme.link? parent key child).getD theme) parent fields

end

/-- The theme a JSON value describes. Only an object can be one. -/
def ofJson : Json → Except Defect Theme
  | .obj fields =>
    let (root, theme) := addJson ⟨#[], 0⟩ (.obj fields)
    .ok { theme with root := root }
  | _ => .error ⟨[], .rootNotComposite⟩

/-! ## From a table -/

/-- The node that flattens to a value. -/
def nodeOfValue : Value → Node
  | .scalar s => .scalar s
  | .list items => .list items
  | .function params => .callable params

/-- The theme whose root has each path of a table as one key. -/
def ofTable (table : Table) : Theme :=
  table.entries.foldl (fun theme entry => (theme.insert theme.root entry.1 (nodeOfValue entry.2)).2)
    empty

end Theme

end ThemeLens
