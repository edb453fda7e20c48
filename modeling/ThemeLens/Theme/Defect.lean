import ThemeLens.Text.Basic

/-!
# Defects of a theme

Why a theme cannot be flattened, and where. The place is the dotted path of the link at fault; a
defect of the root has the empty path.
-/

namespace ThemeLens

/-- What can be wrong with a theme. -/
inductive Flaw
  /-- A node contains itself. -/
  | cycle
  /-- A link leads to no node. -/
  | danglingNode
  /-- A key has no characters. -/
  | emptyKey
  /-- A leaf has the path of another leaf, or one stands above the other. -/
  | duplicatePath
  /-- The root holds no keys. -/
  | rootNotComposite
  deriving DecidableEq, Repr

namespace Flaw

def message : Flaw → String
  | cycle => "node refers back to one of its ancestors"
  | danglingNode => "reference to a node that does not exist"
  | emptyKey => "empty key"
  | duplicatePath => "two leaves flatten to the same path"
  | rootNotComposite => "theme root must be an object"

end Flaw

/-- A flaw at a path. -/
structure Defect where
  path : Text
  flaw : Flaw
  deriving DecidableEq, Repr

namespace Defect

/-- A sentence naming the place and the flaw. -/
def message (d : Defect) : String :=
  s!"malformed theme tree at `{String.ofList d.path}`: {d.flaw.message}"

end Defect

end ThemeLens
