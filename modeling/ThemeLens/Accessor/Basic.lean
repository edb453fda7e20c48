import ThemeLens.Accessor.Head
import ThemeLens.Accessor.Pattern

/-!
# Accessors

An accessor is a place where a source reads the theme. There are four forms, with a path that may
be empty or cut off in the middle because someone is still typing it:

    theme.PATH
    props.theme.PATH
    ({ ..., theme, ... }) => theme.PATH
    (p) => p.theme.PATH

An accessor is found from its keyword `theme`. What follows the keyword gives the path, and what
stands before it gives the form and where the accessor starts; the two halves do not depend on
each other. A source that binds `theme` to something else, or reaches it through a longer chain
of members, reads something that is not the theme, and is no accessor.
-/

namespace ThemeLens

/-- The four ways of reading the theme. -/
inductive Form
  /-- `theme.` with no claim on what `theme` is bound to. -/
  | plain
  /-- `props.theme.` -/
  | ofProps
  /-- `theme.` in the body of an arrow function whose parameter takes `theme` apart. -/
  | destructured
  /-- `p.theme.` in the body of an arrow function with the parameter `p`. -/
  | aliased
  deriving DecidableEq, Repr

namespace Form

/-- The name of the form in reports. -/
def name : Form → String
  | plain => "direct"
  | ofProps => "propsQualified"
  | destructured => "arrowDestructured"
  | aliased => "aliasedArrow"

end Form

/-- A place where the theme is read. An accessor ends where its path ends. -/
structure Accessor where
  /-- The offset of the first character, of an arrow head or a qualifier if there is one. -/
  start : Nat
  form : Form
  /-- The offset right after `theme.`. -/
  pathStart : Nat
  path : Text
  deriving DecidableEq, Repr

namespace Accessor

def stop (a : Accessor) : Nat := a.pathStart + a.path.size

def span (a : Accessor) : Span := ⟨a.start, a.stop⟩

def pathSpan (a : Accessor) : Span := ⟨a.pathStart, a.stop⟩

/-! ## The path -/

/-- The longest beginning of a text that continues a path: identifiers with single dots between
them, and one more dot at the end if it is there. A dot is allowed only after an identifier, so
`afterIdent` says whether the last character read was one of an identifier. -/
def pathFrom (afterIdent : Bool) : Text → Text
  | [] => []
  | c :: t =>
    if isIdent c then c :: pathFrom true t
    else if c == '.' && afterIdent then c :: pathFrom false t
    else []

/-- The keyword that every accessor has in front of its path. -/
def keyword : Text := themeName ++ ['.']

/-- The path of an accessor whose keyword a text begins with. -/
def readPath? (after : Text) : Option Text := (Text.strip? keyword after).map (pathFrom false)

/-! ## The form -/

/-- The form of an accessor whose keyword follows the dot behind `before`. -/
def qualified? (before : Text) : Option (Nat × Form) :=
  let qualifier := (before.takeWhile isIdent).reverse
  let outside := before.dropWhile isIdent
  if qualifier = [] then none
  else if qualifier = ['p', 'r', 'o', 'p', 's'] then some (Text.size outside, .ofProps)
  else if outside.head? = some '.' then none
  else
    match Head.before outside with
    | .found start (.name param) => if param = qualifier then some (start, .aliased) else none
    | _ => none

/-- The form of an accessor whose keyword has no qualifier. -/
def unqualified? (before : Text) : Option (Nat × Form) :=
  match Head.before before with
  | .found start (.pattern pattern) =>
    match Binding.ofPattern pattern with
    | .bound => some (start, .destructured)
    | .renamed => none
    | .absent => some (before.size, .plain)
  | .unreadable => none
  | .found _ (.name _) => some (before.size, .plain)
  | .absent => some (before.size, .plain)

/-- Where an accessor starts and which form it has, from what stands before its keyword, nearest
character first. -/
def opening? (before : Text) : Option (Nat × Form) :=
  match before with
  | [] => unqualified? []
  | c :: rest =>
    if isIdent c then none
    else if c = '.' then qualified? rest
    else unqualified? (c :: rest)

/-- The accessor whose keyword stands at a place. -/
def ofKeyword? (k : Cursor) : Option Accessor :=
  (readPath? k.after).bind fun path =>
    (opening? k.before).map fun (start, form) =>
      ⟨start, form, k.offset + keyword.size, path⟩

end Accessor

end ThemeLens
