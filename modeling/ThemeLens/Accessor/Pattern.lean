import ThemeLens.Text.Basic

/-!
# Destructuring patterns

The braces of an arrow parameter, `({ size, theme: t = base }) =>`, bind names. Only one question
about them matters here: is `theme` bound, and under its own name? The answer comes from the
entries of the pattern itself. What an entry nests, in an alias or in a default, belongs to that
entry, so the pattern is first split at the commas outside all brackets, and an entry is then
read up to its first `=`, with its first `:` parting the name from the alias.

The depth of brackets never goes below zero: a stray closing bracket is ignored, so a broken
pattern still splits.
-/

namespace ThemeLens

/-- The name under which components receive the theme. -/
def themeName : Text := ['t', 'h', 'e', 'm', 'e']

namespace Pattern

/-- The depth of brackets after a character, whichever the kind of bracket. -/
def depthAfter (depth : Nat) (c : Char) : Nat :=
  if c == '{' || c == '[' || c == '(' then depth + 1
  else if c == '}' || c == ']' || c == ')' then depth - 1
  else depth

/-- Puts a character in front of the first entry. -/
def pushFirst (c : Char) : List Text → List Text
  | [] => [[c]]
  | entry :: entries => (c :: entry) :: entries

/-- The pieces of a text between the commas outside all brackets, `depth` brackets being open at
its start. -/
def splitFrom (depth : Nat) : Text → List Text
  | [] => [[]]
  | c :: t =>
    if c == ',' && depth == 0 then [] :: splitFrom 0 t
    else pushFirst c (splitFrom (depthAfter depth c) t)

/-- The entries of a pattern; there is always at least one, though it may be empty. -/
def entries (pattern : Text) : List Text := splitFrom 0 pattern

/-- The name an entry takes, and the alias it binds it to if it has one. The default, from the
first `=` on, plays no part. -/
def nameAndAlias (entry : Text) : Text × Option Text :=
  let (name, alias?) := Text.cut ':' (Text.cut '=' entry).1
  (Text.trim name, alias?.map Text.trim)

end Pattern

/-- What a pattern does with the name `theme`. -/
inductive Binding
  /-- The name is bound as itself. -/
  | bound
  /-- The name is bound to something else, so `theme` now means another thing or nothing. -/
  | renamed
  /-- The name is not among the entries. -/
  | absent
  deriving DecidableEq, Repr

namespace Binding

/-- The first entry that takes `theme` decides. -/
def ofEntries : List Text → Binding
  | [] => absent
  | entry :: rest =>
    let (name, alias?) := Pattern.nameAndAlias entry
    if name = themeName then
      if alias?.getD themeName = themeName then bound else renamed
    else ofEntries rest

def ofPattern (pattern : Text) : Binding := ofEntries (Pattern.entries pattern)

end Binding

end ThemeLens
