import ThemeLens.Text.Basic

/-!
# Arrow heads

`({ theme }) =>` and `(p) =>` are the heads of arrow functions, and what stands before an access
to the theme may be one. `Head.before` reads backwards from the body: blanks, the arrow, blanks,
a closing parenthesis, and then the parenthesis that opens it, counting nested ones. What lies
between the two is the parameter, one identifier or one pattern in braces.

Three outcomes are kept apart. Without `) =>` there is no head, and the access stands for itself.
With one that cannot be read, the parameters might rebind the name, so the access must not be
trusted. A head is out of reach when it is long: the closing parenthesis is paired with an opening
one at most `Head.reach` bytes before it. Blanks of any alphabet separate the arrow from its
surroundings, yet a head is readable only if its gaps are the plain ones of `isGap`.
-/

namespace ThemeLens

/-- The parameter of an arrow function. -/
inductive Param
  /-- A pattern in braces, given by the text between them. -/
  | pattern (inner : Text)
  /-- A single name. -/
  | name (ident : Text)
  deriving DecidableEq, Repr

namespace Param

/-- Splits a text behind an open brace at the brace that closes it. -/
def splitAtClose (depth : Nat) : Text → Option (Text × Text)
  | [] => none
  | c :: t =>
    if c = '}' ∧ depth = 0 then some ([], t)
    else
      let depth := if c = '{' then depth + 1 else if c = '}' then depth - 1 else depth
      (splitAtClose depth t).map fun (inner, rest) => (c :: inner, rest)

/-- Reads the text between the parentheses of a head as one parameter with gaps around it. -/
def read? (text : Text) : Option Param :=
  match text.dropWhile isGap with
  | '{' :: t =>
    (splitAtClose 0 t).bind fun (inner, rest) =>
      if rest.all isGap then some (pattern inner) else none
  | t =>
    let ident := t.takeWhile isIdent
    if !ident.isEmpty && (t.dropWhile isIdent).all isGap then some (name ident) else none

end Param

/-- What stands in front of the body of a would-be arrow function. -/
inductive Head
  /-- Nothing of the form `) =>`. -/
  | absent
  /-- An arrow behind a parenthesis, with parameters that cannot be read. -/
  | unreadable
  /-- A head whose opening parenthesis is at `start`. -/
  | found (start : Nat) (param : Param)
  deriving DecidableEq, Repr

namespace Head

/-- The greatest number of bytes from the parenthesis that opens a head to the one that closes
it. -/
def reach : Nat := 256

/-- Splits what stands before a closing parenthesis, nearest character first, at its partner: the
text between the two, and what is before both. -/
def splitAtOpen (depth : Nat) (inner : Text) : Text → Option (Text × Text)
  | [] => none
  | c :: t =>
    if c = '(' ∧ depth = 0 then some (inner, t)
    else
      let depth := if c = ')' then depth + 1 else if c = '(' then depth - 1 else depth
      splitAtOpen depth (c :: inner) t

/-- The head that ends where `before`, nearest character first, is read from. -/
def before (before : Text) : Head :=
  let gapAfter := before.takeWhile isBlank
  match before.dropWhile isBlank with
  | '>' :: '=' :: beforeArrow =>
    let gapBefore := beforeArrow.takeWhile isBlank
    match beforeArrow.dropWhile isBlank with
    | ')' :: inside =>
      let param? := (splitAtOpen 0 [] inside).bind fun (inner, outside) =>
        if inner.size < reach && gapBefore.all isGap && gapAfter.all isGap then
          (Param.read? inner).map (found outside.size)
        else none
      param?.getD unreadable
    | _ => absent
  | _ => absent

end Head

end ThemeLens
