import ThemeLens.Text.Basic

/-!
# Tags of styled CSS

CSS written inside a script is introduced by a tag: `styled.div`, `styled(Button)`, or one of the
helpers `css`, `keyframes` and `createGlobalStyle`, used on a template or called. A tag counts
only at an identifier boundary: `mycss(` is not one. The boundary is judged inside the text at
hand, so a tag at its very start counts.
-/

namespace ThemeLens.StyledTag

/-- The helpers that are tags when a template or an argument list follows. -/
def helpers : List Text := ["css".toList, "keyframes".toList, "createGlobalStyle".toList]

/-- Does a text go on after `styled` with a member or with arguments? -/
def followsFactory : Text → Bool
  | '.' :: c :: _ => isIdent c
  | '(' :: _ => true
  | _ => false

/-- Does a text go on after a helper with a template or with arguments? -/
def followsHelper : Text → Bool
  | c :: _ => c == '\x60' || c == '('
  | [] => false

/-- Does a text begin with a tag? -/
def startsWith (text : Text) : Bool :=
  (Text.strip? "styled".toList text).any followsFactory
    || helpers.any fun helper => (Text.strip? helper text).any followsHelper

/-- Is there a tag in the text, `inIdent` saying whether an identifier character stands in front
of it? -/
def occursFrom (inIdent : Bool) : Text → Bool
  | [] => false
  | c :: t => (!inIdent && startsWith (c :: t)) || occursFrom (isIdent c) t

/-- Is there a tag in the text? -/
def occurs (text : Text) : Bool := occursFrom false text

end ThemeLens.StyledTag
