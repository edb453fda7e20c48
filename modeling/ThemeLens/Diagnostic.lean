import ThemeLens.Span

/-!
# Diagnostics

How a failure is told to a person: a message, a code by which it can be looked up, advice, and the
places in a source that it is about. Every error of the library has one such telling.
-/

namespace ThemeLens

/-- A failure as it is shown. -/
structure Diagnostic where
  message : String
  code : Option String
  help : Option String
  /-- Marked stretches of the source, each with a remark. -/
  labels : List (Span × String)
  deriving DecidableEq, Repr

namespace Diagnostic

/-- A failure of which there is nothing more to say. -/
def plain (message : String) : Diagnostic := ⟨message, none, none, []⟩

/-- A remark on a stretch of a source of `size` bytes; what lies past its end is left out. -/
def atSpan (message label : String) (help : Option String) (span : Span) (size : Nat) :
    Diagnostic :=
  ⟨message, some "themepath::query", help, [(span.clampTo size, label)]⟩

end Diagnostic

end ThemeLens
