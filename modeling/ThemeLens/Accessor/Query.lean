import ThemeLens.Accessor.Basic

/-!
# Asking a source for its accessors

Two questions. The range query `within` lists the accessors whose keyword starts in a window, in
the order of the text. The point query `at?` finds the accessor whose path is under a cursor.

The range query is one pass over the text. Keywords inside the path of an accessor already taken
belong to that path, so the pass resumes at its end: `resume` is the first offset from which a
keyword counts again. The point query is the range query on the line of the cursor, up to the
cursor, since a path never crosses a line and starts before whatever touches it.
-/

namespace ThemeLens.Accessor

/-- The accessors with a keyword in `window`, at or after `resume`, in the text that goes on with
the argument after `before`. -/
def scan (window : Span) (resume : Nat) (before : Text) : Text → List Accessor
  | [] => []
  | c :: after =>
    let k : Cursor := ⟨before, c :: after⟩
    let found? :=
      (ofKeyword? k).filter fun _ => decide (resume ≤ k.offset) && window.contains k.offset
    match found? with
    | some a => a :: scan window a.stop (c :: before) after
    | none => scan window resume (c :: before) after

/-- The accessors whose keyword starts in a window, in text order. -/
def within (text : Text) (window : Span) : List Accessor := scan window 0 [] text

/-- The later of two accessors, unless the earlier one is longer. -/
def longer (a b : Accessor) : Accessor := if b.span.length < a.span.length then a else b

/-- An accessor and how much of its path stands before the cursor. -/
structure Hit where
  accessor : Accessor
  typed : Text
  deriving DecidableEq, Repr

/-- The part of a stretch of text in front of an offset, which is first brought into the
stretch; nothing if that does not cut the text at a place. -/
def typedBefore (text : Text) (stretch : Span) (offset : Nat) : Text :=
  (text.slice? ⟨stretch.start, min (max offset stretch.start) stretch.stop⟩).getD []

/-- The accessor whose path covers the offset or ends there, the longest if there are several. -/
def at? (text : Text) (offset : Nat) : Option Hit :=
  if text.size < offset then none
  else
    let k := text.seek offset
    let found := (within text ⟨k.lineStart, k.offset + 1⟩).filter (·.pathSpan.touches k.offset)
    match found with
    | [] => none
    | a :: rest =>
      let best := rest.foldl longer a
      some ⟨best, typedBefore text best.pathSpan k.offset⟩

end ThemeLens.Accessor
