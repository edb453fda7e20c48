import ThemeLens.Text.Basic

/-!
# Lines and columns

Editors name a place by its line and its column, both from zero, with columns counted in
characters; the library names it by a byte offset. Both directions are here, each one walk over
the text. They accept any argument. An offset inside a character stands for the place after that
character, one past the end for the end; a column past the end of a line stands for the place in
front of its line feed, a line past the last for the end of the text.
-/

namespace ThemeLens

/-- A place by line and column, both counted from zero. -/
structure Position where
  line : Nat
  column : Nat
  deriving DecidableEq, Repr

/-- Two positions, as an editor marks a stretch of text. -/
structure Range where
  start : Position
  stop : Position
  deriving DecidableEq, Repr

namespace Position

/-- The position after a character that starts at `p`. -/
def next (p : Position) (c : Char) : Position :=
  if c = '\n' then ⟨p.line + 1, 0⟩ else ⟨p.line, p.column + 1⟩

/-- The position after every character of `t` that starts within `distance` bytes, from `p` on. -/
def walk (p : Position) : Text → Nat → Position
  | [], _ => p
  | c :: t, distance => if distance = 0 then p else walk (p.next c) t (distance - c.utf8Size)

end Position

namespace Text

/-- The position of an offset. -/
def positionAt (t : Text) (offset : Nat) : Position := Position.walk ⟨0, 0⟩ t offset

/-- The bytes of the first `columns` characters of the line that `t` begins with, or of the whole
line without its line feed if it is shorter. -/
def columnSize : Text → Nat → Nat
  | [], _ => 0
  | _ :: _, 0 => 0
  | c :: t, columns + 1 => if c = '\n' then 0 else c.utf8Size + columnSize t columns

/-- The offset of the place `column` characters into the line that is `line` lines further on. -/
def offsetOf : Text → (line column : Nat) → Nat
  | [], _, _ => 0
  | c :: t, 0, column => columnSize (c :: t) column
  | c :: t, line + 1, column =>
    c.utf8Size + if c = '\n' then offsetOf t line column else offsetOf t (line + 1) column

/-- The offset of a position. -/
def offsetAt (t : Text) (p : Position) : Nat := offsetOf t p.line p.column

/-- A span as an editor sees it; what lies past the end of the text is left out. -/
def rangeOf (t : Text) (s : Span) : Range :=
  let s := s.clampTo t.size
  ⟨t.positionAt s.start, t.positionAt s.stop⟩

/-- The span of an editor's range, if its ends are in order. -/
def spanOf? (t : Text) (r : Range) : Option Span :=
  let start := t.offsetAt r.start
  let stop := t.offsetAt r.stop
  if start ≤ stop ∧ stop ≤ t.size then some ⟨start, stop⟩ else none

theorem columnSize_le_size (t : Text) (columns : Nat) : columnSize t columns ≤ t.size := by
  induction t generalizing columns with
  | nil => simp [columnSize]
  | cons c t ih =>
    cases columns with
    | zero => simp [columnSize]
    | succ n =>
      have := ih n
      unfold columnSize
      split <;> simp only [size_cons] <;> omega

theorem offsetOf_le_size (t : Text) (line column : Nat) : offsetOf t line column ≤ t.size := by
  induction t generalizing line with
  | nil => simp [offsetOf]
  | cons c t ih =>
    cases line with
    | zero => exact columnSize_le_size _ _
    | succ n =>
      have h₁ := ih n
      have h₂ := ih (n + 1)
      unfold offsetOf
      split <;> simp only [size_cons] <;> omega

/-- Every position names an offset inside the text. -/
theorem offsetAt_le_size (t : Text) (p : Position) : t.offsetAt p ≤ t.size :=
  offsetOf_le_size t p.line p.column

end Text

end ThemeLens
