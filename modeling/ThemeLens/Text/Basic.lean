import ThemeLens.Span
import ThemeLens.Text.Class

/-!
# Source text and places in it

A text is a list of characters, and its length is counted in bytes of the UTF-8 form, because
bytes are what an editor and every `Span` count in. Each question of the library is asked at a
place in a text, so a place is a type of its own, `Cursor`: what stands before it, nearest
character first, and what comes after. Looking back and looking ahead are then two recursions
on lists, and a byte offset is a fact about the first half rather than an index that might
point into the middle of a character.

`seek` is the one way from an offset to a place. It goes to the last place at or before the
offset, so an offset inside a character means the place in front of it, and an offset past the
end means the end (`offset_seek_le`, `text_seek`).
-/

namespace ThemeLens

/-- A text, character by character. -/
abbrev Text := List Char

namespace Text

/-- The number of bytes of the UTF-8 form. -/
def size : Text → Nat
  | [] => 0
  | c :: t => c.utf8Size + size t

@[simp] theorem size_nil : size [] = 0 := rfl

@[simp] theorem size_cons (c : Char) (t : Text) : size (c :: t) = c.utf8Size + size t := rfl

theorem size_dot : size ['.'] = 1 := by decide

@[simp] theorem size_append (s t : Text) : size (s ++ t) = size s + size t := by
  induction s with
  | nil => simp
  | cons c s ih => simp only [List.cons_append, size_cons, ih]; omega

@[simp] theorem size_reverse (t : Text) : size t.reverse = size t := by
  induction t with
  | nil => rfl
  | cons c t ih => simp only [List.reverse_cons, size_append, size_cons, size_nil, ih]; omega

/-- A character has at least one byte, so a text has no fewer bytes than characters. -/
theorem length_le_size (t : Text) : t.length ≤ size t := by
  induction t with
  | nil => simp
  | cons c t ih => have := c.utf8Size_pos; simp only [List.length_cons, size_cons]; omega

/-! ## Taking texts apart -/

/-- What follows `lead`, if the text begins with it. -/
def strip? : Text → Text → Option Text
  | [], t => some t
  | _ :: _, [] => none
  | c :: lead, d :: t => if c = d then strip? lead t else none

theorem strip?_eq_some_iff {lead t rest : Text} : strip? lead t = some rest ↔ t = lead ++ rest := by
  induction lead generalizing t with
  | nil => simp [strip?]
  | cons c lead ih =>
    cases t with
    | nil => simp [strip?]
    | cons d t =>
      by_cases h : c = d
      · simp [strip?, h, ih]
      · simp [strip?, h, Ne.symm h]

/-- The text up to the first `mark`, and what follows that mark if there is one. -/
def cut (mark : Char) (t : Text) : Text × Option Text :=
  (t.takeWhile (· != mark), (t.dropWhile (· != mark)).tail?)

def trimStart (t : Text) : Text := t.dropWhile isBlank

def trimEnd (t : Text) : Text := (t.reverse.dropWhile isBlank).reverse

/-- The text without the blanks around it. -/
def trim (t : Text) : Text := trimEnd (trimStart t)

/-- Does `part` occur somewhere in the text? -/
def hasPart (part : Text) : Text → Bool
  | [] => part.isEmpty
  | c :: t => (strip? part (c :: t)).isSome || hasPart part t

theorem hasPart_iff {part t : Text} : hasPart part t = true ↔ part <:+: t := by
  induction t with
  | nil => simp [hasPart]
  | cons c t ih =>
    rw [hasPart, Bool.or_eq_true, ih, List.infix_cons_iff, Option.isSome_iff_exists]
    simp only [strip?_eq_some_iff]
    exact or_congr_left (exists_congr fun rest => eq_comm)

end Text

/-- A place in a text: the characters before it, nearest first, and those after it. -/
structure Cursor where
  before : Text
  after : Text
  deriving DecidableEq, Repr

namespace Cursor

/-- The text the place is in. -/
def text (k : Cursor) : Text := k.before.reverse ++ k.after

/-- The number of bytes before the place. -/
def offset (k : Cursor) : Nat := k.before.size

/-- The start of the line the place is in, as an offset. -/
def lineStart (k : Cursor) : Nat := Text.size (k.before.dropWhile (· != '\n'))

end Cursor

namespace Text

/-- Walks `distance` bytes on, without entering a character it cannot cross whole. -/
def walk (before : Text) : Text → Nat → Cursor
  | [], _ => ⟨before, []⟩
  | c :: t, distance =>
    if c.utf8Size ≤ distance then walk (c :: before) t (distance - c.utf8Size)
    else ⟨before, c :: t⟩

/-- The last place at or before an offset. -/
def seek (t : Text) (offset : Nat) : Cursor := walk [] t offset

theorem text_walk (before t : Text) (distance : Nat) :
    (walk before t distance).text = before.reverse ++ t := by
  induction t generalizing before distance with
  | nil => simp [walk, Cursor.text]
  | cons c t ih =>
    unfold walk
    split
    · rw [ih]; simp
    · rfl

/-- Going to a place changes nothing about the text. -/
theorem text_seek (t : Text) (offset : Nat) : (seek t offset).text = t := by
  simpa [seek] using text_walk [] t offset

theorem offset_walk_le (before t : Text) (distance : Nat) :
    (walk before t distance).offset ≤ before.size + distance := by
  induction t generalizing before distance with
  | nil => simp [walk, Cursor.offset]
  | cons c t ih =>
    unfold walk
    split
    · have := ih (c :: before) (distance - c.utf8Size)
      simp only [size_cons] at this
      omega
    · simp only [Cursor.offset]; omega

theorem offset_seek_le (t : Text) (offset : Nat) : (seek t offset).offset ≤ offset := by
  simpa [seek] using offset_walk_le [] t offset

/-- The place with exactly this offset, if the offset is one of a place. -/
def place? (t : Text) (offset : Nat) : Option Cursor :=
  let k := t.seek offset
  if k.offset = offset then some k else none

/-- The characters of a span, if it is ordered and both its ends are places of the text. -/
def slice? (t : Text) (s : Span) : Option Text :=
  if s.start ≤ s.stop then
    (t.place? s.start).bind fun k => (Text.place? k.after s.length).map (·.before.reverse)
  else none

end Text

end ThemeLens
