/-!
# Stretches of a text

Every answer of the library that points into a source does so in bytes of its UTF-8 form. A
`Span` is a half-open stretch of such bytes. It carries no proof that it is ordered or that it
lies inside a text: a caller may ask about any window, also one that is inverted or runs past
the end, and `clampTo` is how the queries bring such a window back.
-/

namespace ThemeLens

/-- The bytes from `start` up to, and not including, `stop`. -/
structure Span where
  start : Nat
  stop : Nat
  deriving DecidableEq, Repr

namespace Span

/-- The number of bytes covered; an inverted span covers none. -/
def length (s : Span) : Nat := s.stop - s.start

def isEmpty (s : Span) : Bool := decide (s.stop ≤ s.start)

def contains (s : Span) (offset : Nat) : Bool :=
  decide (s.start ≤ offset) && decide (offset < s.stop)

/-- Like `contains`, and true also right after the last byte, where a cursor still belongs to
the word before it. -/
def touches (s : Span) (offset : Nat) : Bool :=
  decide (s.start ≤ offset) && decide (offset ≤ s.stop)

/-- Both ends brought down to `size`. -/
def clampTo (s : Span) (size : Nat) : Span := ⟨min s.start size, min s.stop size⟩

theorem touches_iff {s : Span} {offset : Nat} :
    s.touches offset = true ↔ s.start ≤ offset ∧ offset ≤ s.stop := by
  simp [touches]

theorem contains_iff {s : Span} {offset : Nat} :
    s.contains offset = true ↔ s.start ≤ offset ∧ offset < s.stop := by
  simp [contains]

/-- A span covers no byte exactly when no offset is in it. -/
theorem isEmpty_iff {s : Span} : s.isEmpty = true ↔ ∀ offset, s.contains offset = false := by
  constructor
  · intro h offset
    simp only [isEmpty, decide_eq_true_eq] at h
    cases hc : s.contains offset with
    | false => rfl
    | true => have := contains_iff.mp hc; omega
  · intro h
    have hs := h s.start
    simp only [contains, Nat.le_refl, decide_true, Bool.true_and, decide_eq_false_iff_not] at hs
    simp only [isEmpty, decide_eq_true_eq]
    omega

end Span

end ThemeLens
