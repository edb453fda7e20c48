/-!
# Classes of characters

Three classes decide where things end in a source. They differ on purpose. An identifier is
ASCII only, since a path is compared byte for byte with the keys of a theme. The gaps inside an
arrow head are the four characters a reader of the head skips. The blanks that are trimmed, in
front of an arrow and around the entries of a pattern, are Unicode's: a no-break space before
`=>` is still blank there.
-/

namespace ThemeLens

/-- The characters of an identifier: ASCII letters and digits, `_` and `$`. -/
def isIdent (c : Char) : Bool := c.isAlphanum || c == '_' || c == '$'

/-- The characters of a dotted run of identifiers. -/
def isRun (c : Char) : Bool := isIdent c || c == '.'

/-- The gap characters inside an arrow head: space, tab, carriage return and line feed. -/
def isGap (c : Char) : Bool := c == ' ' || c == '\t' || c == '\r' || c == '\n'

/-- The first and last code point of each range of Unicode's property `White_Space`. -/
def blankRanges : List (Nat × Nat) :=
  [(0x09, 0x0D), (0x20, 0x20), (0x85, 0x85), (0xA0, 0xA0), (0x1680, 0x1680), (0x2000, 0x200A),
   (0x2028, 0x2029), (0x202F, 0x202F), (0x205F, 0x205F), (0x3000, 0x3000)]

/-- Has the character Unicode's property `White_Space`? -/
def isBlank (c : Char) : Bool :=
  blankRanges.any fun range => decide (range.1 ≤ c.toNat) && decide (c.toNat ≤ range.2)

/-- Every gap character is blank, so trimming never stops inside a gap. -/
theorem isBlank_of_isGap {c : Char} (h : isGap c = true) : isBlank c = true := by
  simp only [isGap, Bool.or_eq_true, beq_iff_eq] at h
  rcases h with ((rfl | rfl) | rfl) | rfl <;> decide

/-- The code points of the identifier characters, all of them below 128: an identifier has as
many bytes as characters. -/
theorem isIdent_iff {c : Char} : isIdent c = true ↔
    (65 ≤ c.toNat ∧ c.toNat ≤ 90) ∨ (97 ≤ c.toNat ∧ c.toNat ≤ 122) ∨
      (48 ≤ c.toNat ∧ c.toNat ≤ 57) ∨ c = '_' ∨ c = '$' := by
  change (decide (65 ≤ c.val ∧ c.val ≤ 90) || (decide (97 ≤ c.val) && decide (c.val ≤ 122)) ||
    (decide (48 ≤ c.val) && decide (c.val ≤ 57)) || c == '_' || c == '$') = true ↔ _
  simp only [Bool.or_eq_true, Bool.and_eq_true, decide_eq_true_eq, beq_iff_eq,
    UInt32.le_iff_toNat_le]
  change ((((65 ≤ c.toNat ∧ c.toNat ≤ 90) ∨ (97 ≤ c.toNat ∧ c.toNat ≤ 122)) ∨
    (48 ≤ c.toNat ∧ c.toNat ≤ 57)) ∨ c = '_') ∨ c = '$' ↔ _
  simp only [or_assoc]

/-- No identifier character is blank, so trimming never eats into an identifier. -/
theorem isBlank_eq_false_of_isIdent {c : Char} (h : isIdent c = true) : isBlank c = false := by
  rcases isIdent_iff.mp h with h | h | h | rfl | rfl
  · simp only [isBlank, blankRanges, List.any_cons, List.any_nil, Bool.or_false,
      Bool.or_eq_false_iff, Bool.and_eq_false_iff, decide_eq_false_iff_not]
    omega
  · simp only [isBlank, blankRanges, List.any_cons, List.any_nil, Bool.or_false,
      Bool.or_eq_false_iff, Bool.and_eq_false_iff, decide_eq_false_iff_not]
    omega
  · simp only [isBlank, blankRanges, List.any_cons, List.any_nil, Bool.or_false,
      Bool.or_eq_false_iff, Bool.and_eq_false_iff, decide_eq_false_iff_not]
    omega
  · decide
  · decide

end ThemeLens
