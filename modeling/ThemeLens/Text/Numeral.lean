import ThemeLens.Text.Basic

/-!
# Numerals

Digits in a base up to sixteen, and the numbers they write. Which texts count as a numeral is
left to each format; what a run of digits is worth is the same everywhere.
-/

namespace ThemeLens.Numeral

/-- The value of a digit in a base. Letters count from ten on, in either case. -/
def digit? (base : Nat) (c : Char) : Option Nat :=
  let value :=
    if c.isDigit then c.toNat - '0'.toNat
    else if c.isLower then c.toNat - 'a'.toNat + 10
    else if c.isUpper then c.toNat - 'A'.toNat + 10
    else base
  if value < base then some value else none

def isDigit (base : Nat) (c : Char) : Bool := (digit? base c).isSome

/-- The number that digits write; a character that is no digit counts as zero. -/
def value (base : Nat) (digits : Text) : Nat :=
  digits.foldl (fun n c => base * n + (digit? base c).getD 0) 0

/-- The number that the first `count` characters write in hexadecimal, and what follows them. -/
def readHex? (count : Nat) (t : Text) : Option (Nat × Text) :=
  let digits := t.take count
  if digits.length = count ∧ digits.all (isDigit 16) then some (value 16 digits, t.drop count)
  else none

theorem length_of_readHex? {count n : Nat} {t rest : Text} (h : readHex? count t = some (n, rest)) :
    rest.length ≤ t.length := by
  simp only [readHex?] at h
  split at h
  · simp only [Option.some.injEq, Prod.mk.injEq] at h
    rw [← h.2, List.length_drop]
    omega
  · simp at h

end ThemeLens.Numeral
