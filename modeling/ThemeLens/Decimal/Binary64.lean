/-!
# Finite doubles, exactly

Theme numbers that are not integers are doubles. Nothing is computed with them; they are read
from decimal text and written back, so a double is its sign and the exact dyadic number
`mantissa · 2 ^ exponent`, and reading rounds a fraction of naturals once, to nearest, ties to
the even mantissa. The form is canonical: the mantissa has 53 bits, or fewer if the exponent is
already the least one.
-/

namespace ThemeLens

/-- A finite double: the number `mantissa · 2 ^ exponent`, negated if `negative` is set. -/
structure Binary64 where
  negative : Bool
  mantissa : Nat
  exponent : Int
  deriving DecidableEq, Repr

namespace Binary64

/-- The least exponent, at which doubles lose precision toward zero. -/
def leastExponent : Int := -1074

/-- The exponent of the greatest doubles. -/
def greatestExponent : Int := 971

/-- The least mantissa of full precision. -/
def fullMantissa : Nat := Nat.pow 2 52

def zero (negative : Bool) : Binary64 := ⟨negative, 0, leastExponent⟩

/-- A power as numerator and denominator, one of them being 1. -/
def power (base : Nat) (exponent : Int) : Nat × Nat :=
  if 0 ≤ exponent then (Nat.pow base exponent.toNat, 1)
  else (1, Nat.pow base (-exponent).toNat)

/-- The quotient rounded to the nearest natural number, a half to the even one. -/
def roundDiv (num den : Nat) : Nat :=
  let q := num / den
  let r := num % den
  if den < 2 * r ∨ (2 * r = den ∧ q % 2 = 1) then q + 1 else q

/-- `num / den / 2 ^ exponent` as a fraction. -/
def scaled (num den : Nat) (exponent : Int) : Nat × Nat :=
  let (up, down) := power 2 exponent
  (num * down, den * up)

/-- The double nearest to a positive fraction, or nothing if the fraction is too great. -/
def ofRatio? (negative : Bool) (num den : Nat) : Option Binary64 :=
  let guess : Int := (num.log2 : Int) - (den.log2 : Int) - 52
  let (n, d) := scaled num den guess
  let exponent := max leastExponent (if n / d < fullMantissa then guess - 1 else guess)
  let (n, d) := scaled num den exponent
  let mantissa := roundDiv n d
  let (mantissa, exponent) :=
    if mantissa = 2 * fullMantissa then (fullMantissa, exponent + 1) else (mantissa, exponent)
  if greatestExponent < exponent then none else some ⟨negative, mantissa, exponent⟩

/-- The number of decimal digits of a positive number. -/
def digitCount (n : Nat) : Nat := (Nat.toDigits 10 n).length

/-- The double nearest to `digits · 10 ^ exponent`. A number too great for any double is nothing;
one too small is zero. Both are decided from the decimal magnitude before any power is formed, so
an exponent of many digits costs nothing. -/
def ofDecimal? (negative : Bool) (digits : Nat) (exponent : Int) : Option Binary64 :=
  let magnitude : Int := digitCount digits + exponent
  if digits = 0 ∨ magnitude < -330 then some (zero negative)
  else if 310 < magnitude then none
  else
    let (up, down) := power 10 exponent
    ofRatio? negative (digits * up) down

end Binary64

end ThemeLens
