import ThemeLens.Decimal.Binary64

/-!
# The fewest digits that read back

A double stands for every number that rounds to it: an interval around its exact value, up to
halfway to the neighbours, with the ends included exactly if the mantissa is even. Its text is
the decimal of fewest digits in that interval, and the nearest of those to the exact value. Where
two are equally near, a `Tie` says which of them it is.

The search goes through the grids of 1, 2, … 17 digits. On each, only the two neighbours of the
exact value can be the nearest hit, so these are tested, by cross multiplication of naturals.
-/

namespace ThemeLens.Binary64

/-- The number `significand · 10 ^ exponent`, in lowest form: the significand does not end in a
zero unless it is zero. -/
structure Decimal where
  significand : Nat
  exponent : Int
  deriving DecidableEq, Repr

/-- Is `a / b < c / d`? -/
def ratioLt (x y : Nat × Nat) : Bool := x.1 * y.2 < y.1 * x.2

/-- `n · base ^ exponent` as a fraction. -/
def atPower (n base : Nat) (exponent : Int) : Nat × Nat :=
  let (up, down) := power base exponent
  (n * up, down)

/-- Does the decimal `d · 10 ^ k` round to the double of this mantissa and exponent? The interval
is narrower below a power of two, where the neighbour has half the spacing. -/
def readsBack (mantissa : Nat) (exponent : Int) (d : Nat) (k : Int) : Bool :=
  let below := if mantissa = fullMantissa ∧ leastExponent < exponent then 1 else 2
  let low := atPower (4 * mantissa - below) 2 (exponent - 2)
  let high := atPower (4 * mantissa + 2) 2 (exponent - 2)
  let x := atPower d 10 k
  if mantissa % 2 = 0 then !ratioLt x low && !ratioLt high x else ratioLt low x && ratioLt x high

/-- The least power of ten above a positive fraction. -/
def decimalScale (num den : Nat) : Int :=
  if den ≤ num then digitCount (num / den)
  else
    let zeros := digitCount (den / num)
    if num * Nat.pow 10 (zeros - 1) = den then 2 - zeros else 1 - zeros

/-- Drops up to `bound` zeros from the end of a significand. -/
def dropZeros : (bound : Nat) → Decimal → Decimal
  | 0, x => x
  | bound + 1, x =>
    if x.significand ≠ 0 ∧ x.significand % 10 = 0 then
      dropZeros bound ⟨x.significand / 10, x.exponent + 1⟩
    else x

/-- Which of two equally near neighbours on a grid is taken. -/
inductive Tie
  /-- The one whose last digit is even. -/
  | toEven
  /-- The greater one; the lesser one of negative numbers. -/
  | away
  deriving DecidableEq, Repr

/-- Is the lower of two equally near neighbours taken, given its significand? -/
def Tie.goesDown (tie : Tie) (significand : Nat) : Bool :=
  match tie with
  | toEven => significand % 2 == 0
  | away => false

/-- The nearest decimal on the grid `10 ^ k` that reads back, if there is one. -/
def onGrid? (tie : Tie) (mantissa : Nat) (exponent : Int) (k : Int) : Option Decimal :=
  let (num, den) := atPower mantissa 2 exponent
  let (up, down) := power 10 k
  let d := num * down / (den * up)
  let lower := readsBack mantissa exponent d k
  let upper := readsBack mantissa exponent (d + 1) k
  let rest := num * down % (den * up)
  if lower && (!upper || decide (2 * rest < den * up)
      || (decide (2 * rest = den * up) && tie.goesDown d))
  then some ⟨d, k⟩
  else if upper then some ⟨d + 1, k⟩
  else none

/-- The exact decimal of a double. -/
def exact (mantissa : Nat) (exponent : Int) : Decimal :=
  if 0 ≤ exponent then ⟨mantissa * Nat.pow 2 exponent.toNat, 0⟩
  else ⟨mantissa * Nat.pow 5 (-exponent).toNat, exponent⟩

/-- The decimal of fewest digits that reads back to the magnitude of a double. -/
def shortest (tie : Tie) (x : Binary64) : Decimal :=
  if x.mantissa = 0 then ⟨0, 0⟩
  else
    let (num, den) := atPower x.mantissa 2 x.exponent
    let scale := decimalScale num den
    let found? := (List.range 17).findSome? fun n : Nat =>
      onGrid? tie x.mantissa x.exponent (scale - (n + 1 : Nat))
    let found := found?.getD (exact x.mantissa x.exponent)
    dropZeros (digitCount found.significand) found

end ThemeLens.Binary64
