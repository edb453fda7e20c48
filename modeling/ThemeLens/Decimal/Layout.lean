import ThemeLens.Decimal.Shortest

/-!
# Writing a double

The digits of a double are chosen in `Decimal/Shortest`; how they are laid out is the business of
the format that shows them. The formats of this library differ in where positional writing ends
and in which of two equally near digits comes last, so a `Layout` is these two decisions. Common to
all: a number always has a point or an exponent, an exponent always has its sign and no padding,
and zero keeps its sign.
-/

namespace ThemeLens.Binary64

/-- How a format lays out the digits of a double. -/
structure Layout where
  /-- Is a number written positionally, given the decimal exponent of its first digit? -/
  positional : Int → Bool
  /-- Which of two equally near decimals is written? -/
  tie : Tie

namespace Layout

/-- Never an exponent, and a tie goes away from zero. -/
def plain : Layout := ⟨fun _ => true, .away⟩

/-- An exponent for numbers of 10 ^ 16 and more and for those below 10 ^ -5, and a tie goes to the
even digit. -/
def scientific : Layout :=
  ⟨fun exponent => decide (-5 ≤ exponent) && decide (exponent ≤ 15), .toEven⟩

end Layout

/-- A number with its point, `exponent` being that of the first digit. -/
def positionalText (digits : List Char) (exponent : Int) : List Char :=
  if exponent < 0 then
    '0' :: '.' :: List.replicate (-exponent - 1).toNat '0' ++ digits
  else
    let whole := exponent.toNat + 1
    let fraction := digits.drop whole
    digits.take whole ++ List.replicate (whole - digits.length) '0'
      ++ '.' :: (if fraction.isEmpty then ['0'] else fraction)

/-- A number with an exponent: the first digit, the others behind a point, and the exponent. -/
def scientificText (digits : List Char) (exponent : Int) : List Char :=
  let fraction := digits.drop 1
  digits.take 1 ++ (if fraction.isEmpty then [] else '.' :: fraction)
    ++ 'e' :: (if exponent < 0 then '-' else '+') :: Nat.toDigits 10 exponent.natAbs

/-- The text of a double. -/
def text (layout : Layout) (x : Binary64) : List Char :=
  let decimal := x.shortest layout.tie
  let digits := Nat.toDigits 10 decimal.significand
  let exponent : Int := decimal.exponent + digits.length - 1
  (if x.negative then ['-'] else [])
    ++ if layout.positional exponent then positionalText digits exponent
       else scientificText digits exponent

end ThemeLens.Binary64
