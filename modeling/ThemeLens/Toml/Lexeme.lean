import ThemeLens.Text.Numeral
import ThemeLens.Toml.Basic

/-!
# The words of TOML

Strings, numbers, dates and blanks: what can be read without knowing where in a document it
stands. Each reader takes one word off the front of a text and gives the rest, or nothing if no
such word is there; where the front of a text decides what the word must be, a word that then goes
wrong is no word of another kind either.
-/

namespace ThemeLens.Toml

/-! ## Blanks and ends of lines -/

def isSpace (c : Char) : Bool := c == ' ' || c == '\t'

/-- The characters that strings and comments may hold as they are: all but the controls, of which
only the tab is one of them. -/
def isPlain (c : Char) : Bool := c == '\t' || (decide (0x20 ≤ c.toNat) && c != '\x7f')

/-- The text after the line end it begins with. -/
def newline? : Text → Option Text
  | '\n' :: t => some t
  | '\r' :: '\n' :: t => some t
  | _ => none

/-- The text after blanks, comments and line ends, a comment being open at first if `inComment`
is set. -/
def skipLines (inComment : Bool) : Text → Text
  | [] => []
  | '\r' :: '\n' :: t => skipLines false t
  | c :: t =>
    if c == '\n' then skipLines false t
    else if inComment then if isPlain c then skipLines true t else c :: t
    else if isSpace c then skipLines false t
    else if c == '#' then skipLines true t
    else c :: t

/-- The text after the end of a line: blanks, perhaps a comment, and a line end or the end of the
text. -/
def endOfLine? (t : Text) : Option Text :=
  let t := t.dropWhile isSpace
  let t := if t.head? == some '#' then t.dropWhile isPlain else t
  if t.isEmpty then some [] else newline? t

/-! ## Strings -/

/-- The character that an escape of one letter stands for. -/
def simpleEscape? (c : Char) : Option Char :=
  if c = '"' ∨ c = '\\' then some c
  else if c = 'b' then some '\x08'
  else if c = 'f' then some '\x0c'
  else if c = 'n' then some '\n'
  else if c = 'r' then some '\r'
  else if c = 't' then some '\t'
  else none

/-- Reads the number of a character in so many hexadecimal digits. -/
def readScalar? (digits : Nat) (t : Text) : Option (Char × Text) :=
  (Numeral.readHex? digits t).bind fun (n, rest) =>
    if n < 0xD800 ∨ (0xDFFF < n ∧ n < 0x110000) then some (Char.ofNat n, rest) else none

/-- Reads what follows a backslash. -/
def readEscape? : Text → Option (Char × Text)
  | [] => none
  | c :: t =>
    if c = 'u' then readScalar? 4 t
    else if c = 'U' then readScalar? 8 t
    else (simpleEscape? c).map fun d => (d, t)

theorem length_of_readScalar? {digits : Nat} {t rest : Text} {c : Char}
    (h : readScalar? digits t = some (c, rest)) : rest.length ≤ t.length := by
  simp only [readScalar?, Option.bind_eq_some_iff, Prod.exists] at h
  obtain ⟨n, rest', hr, h⟩ := h
  split at h
  · simp only [Option.some.injEq, Prod.mk.injEq] at h
    rw [← h.2]; exact Numeral.length_of_readHex? hr
  · simp at h

theorem length_of_readEscape? {t rest : Text} {c : Char} (h : readEscape? t = some (c, rest)) :
    rest.length ≤ t.length := by
  cases t with
  | nil => simp [readEscape?] at h
  | cons d t =>
    simp only [readEscape?] at h
    split at h
    · have := length_of_readScalar? h
      simp only [List.length_cons]; omega
    · split at h
      · have := length_of_readScalar? h
        simp only [List.length_cons]; omega
      · simp only [Option.map_eq_some_iff, Prod.mk.injEq] at h
        obtain ⟨_, _, _, rfl⟩ := h
        simp

/-- Reads a string in double quotes, after the first of them. -/
def readBasic? : Text → Option (Text × Text)
  | [] => none
  | c :: t =>
    if c = '"' then some ([], t)
    else if c = '\\' then
      match _h : readEscape? t with
      | none => none
      | some (d, rest) => (readBasic? rest).map fun (s, rest) => (d :: s, rest)
    else if isPlain c then (readBasic? t).map fun (s, rest) => (c :: s, rest)
    else none
termination_by t => t.length
decreasing_by
  · have := length_of_readEscape? ‹_›
    simp only [List.length_cons]; omega
  · simp

/-- Reads a string in single quotes, after the first of them. Nothing is escaped in it. -/
def readLiteral? : Text → Option (Text × Text)
  | [] => none
  | c :: t =>
    if c = '\'' then some ([], t)
    else if isPlain c then (readLiteral? t).map fun (s, rest) => (c :: s, rest)
    else none

/-- How a run of quotes inside a string of several lines is taken: fewer than three belong to the
string, three end it, and of up to two more the first ones belong to it. The answer is how many
belong to it, how many are consumed, and whether it ends. -/
def quoteRun (count : Nat) : Nat × Nat × Bool :=
  if count < 3 then (count, count, false) else (min (count - 3) 2, min count 5, true)

/-- The text behind a backslash that ends a line: the blanks around the line end and those of the
lines after it are dropped. -/
def joinLines? (t : Text) : Option Text :=
  (newline? (t.dropWhile isSpace)).map skipBlankLines
where
  skipBlankLines : Text → Text
    | [] => []
    | '\r' :: '\n' :: t => skipBlankLines t
    | c :: t => if isSpace c || c == '\n' then skipBlankLines t else c :: t

/-- Reads a string of several lines, after the quotes that open it. `steps` bounds the number of
characters read. -/
def readLines? (quote : Char) (escapes : Bool) : (steps : Nat) → Text → Option (Text × Text)
  | 0, _ => none
  | steps + 1, t =>
    match t with
    | [] => none
    | c :: rest =>
      if c = quote then
        let (kept, consumed, ends) := quoteRun (t.takeWhile (· == quote)).length
        let after := t.drop consumed
        let quotes := List.replicate kept quote
        if ends then some (quotes, after)
        else (readLines? quote escapes steps after).map fun (s, rest) => (quotes ++ s, rest)
      else if escapes ∧ c = '\\' then
        match joinLines? rest with
        | some rest => readLines? quote escapes steps rest
        | none =>
          (readEscape? rest).bind fun (d, rest) =>
            (readLines? quote escapes steps rest).map fun (s, rest) => (d :: s, rest)
      else if isPlain c then
        (readLines? quote escapes steps rest).map fun (s, rest) => (c :: s, rest)
      else
        (newline? t).bind fun rest =>
          (readLines? quote escapes steps rest).map fun (s, rest) => ('\n' :: s, rest)

/-- Reads a string of any of the four kinds. A line end right behind the quotes that open a string
of several lines is dropped. -/
def readString? (t : Text) : Option (Text × Text) :=
  match t with
  | '"' :: '"' :: '"' :: rest => readLines? '"' true t.length ((newline? rest).getD rest)
  | '\'' :: '\'' :: '\'' :: rest => readLines? '\'' false t.length ((newline? rest).getD rest)
  | '"' :: rest => readBasic? rest
  | '\'' :: rest => readLiteral? rest
  | _ => none

/-! ## Numbers -/

/-- Reads digits of a base with single underscores between them: the digits alone, and the
rest. -/
def readDigits? (base : Nat) : Text → Option (Text × Text)
  | [] => none
  | c :: t =>
    if Numeral.isDigit base c then
      match t with
      | '_' :: t => (readDigits? base t).map fun (ds, rest) => (c :: ds, rest)
      | d :: t =>
        if Numeral.isDigit base d then
          (readDigits? base (d :: t)).map fun (ds, rest) => (c :: ds, rest)
        else some ([c], d :: t)
      | [] => some ([c], [])
    else none

/-- Reads the whole part of a decimal number; a leading zero stands alone. -/
def readWhole? : Text → Option (Text × Text)
  | '0' :: t => some (['0'], t)
  | t => readDigits? 10 t

/-- Takes a sign off the front: is it a minus? -/
def takeSign (t : Text) : Bool × Text :=
  match t with
  | '-' :: rest => (true, rest)
  | '+' :: rest => (false, rest)
  | _ => (false, t)

/-- An integer, if 64 bits hold it. -/
def integer? (negative : Bool) (magnitude : Nat) : Option Toml :=
  let n : Int := if negative then -magnitude else magnitude
  if -Int.pow 2 63 ≤ n ∧ n < Int.pow 2 63 then some (.integer n) else none

/-- The double of a decimal number. One that is too great is no number, while one that is too
small on the negative side is the infinite one. -/
def float? (negative : Bool) (digits : Text) (exponent : Int) : Option Toml :=
  match Binary64.ofDecimal? negative (Numeral.value 10 digits) exponent with
  | some x => some (.float (.finite x))
  | none => if negative then some (.float (.infinite true)) else none

/-- Reads an exponent after its mark. -/
def readExponent? (t : Text) : Option (Int × Text) :=
  let (negative, t) := takeSign t
  (readDigits? 10 t).map fun (digits, rest) =>
    let n : Int := Numeral.value 10 digits
    (if negative then -n else n, rest)

/-- Reads what follows the whole part of a decimal number. -/
def readDecimal? (negative : Bool) (whole : Text) (t : Text) : Option (Toml × Text) :=
  match t with
  | '.' :: t =>
    (readDigits? 10 t).bind fun (fraction, t) =>
      let digits := whole ++ fraction
      match t with
      | c :: rest =>
        if c = 'e' ∨ c = 'E' then
          (readExponent? rest).bind fun (exponent, rest) =>
            (float? negative digits (exponent - fraction.length)).map fun x => (x, rest)
        else (float? negative digits (-fraction.length)).map fun x => (x, t)
      | [] => (float? negative digits (-fraction.length)).map fun x => (x, [])
  | c :: rest =>
    if c = 'e' ∨ c = 'E' then
      (readExponent? rest).bind fun (exponent, rest) =>
        (float? negative whole exponent).map fun x => (x, rest)
    else (integer? negative (Numeral.value 10 whole)).map fun n => (n, t)
  | [] => (integer? negative (Numeral.value 10 whole)).map fun n => (n, [])

/-- Reads an integer in a base of its own, after the mark of the base. -/
def readBased? (base : Nat) (t : Text) : Option (Toml × Text) :=
  (readDigits? base t).bind fun (digits, rest) =>
    (integer? false (Numeral.value base digits)).map fun n => (n, rest)

/-- Reads one of the two names that are numbers. -/
def readNamedFloat? (negative : Bool) (t : Text) : Option (Toml × Text) :=
  ((Text.strip? "inf".toList t).map fun rest => (.float (.infinite negative), rest)) <|>
  ((Text.strip? "nan".toList t).map fun rest => (.float .nan, rest))

/-- Reads a number. -/
def readNumber? (t : Text) : Option (Toml × Text) :=
  match t with
  | '0' :: 'x' :: rest => readBased? 16 rest
  | '0' :: 'o' :: rest => readBased? 8 rest
  | '0' :: 'b' :: rest => readBased? 2 rest
  | _ =>
    let (negative, rest) := takeSign t
    (readNamedFloat? negative rest) <|>
    (readWhole? rest).bind fun (whole, rest) => readDecimal? negative whole rest

/-! ## Dates and times -/

/-- Reads a number of exactly so many digits that lies between two bounds. -/
def readField? (width low high : Nat) (t : Text) : Option (Nat × Text) :=
  let digits := t.take width
  let n := Numeral.value 10 digits
  if digits.length = width ∧ digits.all Char.isDigit ∧ low ≤ n ∧ n ≤ high then
    some (n, t.drop width)
  else none

def daysOfMonth (year month : Nat) : Nat :=
  if month = 2 then
    if year % 4 = 0 ∧ (year % 100 ≠ 0 ∨ year % 400 = 0) then 29 else 28
  else if month = 4 ∨ month = 6 ∨ month = 9 ∨ month = 11 then 30
  else 31

/-- Reads a month and a day behind a year and its dash. -/
def readMonthAndDay? (year : Nat) (t : Text) : Option Text :=
  (readField? 2 1 12 t).bind fun (month, t) =>
    (Text.strip? ['-'] t).bind fun t =>
      (readField? 2 1 (daysOfMonth year month) t).map Prod.snd

/-- Reads minutes, seconds and a fraction behind an hour and its colon. -/
def readRestOfTime? (t : Text) : Option Text :=
  (readField? 2 0 59 t).bind fun (_, t) =>
    (Text.strip? [':'] t).bind fun t =>
      (readField? 2 0 60 t).bind fun (_, t) =>
        match t with
        | '.' :: rest =>
          if (rest.takeWhile Char.isDigit).isEmpty then some t
          else some (rest.dropWhile Char.isDigit)
        | _ => some t

/-- Reads the offset from universal time, if there is one. -/
def readZone? (t : Text) : Option Text :=
  match t with
  | [] => some []
  | c :: rest =>
    if c = 'Z' ∨ c = 'z' then some rest
    else if c = '+' ∨ c = '-' then
      (readField? 2 0 23 rest).bind fun (_, rest) =>
        (Text.strip? [':'] rest).bind fun rest => (readField? 2 0 59 rest).map Prod.snd
    else some t

/-- The text after an hour and its colon, if one starts here. -/
def hour? (t : Text) : Option Text :=
  (readField? 2 0 23 t).bind fun (_, rest) => Text.strip? [':'] rest

/-- The year and the text after it and its dash, if one starts here. -/
def year? (t : Text) : Option (Nat × Text) :=
  (readField? 4 0 9999 t).bind fun (year, rest) =>
    (Text.strip? ['-'] rest).map fun rest => (year, rest)

/-- Reads the time and zone that may follow a date. -/
def readTimeOfDate? (t : Text) : Option Text :=
  match t with
  | c :: rest =>
    if c = 'T' ∨ c = 't' ∨ c = ' ' then
      match hour? rest with
      | some rest => (readRestOfTime? rest).bind readZone?
      | none => some t
    else some t
  | [] => some []

/-- Reads a number, a date or a time. -/
def readNumberOrMoment? (t : Text) : Option (Toml × Text) :=
  match year? t with
  | some (year, rest) =>
    ((readMonthAndDay? year rest).bind readTimeOfDate?).map fun rest => (.moment, rest)
  | none =>
    match hour? t with
    | some rest => (readRestOfTime? rest).map fun rest => (.moment, rest)
    | none => readNumber? t

end ThemeLens.Toml
