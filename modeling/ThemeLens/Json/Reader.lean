import ThemeLens.Json.Basic
import ThemeLens.Text.Numeral

/-!
# Reading JSON

The reader takes exactly the JSON grammar: no comments, no trailing commas, no control characters
inside strings, every surrogate in a pair. Of a field that comes twice the last value counts, in
the place of the first. A number too great for a double is refused, one too small is zero.

Containers may nest only so deep; the bound is an argument, `room`. The recursion also carries a
bound on its own steps, which `read?` takes from the length of the text: every second step
consumes a character.
-/

namespace ThemeLens.Json

/-! ## Strings -/

/-- The character that an escape of one letter stands for. -/
def simpleEscape? (c : Char) : Option Char :=
  if c = '"' ∨ c = '\\' ∨ c = '/' then some c
  else if c = 'b' then some '\x08'
  else if c = 'f' then some '\x0c'
  else if c = 'n' then some '\n'
  else if c = 'r' then some '\r'
  else if c = 't' then some '\t'
  else none

/-- Reads what follows `\u`: four hexadecimal digits, and the second half of a surrogate pair if
they are a first half. -/
def readUnit? (t : Text) : Option (Char × Text) :=
  (Numeral.readHex? 4 t).bind fun (first, rest) =>
    if first < 0xD800 ∨ 0xDFFF < first then some (Char.ofNat first, rest)
    else if 0xDBFF < first then none
    else
      (Text.strip? ['\\', 'u'] rest).bind fun rest =>
        (Numeral.readHex? 4 rest).bind fun (second, rest) =>
          if 0xDC00 ≤ second ∧ second ≤ 0xDFFF then
            some (Char.ofNat (0x10000 + (first - 0xD800) * 0x400 + (second - 0xDC00)), rest)
          else none

/-- Reads what follows a backslash. -/
def readEscape? : Text → Option (Char × Text)
  | [] => none
  | c :: t => if c = 'u' then readUnit? t else (simpleEscape? c).map fun d => (d, t)

theorem length_of_readUnit? {t rest : Text} {c : Char} (h : readUnit? t = some (c, rest)) :
    rest.length ≤ t.length := by
  simp only [readUnit?, Option.bind_eq_some_iff, Prod.exists] at h
  obtain ⟨first, rest₁, h₁, h⟩ := h
  have hlen₁ := Numeral.length_of_readHex? h₁
  split at h
  · simp only [Option.some.injEq, Prod.mk.injEq] at h
    rw [← h.2]; exact hlen₁
  · split at h
    · simp at h
    · simp only [Option.bind_eq_some_iff, Prod.exists] at h
      obtain ⟨rest₂, h₂, second, rest₃, h₃, h⟩ := h
      have hlen₂ := congrArg List.length (Text.strip?_eq_some_iff.mp h₂)
      have hlen₃ := Numeral.length_of_readHex? h₃
      simp only [List.length_append] at hlen₂
      split at h
      · simp only [Option.some.injEq, Prod.mk.injEq] at h
        rw [← h.2]; omega
      · simp at h

theorem length_of_readEscape? {t rest : Text} {c : Char} (h : readEscape? t = some (c, rest)) :
    rest.length ≤ t.length := by
  cases t with
  | nil => simp [readEscape?] at h
  | cons d t =>
    simp only [readEscape?] at h
    split at h
    · have := length_of_readUnit? h
      simp only [List.length_cons]; omega
    · simp only [Option.map_eq_some_iff, Prod.mk.injEq] at h
      obtain ⟨_, _, _, rfl⟩ := h
      simp

/-- Reads a string after its opening quote: the characters it stands for, and what follows the
closing quote. -/
def readString? : Text → Option (Text × Text)
  | [] => none
  | c :: t =>
    if c = '"' then some ([], t)
    else if c = '\\' then
      match _h : readEscape? t with
      | none => none
      | some (d, rest) => (readString? rest).map fun (s, rest) => (d :: s, rest)
    else if c.toNat < 0x20 then none
    else (readString? t).map fun (s, rest) => (c :: s, rest)
termination_by t => t.length
decreasing_by
  · have := length_of_readEscape? ‹_›
    simp only [List.length_cons]; omega
  · simp

/-! ## Numbers -/

/-- The number with these parts: sign, digits before and after the point, and the exponent. -/
def makeNumber? (negative : Bool) (whole : Text) (fraction? : Option Text)
    (exponent? : Option Int) : Option Num :=
  let n := Numeral.value 10 whole
  let signed : Int := if negative then -n else n
  let isInt := fraction?.isNone && exponent?.isNone && !(negative && n == 0)
  if isInt && decide (-Int.pow 2 63 ≤ signed) && decide (signed < Int.pow 2 64) then some (.int signed)
  else
    let fraction := fraction?.getD []
    (Binary64.ofDecimal? negative (Numeral.value 10 (whole ++ fraction))
      (exponent?.getD 0 - fraction.length)).map .double

/-- Takes a sign off the front: is it a minus? -/
def takeSign (t : Text) : Bool × Text :=
  match t with
  | '-' :: rest => (true, rest)
  | '+' :: rest => (false, rest)
  | _ => (false, t)

/-- Reads an exponent, if one starts here. A mark without digits is an error. -/
def readExponent? (t : Text) : Option (Option Int × Text) :=
  match t with
  | c :: rest =>
    if c = 'e' ∨ c = 'E' then
      let (negative, rest) := takeSign rest
      let digits := rest.takeWhile Char.isDigit
      let n : Int := Numeral.value 10 digits
      if digits.isEmpty then none
      else some (some (if negative then -n else n), rest.dropWhile Char.isDigit)
    else some (none, t)
  | [] => some (none, [])

/-- Reads a fraction, if one starts here. A point without digits is an error. -/
def readFraction? (t : Text) : Option (Option Text × Text) :=
  match t with
  | '.' :: rest =>
    let digits := rest.takeWhile Char.isDigit
    if digits.isEmpty then none else some (some digits, rest.dropWhile Char.isDigit)
  | _ => some (none, t)

/-- Reads a number. Its whole part has no leading zero. -/
def readNumber? (t : Text) : Option (Num × Text) :=
  let negative := t.head? == some '-'
  let t := if negative then t.drop 1 else t
  let whole := t.takeWhile Char.isDigit
  if whole.isEmpty || (whole.head? == some '0' && decide (1 < whole.length)) then none
  else
    (readFraction? (t.dropWhile Char.isDigit)).bind fun (fraction?, t) =>
      (readExponent? t).bind fun (exponent?, t) =>
        (makeNumber? negative whole fraction? exponent?).map fun n => (n, t)

/-! ## Values -/

/-- The text after the blanks it begins with. -/
def skip (t : Text) : Text := t.dropWhile isGap

/-- Reads one of the three names that are values. -/
def readName? (t : Text) : Option (Json × Text) :=
  ((Text.strip? "null".toList t).map fun rest => (null, rest)) <|>
  ((Text.strip? "true".toList t).map fun rest => (bool true, rest)) <|>
  ((Text.strip? "false".toList t).map fun rest => (bool false, rest))

mutual

/-- Reads a value that stands at the front of a text, up to `room` levels of containers deep. -/
def readValue? (steps room : Nat) (t : Text) : Option (Json × Text) :=
  match steps with
  | 0 => none
  | steps + 1 =>
    match t with
    | [] => none
    | c :: rest =>
      if c = '"' then (readString? rest).map fun (s, rest) => (str s, rest)
      else if c = '[' then
        match room, skip rest with
        | 0, _ => none
        | _ + 1, ']' :: rest => some (arr [], rest)
        | room + 1, rest => (readItems? steps room rest).map fun (items, rest) => (arr items, rest)
      else if c = '\x7b' then
        match room, skip rest with
        | 0, _ => none
        | _ + 1, '\x7d' :: rest => some (obj [], rest)
        | room + 1, rest =>
          (readFields? steps room rest).map fun (fields, rest) =>
            (obj (OrderedMap.ofList fields).entries, rest)
      else if c = '-' ∨ c.isDigit then (readNumber? t).map fun (n, rest) => (num n, rest)
      else readName? t

/-- Reads the items of an array, at least one, and the bracket that closes it. -/
def readItems? (steps room : Nat) (t : Text) : Option (List Json × Text) :=
  match steps with
  | 0 => none
  | steps + 1 =>
    (readValue? steps room t).bind fun (item, rest) =>
      match skip rest with
      | ']' :: rest => some ([item], rest)
      | ',' :: rest =>
        (readItems? steps room (skip rest)).map fun (items, rest) => (item :: items, rest)
      | _ => none

/-- Reads the fields of an object, at least one, and the brace that closes it. -/
def readFields? (steps room : Nat) (t : Text) : Option (List (Text × Json) × Text) :=
  match steps, t with
  | steps + 1, '"' :: rest =>
    (readString? rest).bind fun (key, rest) =>
      match skip rest with
      | ':' :: rest =>
        (readValue? steps room (skip rest)).bind fun (value, rest) =>
          match skip rest with
          | '\x7d' :: rest => some ([(key, value)], rest)
          | ',' :: rest =>
            (readFields? steps room (skip rest)).map fun (fields, rest) =>
              ((key, value) :: fields, rest)
          | _ => none
      | _ => none
  | _, _ => none

end

/-- The value that a whole text writes, with blanks around it, if its containers nest at most
`room` levels deep. -/
def read? (room : Nat) (t : Text) : Option Json :=
  (readValue? (2 * t.length + 2) room (skip t)).bind fun (value, rest) =>
    if (skip rest).isEmpty then some value else none

end ThemeLens.Json
