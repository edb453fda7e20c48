import ThemeLens.Json.Basic

/-!
# Writing JSON

Two layouts. The compact one has no blanks at all. The indented one puts every item and field on
a line of its own, two more blanks in for each level, with a blank after a colon; empty arrays and
objects stay closed up. Strings escape the quote, the backslash and the characters below U+0020,
and nothing else.
-/

namespace ThemeLens.Json

/-- The text of a character inside a string. -/
def escapeChar (c : Char) : Text :=
  if c = '"' then ['\\', '"']
  else if c = '\\' then ['\\', '\\']
  else if c = '\x08' then ['\\', 'b']
  else if c = '\t' then ['\\', 't']
  else if c = '\n' then ['\\', 'n']
  else if c = '\x0c' then ['\\', 'f']
  else if c = '\r' then ['\\', 'r']
  else if c.toNat < 0x20 then
    ['\\', 'u', '0', '0', Nat.digitChar (c.toNat / 16), Nat.digitChar (c.toNat % 16)]
  else [c]

/-- A string with its quotes. -/
def quoted (s : Text) : Text := '"' :: s.flatMap escapeChar ++ ['"']

mutual

/-- The text of a value without any blanks. -/
def compact : Json → Text
  | null => "null".toList
  | bool b => if b then "true".toList else "false".toList
  | num n => n.text
  | str s => quoted s
  | arr items => '[' :: compactItems items ++ [']']
  | obj fields => '\x7b' :: compactFields fields ++ ['\x7d']

/-- The items of an array with commas between them. -/
def compactItems : List Json → Text
  | [] => []
  | [item] => compact item
  | item :: items => compact item ++ ',' :: compactItems items

/-- The fields of an object with commas between them. -/
def compactFields : List (Text × Json) → Text
  | [] => []
  | [(key, value)] => quoted key ++ ':' :: compact value
  | (key, value) :: fields => quoted key ++ ':' :: compact value ++ ',' :: compactFields fields

end

/-- A new line at a level of nesting. -/
def newLine (level : Nat) : Text := '\n' :: List.replicate (2 * level) ' '

mutual

/-- The text of a value on indented lines, `level` being the level it stands at. -/
def indented (level : Nat) : Json → Text
  | null => "null".toList
  | bool b => if b then "true".toList else "false".toList
  | num n => n.text
  | str s => quoted s
  | arr [] => ['[', ']']
  | arr items => '[' :: indentedItems (level + 1) items ++ newLine level ++ [']']
  | obj [] => ['\x7b', '\x7d']
  | obj fields => '\x7b' :: indentedFields (level + 1) fields ++ newLine level ++ ['\x7d']

/-- The items of an array, each on a line of its own. -/
def indentedItems (level : Nat) : List Json → Text
  | [] => []
  | [item] => newLine level ++ indented level item
  | item :: items => newLine level ++ indented level item ++ ',' :: indentedItems level items

/-- The fields of an object, each on a line of its own. -/
def indentedFields (level : Nat) : List (Text × Json) → Text
  | [] => []
  | [(key, value)] => newLine level ++ quoted key ++ ':' :: ' ' :: indented level value
  | (key, value) :: fields =>
    newLine level ++ quoted key ++ ':' :: ' ' :: indented level value ++
      ',' :: indentedFields level fields

end

end ThemeLens.Json
