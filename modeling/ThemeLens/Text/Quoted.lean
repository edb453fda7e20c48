import ThemeLens.Text.Basic
import ThemeLens.Text.Hidden

/-!
# Quoting a text in a message

A message that shows a text it was given quotes it so that every character can be seen: the quote
and the backslash are escaped, line ends and tabs are named, and whatever would not show, or would
melt into its neighbour, is written as its code point.
-/

namespace ThemeLens.Text

/-- A character as it stands between quotes. -/
def quoteChar (c : Char) : Text :=
  if c = '"' then ['\\', '"']
  else if c = '\\' then ['\\', '\\']
  else if c = '\n' then ['\\', 'n']
  else if c = '\r' then ['\\', 'r']
  else if c = '\t' then ['\\', 't']
  else if c.toNat = 0 then ['\\', '0']
  else if isHidden c then ['\\', 'u', '\x7b'] ++ Nat.toDigits 16 c.toNat ++ ['\x7d']
  else [c]

/-- A text in double quotes. -/
def quoted (t : Text) : Text := '"' :: t.flatMap quoteChar ++ ['"']

end ThemeLens.Text
