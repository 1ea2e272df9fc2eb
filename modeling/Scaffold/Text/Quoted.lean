import Scaffold.Text.Basic
import Scaffold.Text.Hidden

/-! Texts and characters between quotes, as messages show them. A backslash goes before the
enclosing mark and before itself, and hidden characters are written by number. -/
namespace Scaffold.Text

/-- How `c` is written between two `mark`s. -/
def escape (mark c : Char) : String :=
  if c = '\x00' then "\\0"
  else if c = '\t' then "\\t"
  else if c = '\n' then "\\n"
  else if c = '\r' then "\\r"
  else if c = mark ∨ c = '\\' then "\\" ++ c.toString
  else if isHidden c then "\\u\x7b" ++ String.ofList (Nat.toDigits 16 c.toNat) ++ "\x7d"
  else c.toString

def quoted (t : Text) : String :=
  "\"" ++ String.join (t.map (escape '"')) ++ "\""

def quotedChar (c : Char) : String :=
  "'" ++ escape '\x27' c ++ "'"

end Scaffold.Text
