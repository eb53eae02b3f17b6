/-
  Names between quotes.  A quote, a backslash and the common control characters are written with a
  backslash, any other hidden character by its number, and all else as it is.
-/
import BlockAdmm.Text.Hidden

namespace BlockAdmm.Text

/-- `hex n`: a number by its digits to the base sixteen. -/
def hex (n : Nat) : List Char := Nat.toDigits 16 n

/-- `encodeChar c`: one character of a quoted name. -/
def encodeChar (c : Char) : List Char :=
  if c == '"' then ['\\', '"']
  else if c == '\\' then ['\\', '\\']
  else if c == '\n' then ['\\', 'n']
  else if c == '\t' then ['\\', 't']
  else if c == '\r' then ['\\', 'r']
  else if c.toNat == 0 then ['\\', '0']
  else if isHidden c then '\\' :: 'u' :: '\x7b' :: hex c.toNat ++ ['\x7d']
  else [c]

/-- `quoted s`: a name between quotes. -/
def quoted (s : String) : String := String.ofList ('"' :: s.toList.flatMap encodeChar ++ ['"'])

end BlockAdmm.Text
