import QueryRules.Text.Hidden

/-!
# Quoted text

A text between double quotes, as it is shown in the messages of the readers. A quote and a
backslash get a backslash in front; line feed, carriage return, tab and the null character have
short names; the other characters that cannot be seen by themselves are written by their number.
-/

namespace QueryRules.Text

/-- A character by its number, in hexadecimal digits. -/
def byNumber (c : Char) : List Char :=
  ['\\', 'u', '\x7b'] ++ Nat.toDigits 16 c.toNat ++ ['\x7d']

/-- The written form of one character between quotes. -/
def quoteChar (c : Char) : List Char :=
  if c = '"' then ['\\', '"']
  else if c = '\\' then ['\\', '\\']
  else if c = '\n' then ['\\', 'n']
  else if c = '\r' then ['\\', 'r']
  else if c = '\t' then ['\\', 't']
  else if c = '\x00' then ['\\', '0']
  else if isHidden c then byNumber c
  else [c]

/-- A text between quotes. -/
def quote (cs : List Char) : String :=
  String.ofList ('"' :: cs.flatMap quoteChar ++ ['"'])

end QueryRules.Text
