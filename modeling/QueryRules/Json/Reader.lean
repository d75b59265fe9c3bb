import QueryRules.Json
import QueryRules.Text.Blank
import QueryRules.Text.Number

/-!
# Reading JSON

A strict reader of JSON text: blanks are space, tab, line feed and carriage return; numbers have
no leading zero, no leading plus and digits on both sides of a point; strings hold no raw control
character and no surrogate that is not part of a pair; nothing but blanks may follow the value.

Readers work on the list of characters that is left and give back what they did not consume.
Values nest, so the reader of values counts down a number that the length of the text bounds.
-/

namespace QueryRules.Json

/-- Drop leading blanks. -/
def skipBlanks (cs : List Char) : List Char :=
  cs.dropWhile Text.isSpace

/-- The value of a hexadecimal digit. -/
def hexValue? (c : Char) : Option Nat :=
  if '0' ≤ c ∧ c ≤ '9' then some (c.toNat - '0'.toNat)
  else if 'a' ≤ c ∧ c ≤ 'f' then some (c.toNat - 'a'.toNat + 10)
  else if 'A' ≤ c ∧ c ≤ 'F' then some (c.toNat - 'A'.toNat + 10)
  else none

/-- Four hexadecimal digits. -/
def readHex4 : List Char → Option (Nat × List Char)
  | a :: b :: c :: d :: rest => do
    let a ← hexValue? a
    let b ← hexValue? b
    let c ← hexValue? c
    let d ← hexValue? d
    return (((a * 16 + b) * 16 + c) * 16 + d, rest)
  | _ => none

/-- What follows the mark `\u`: a code unit, or a pair of surrogates with the second one escaped
as well. -/
def readUnicode (cs : List Char) : Option (Char × List Char) := do
  let (hi, rest) ← readHex4 cs
  if 0xD800 ≤ hi ∧ hi < 0xDC00 then
    match rest with
    | '\\' :: 'u' :: rest => do
      let (lo, rest) ← readHex4 rest
      if 0xDC00 ≤ lo ∧ lo < 0xE000 then
        return (Char.ofNat (0x10000 + (hi - 0xD800) * 0x400 + (lo - 0xDC00)), rest)
      else
        none
    | _ => none
  else if 0xDC00 ≤ hi ∧ hi < 0xE000 then
    none
  else
    return (Char.ofNat hi, rest)

/-- The character that a one-letter escape stands for. -/
def simpleEscape? : Char → Option Char
  | '"' => some '"'
  | '\\' => some '\\'
  | '/' => some '/'
  | 'b' => some '\x08'
  | 'f' => some '\x0c'
  | 'n' => some '\n'
  | 'r' => some '\r'
  | 't' => some '\t'
  | _ => none

/-- The rest of a string after its opening quote; `acc` holds the characters read, the latest
first. The first argument bounds the number of characters. -/
def readStringTail : Nat → List Char → List Char → Option (String × List Char)
  | 0, _, _ => none
  | n + 1, acc, cs =>
    match cs with
    | [] => none
    | '"' :: rest => some (String.ofList acc.reverse, rest)
    | '\\' :: 'u' :: rest =>
      match readUnicode rest with
      | some (c, rest) => readStringTail n (c :: acc) rest
      | none => none
    | '\\' :: e :: rest =>
      match simpleEscape? e with
      | some c => readStringTail n (c :: acc) rest
      | none => none
    | c :: rest => if c.toNat < 0x20 ∨ c = '\\' then none else readStringTail n (c :: acc) rest

/-- A string after its opening quote. -/
def readString (cs : List Char) : Option (String × List Char) :=
  readStringTail (cs.length + 1) [] cs

/-- One decimal digit or more. -/
def readDigits (cs : List Char) : Option (List Char × List Char) :=
  match cs.takeWhile Char.isDigit with
  | [] => none
  | ds => some (ds, cs.dropWhile Char.isDigit)

/-- The digits before the point: a zero alone, or digits that do not begin with a zero. -/
def readWhole : List Char → Option (List Char × List Char)
  | '0' :: rest =>
    match rest with
    | c :: _ => if c.isDigit then none else some (['0'], rest)
    | [] => some (['0'], [])
  | cs => readDigits cs

/-- The fraction of a number, which may be absent. -/
def readFraction : List Char → Option (List Char × List Char)
  | '.' :: rest => (readDigits rest).map fun (ds, rest) => ('.' :: ds, rest)
  | cs => some ([], cs)

/-- The exponent of a number after its mark. -/
def readExponentTail (mark : Char) : List Char → Option (List Char × List Char)
  | '+' :: rest => (readDigits rest).map fun (ds, rest) => (mark :: '+' :: ds, rest)
  | '-' :: rest => (readDigits rest).map fun (ds, rest) => (mark :: '-' :: ds, rest)
  | cs => (readDigits cs).map fun (ds, rest) => (mark :: ds, rest)

/-- The exponent of a number, which may be absent. -/
def readExponent : List Char → Option (List Char × List Char)
  | 'e' :: rest => readExponentTail 'e' rest
  | 'E' :: rest => readExponentTail 'E' rest
  | cs => some ([], cs)

/-- A number without its sign. A negative zero is not an integer. -/
def readUnsigned (negative : Bool) (cs : List Char) : Option (Json × List Char) := do
  let (whole, cs) ← readWhole cs
  let (fraction, cs) ← readFraction cs
  let (exponent, cs) ← readExponent cs
  let value := Text.digitsValue whole
  let sign := if negative then "-" else ""
  if fraction.isEmpty && exponent.isEmpty && !(negative && value == 0) then
    return (.int (if negative then -value else value), cs)
  else
    return (.float (sign ++ String.ofList (whole ++ fraction ++ exponent)), cs)

/-- A number. -/
def readNumber : List Char → Option (Json × List Char)
  | '-' :: rest => readUnsigned true rest
  | cs => readUnsigned false cs

/-- The rest after a fixed word. -/
def dropWord? : List Char → List Char → Option (List Char)
  | [], cs => some cs
  | _ :: _, [] => none
  | w :: ws, c :: cs => if w = c then dropWord? ws cs else none

mutual

/-- A value, blanks before it allowed. -/
def readValue : Nat → List Char → Option (Json × List Char)
  | 0, _ => none
  | n + 1, cs =>
    match skipBlanks cs with
    | [] => none
    | '"' :: rest => (readString rest).map fun (s, rest) => (.str s, rest)
    | '[' :: rest =>
      match skipBlanks rest with
      | ']' :: rest => some (.arr [], rest)
      | rest => readItems n [] rest
    | '\x7b' :: rest =>
      match skipBlanks rest with
      | '\x7d' :: rest => some (.obj [], rest)
      | rest => readFields n [] rest
    | 'n' :: rest => (dropWord? ['u', 'l', 'l'] rest).map fun rest => (.null, rest)
    | 't' :: rest => (dropWord? ['r', 'u', 'e'] rest).map fun rest => (.bool true, rest)
    | 'f' :: rest => (dropWord? ['a', 'l', 's', 'e'] rest).map fun rest => (.bool false, rest)
    | cs => readNumber cs

/-- The items of an array up to its closing bracket; `acc` holds those read, the latest first. -/
def readItems : Nat → List Json → List Char → Option (Json × List Char)
  | 0, _, _ => none
  | n + 1, acc, cs =>
    match readValue n cs with
    | none => none
    | some (j, rest) =>
      match skipBlanks rest with
      | ',' :: rest => readItems n (j :: acc) rest
      | ']' :: rest => some (.arr (j :: acc).reverse, rest)
      | _ => none

/-- The fields of an object up to its closing brace; `acc` holds those read, the latest first. -/
def readFields : Nat → List (String × Json) → List Char → Option (Json × List Char)
  | 0, _, _ => none
  | n + 1, acc, cs =>
    match skipBlanks cs with
    | '"' :: rest =>
      match readString rest with
      | none => none
      | some (name, rest) =>
        match skipBlanks rest with
        | ':' :: rest =>
          match readValue n rest with
          | none => none
          | some (j, rest) =>
            match skipBlanks rest with
            | ',' :: rest => readFields n ((name, j) :: acc) rest
            | '\x7d' :: rest => some (.obj ((name, j) :: acc).reverse, rest)
            | _ => none
        | _ => none
    | _ => none

end

/-- Read a text that is one JSON value. -/
def parse? (text : String) : Option Json :=
  let cs := text.toList
  -- every level of nesting and every item takes a character of its own
  match readValue (2 * cs.length + 2) cs with
  | some (j, rest) => if (skipBlanks rest).isEmpty then some j else none
  | none => none

end QueryRules.Json
