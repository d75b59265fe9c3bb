/-!
# JSON values

JSON values with the accessors that decoders use and the compact written form. An object keeps its
fields in the order in which they are written, repeated names included. Numbers are integers; a
number with a fraction or an exponent is kept by its text, because nothing in this library takes
one.
-/

namespace QueryRules

/-- A JSON value. -/
inductive Json where
  | null
  | bool (b : Bool)
  | int (i : Int)
  | float (text : String)
  | str (s : String)
  | arr (items : List Json)
  | obj (fields : List (String × Json))
  deriving Inhabited

namespace Json

/-! ## Accessors -/

/-- The text of a string. -/
def str? : Json → Option String
  | .str s => some s
  | _ => none

/-- The truth value of a boolean. -/
def bool? : Json → Option Bool
  | .bool b => some b
  | _ => none

/-- A natural number below `bound`. -/
def natBelow? (bound : Nat) : Json → Option Nat
  | .int i => if 0 ≤ i ∧ i < bound then some i.toNat else none
  | _ => none

/-- A natural number of at most 32 bits. -/
def nat32? : Json → Option Nat :=
  natBelow? 4294967296

/-- A natural number of at most 64 bits. -/
def nat64? : Json → Option Nat :=
  natBelow? 18446744073709551616

/-- The items of an array. -/
def arr? : Json → Option (List Json)
  | .arr items => some items
  | _ => none

/-- The fields of an object. -/
def obj? : Json → Option (List (String × Json))
  | .obj fields => some fields
  | _ => none

/-- The field of an object with the given name; the last one if it is repeated. -/
def field? (j : Json) (name : String) : Option Json :=
  match j with
  | .obj fields => fields.reverse.lookup name
  | _ => none

/-- Decode every item of an array. -/
def list? {α : Type} (decode : Json → Option α) : Json → Option (List α)
  | .arr items => items.mapM decode
  | _ => none

/-- Decode a value that may be null. -/
def option? {α : Type} (decode : Json → Option α) : Json → Option (Option α)
  | .null => some none
  | j => (decode j).map some

/-- An object with a single field: the name of a variant and its content. -/
def variant? : Json → Option (String × Json)
  | .obj [(name, content)] => some (name, content)
  | _ => none

/-! ## Building values -/

/-- A natural number. -/
def nat (n : Nat) : Json :=
  .int n

/-- A list of strings. -/
def strs (ss : List String) : Json :=
  .arr (ss.map .str)

/-- An optional value; nothing is null. -/
def ofOption {α : Type} (encode : α → Json) : Option α → Json
  | none => .null
  | some a => encode a

/-- An object with a single field. -/
def variant (name : String) (content : Json) : Json :=
  .obj [(name, content)]

/-! ## Written form -/

/-- A hexadecimal digit. -/
def hexDigit (n : Nat) : Char :=
  if n < 10 then Char.ofNat ('0'.toNat + n) else Char.ofNat ('a'.toNat + n - 10)

/-- The written form of a character of a string: quote, backslash and control characters are
escaped. -/
def escapeChar (c : Char) : String :=
  match c with
  | '"' => "\\\""
  | '\\' => "\\\\"
  | '\n' => "\\n"
  | '\r' => "\\r"
  | '\t' => "\\t"
  | c =>
    if c.toNat < 0x20 then
      (("\\u00".push (hexDigit (c.toNat / 16))).push (hexDigit (c.toNat % 16)))
    else
      c.toString

/-- A string in quotes, appended to `out`. -/
def writeString (out s : String) : String :=
  (s.toList.foldl (fun out c => out ++ escapeChar c) (out.push '"')).push '"'

mutual

/-- The written form of a value, appended to `out`. -/
def write (out : String) : Json → String
  | .null => out ++ "null"
  | .bool true => out ++ "true"
  | .bool false => out ++ "false"
  | .int i => out ++ i.repr
  | .float text => out ++ text
  | .str s => writeString out s
  | .arr [] => out ++ "[]"
  | .arr (j :: js) => (writeItems (write (out.push '[') j) js).push ']'
  | .obj [] => out ++ "\x7b\x7d"
  | .obj ((n, j) :: fs) =>
    (writeFields (write ((writeString (out.push '\x7b') n).push ':') j) fs).push '\x7d'

/-- The remaining items of an array, each after a comma. -/
def writeItems (out : String) : List Json → String
  | [] => out
  | j :: js => writeItems (write (out.push ',') j) js

/-- The remaining fields of an object, each after a comma. -/
def writeFields (out : String) : List (String × Json) → String
  | [] => out
  | (n, j) :: fs => writeFields (write ((writeString (out.push ',') n).push ':') j) fs

end

/-- The compact written form. -/
def render (j : Json) : String :=
  write "" j

end Json

end QueryRules
