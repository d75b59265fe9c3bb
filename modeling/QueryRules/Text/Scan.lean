import QueryRules.Text.Quoted

/-!
# Scanning

Small readers on lists of characters. A reader takes what it wants off the front and returns the
rest, or it fails and says what it expected and what it found instead.
-/

namespace QueryRules

/-- What a reader expected. -/
inductive Expected where
  /-- A word of at least one character. -/
  | word
  /-- A certain character. -/
  | char
  /-- The end of the text. -/
  | finish
  deriving DecidableEq

/-- A reader found something else than it expected. -/
structure ScanError where
  expected : Expected
  rest : List Char
  deriving DecidableEq

/-- The code of an expectation in messages. -/
def Expected.code : Expected → String
  | .word => "TakeWhile1"
  | .char => "Char"
  | .finish => "Eof"

/-- The message of a reader that failed. -/
def ScanError.message (e : ScanError) : String :=
  "Parsing Error: Error \x7b input: " ++ Text.quote e.rest ++ ", code: " ++ e.expected.code
    ++ " \x7d"

/-- A reader of values. -/
abbrev Scan (α : Type) :=
  List Char → Except ScanError (α × List Char)

namespace Scan

variable {α : Type}

/-- The characters of names: letters, digits and the underscore. -/
def isNameChar (c : Char) : Bool :=
  c.isAlphanum || c = '_'

/-- Drop the spaces at the front. -/
def skipSpaces (cs : List Char) : List Char :=
  cs.dropWhile Text.isSpace

/-- The longest word of characters in a class; it has at least one character. -/
def word (p : Char → Bool) : Scan String := fun cs =>
  let front := cs.takeWhile p
  if front.isEmpty then .error ⟨.word, cs⟩
  else .ok (String.ofList front, cs.dropWhile p)

/-- A certain character. -/
def char (c : Char) : Scan Unit
  | [] => .error ⟨.char, []⟩
  | d :: rest => if d = c then .ok ((), rest) else .error ⟨.char, d :: rest⟩

/-- The end of the text. -/
def finish (cs : List Char) : Except ScanError Unit :=
  if cs.isEmpty then .ok () else .error ⟨.finish, cs⟩

/-- Try a reader. If it fails, nothing is taken. -/
def optional (item : Scan α) (cs : List Char) : Option α × List Char :=
  match item cs with
  | .ok (a, rest) => (some a, rest)
  | .error _ => (none, cs)

/-- Items, each with a separator in front, `count` of them at most. A separator that no item
follows is not taken. -/
def followers (sep : Scan Unit) (item : Scan α) : (count : Nat) → List Char → List α × List Char
  | 0, cs => ([], cs)
  | count + 1, cs =>
    match sep cs with
    | .error _ => ([], cs)
    | .ok (_, afterSep) =>
      match item afterSep with
      | .error _ => ([], cs)
      | .ok (a, rest) =>
        let (as, rest) := followers sep item count rest
        (a :: as, rest)

/-- Items with separators between them, perhaps none. Every further item takes at least one
character, so their number is bounded by the length of the text. -/
def separated (sep : Scan Unit) (item : Scan α) (cs : List Char) : List α × List Char :=
  match item cs with
  | .error _ => ([], cs)
  | .ok (a, rest) =>
    let (as, rest) := followers sep item rest.length rest
    (a :: as, rest)

/-- A separator with spaces around it. -/
def spaced (c : Char) : Scan Unit := fun cs => do
  let (_, rest) ← char c (skipSpaces cs)
  return ((), skipSpaces rest)

/-- Items between an opening and a closing character, with spaces inside both. -/
def bracketed (opening closing : Char) (sep : Scan Unit) (item : Scan α) :
    Scan (List α) := fun cs => do
  let (_, cs) ← char opening cs
  let (items, cs) := separated sep item (skipSpaces cs)
  let (_, cs) ← char closing (skipSpaces cs)
  return (items, cs)

/-- Read a whole text, with spaces around what is read. -/
def whole (item : Scan α) (cs : List Char) : Except ScanError α := do
  let (a, cs) ← item (skipSpaces cs)
  finish (skipSpaces cs)
  return a

end Scan

end QueryRules
