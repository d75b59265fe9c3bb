import QueryRules.Symbol
import QueryRules.Text.Number

/-!
# Names of symbols

The names of the symbols of two templates. A symbol has at most one name and a name belongs to at
most one symbol; both directions are tables of their own. Every name starts with the letter of its
symbol's kind. A symbol can be given a name, or it gets the next free one: the letter and a running
number, counted in 32 bits for each kind, which is kept ahead of the numbers in given names. Where
the running number cannot be counted on, there is no next name.
-/

namespace QueryRules

/-- Why a symbol cannot be given a name. -/
inductive NamingError where
  | duplicate (name : String)
  | wrongLetter (name : String) (expected : Char)
  deriving DecidableEq

/-- The message of a naming error. -/
def NamingError.message : NamingError → String
  | .duplicate name => "symbol name `" ++ name ++ "` is already bound to another symbol"
  | .wrongLetter name expected =>
    "symbol name `" ++ name ++ "` does not start with `" ++ expected.toString ++ "`"

/-- The tables of names and of symbols, and for each kind the number that the next new name tries
first. -/
structure Names where
  /-- The symbols with their names, in the order in which they got them. -/
  entries : List (Symbol × String)
  /-- The names with the symbols they belong to. -/
  owners : List (String × Symbol)
  nextTable : UInt32
  nextAttrs : UInt32
  nextPred : UInt32
  deriving DecidableEq

namespace Names

/-! ## Tables -/

section Tables

variable {α β : Type} [DecidableEq α]

/-- A table without a key. -/
def without (table : List (α × β)) (key : α) : List (α × β) :=
  table.filter fun e => e.1 ≠ key

/-- Put a value under a key, in place of the one that it may have. -/
def put (table : List (α × β)) (key : α) (value : β) : List (α × β) :=
  without table key ++ [(key, value)]

end Tables

/-- No names. -/
def empty : Names :=
  ⟨[], [], 0, 0, 0⟩

/-- The name of a symbol. -/
def nameOf? (n : Names) (s : Symbol) : Option String :=
  n.entries.lookup s

/-- The symbol with a name. -/
def symbolOf? (n : Names) (name : String) : Option Symbol :=
  n.owners.lookup name

/-- The name of a symbol, or its written form if it has none. -/
def label (n : Names) (s : Symbol) : String :=
  (n.nameOf? s).getD s.text

/-- The number of named symbols. -/
def size (n : Names) : Nat :=
  n.entries.length

/-- The number that the next new name of a kind tries first. -/
def next (n : Names) : SymbolKind → UInt32
  | .table => n.nextTable
  | .attrs => n.nextAttrs
  | .pred => n.nextPred

/-- Set the number that the next new name of a kind tries first. -/
def setNext (n : Names) (kind : SymbolKind) (k : UInt32) : Names :=
  match kind with
  | .table => { n with nextTable := k }
  | .attrs => { n with nextAttrs := k }
  | .pred => { n with nextPred := k }

/-- The number in a name: what follows the letter, if that is a number of 32 bits. -/
def number? (name : String) : Option Nat :=
  Text.readNat? UInt32.size (name.toList.drop 1)

/-- The number after a given one; the largest number stays. -/
def after (k : Nat) : UInt32 :=
  UInt32.ofNat (min (k + 1) (UInt32.size - 1))

/-- Keep the running number of a kind ahead of the number in a name. -/
def keepAhead (n : Names) (kind : SymbolKind) (name : String) : Names :=
  match number? name with
  | some k => n.setNext kind (max (n.next kind) (after k))
  | none => n

/-! ## Giving names -/

/-- Enter a name of a symbol into both tables. A name that the symbol had is free again. -/
def enter (n : Names) (s : Symbol) (name : String) : Names :=
  let owners :=
    match n.nameOf? s with
    | some old => without n.owners old
    | none => n.owners
  { n with entries := put n.entries s name, owners := put owners name s }

/-- Give a symbol a name, in place of the one it may have. Giving it the name it has changes
nothing. The names after the call are returned with the result. -/
def set (n : Names) (s : Symbol) (name : String) : Except NamingError Unit × Names :=
  if name.toList.head? ≠ some s.kind.letter then (.error (.wrongLetter name s.kind.letter), n)
  else
    match n.symbolOf? name with
    | some t => if t = s then (.ok (), n) else (.error (.duplicate name), n)
    | none => (.ok (), (n.keepAhead s.kind name).enter s name)

/-- The name of a kind with a number. -/
def numbered (kind : SymbolKind) (k : Nat) : String :=
  kind.letter.toString ++ k.repr

/-- The first number from `k` on whose name is free. Every try counts the running number on by one.
This can be done `room` times; the try after that fails, whether its name is free or not. -/
def firstFree? (n : Names) (kind : SymbolKind) : (room k : Nat) → Option Nat
  | 0, _ => none
  | room + 1, k =>
    if (n.symbolOf? (numbered kind k)).isSome then n.firstFree? kind room (k + 1) else some k

/-- The name of a symbol; if it has none, it gets the next free one. There is no result if the
running number would get more than 32 bits on the way. -/
def assign (n : Names) (s : Symbol) : Option (String × Names) :=
  match n.nameOf? s with
  | some name => some (name, n)
  | none =>
    let start := (n.next s.kind).toNat
    (n.firstFree? s.kind (UInt32.size - 1 - start) start).map fun k =>
      let name := numbered s.kind k
      (name, (n.setNext s.kind (UInt32.ofNat (k + 1))).enter s name)

end Names

end QueryRules
