/-!
# Symbols

The holes of a template: tables, attribute lists and predicates that are left open. A symbol
belongs to one of the two templates of a pair and is told apart by its kind and its number there,
not by the place where it occurs.
-/

namespace QueryRules

/-- What a symbol stands for. -/
inductive SymbolKind where
  | table | attrs | pred
  deriving DecidableEq

namespace SymbolKind

/-- All kinds. -/
def all : List SymbolKind :=
  [.table, .attrs, .pred]

/-- The first letter of the names of symbols of this kind. -/
def letter : SymbolKind → Char
  | .table => 't'
  | .attrs => 'a'
  | .pred => 'p'

/-- The name of the kind. -/
def name : SymbolKind → String
  | .table => "Table"
  | .attrs => "Attrs"
  | .pred => "Pred"

end SymbolKind

/-- The template of a pair that a symbol belongs to. -/
inductive Side where
  | source | target
  deriving DecidableEq

namespace Side

/-- The name of the side. -/
def name : Side → String
  | .source => "Source"
  | .target => "Target"

/-- The short form of the side. -/
def short : Side → String
  | .source => "src"
  | .target => "tgt"

end Side

/-- A hole of a template. -/
structure Symbol where
  side : Side
  kind : SymbolKind
  id : Nat
  deriving DecidableEq

/-- The written form of a symbol that has no name: its side, kind and number. -/
def Symbol.text (s : Symbol) : String :=
  s.side.short ++ ":" ++ s.kind.letter.toString ++ "#" ++ s.id.repr

end QueryRules
