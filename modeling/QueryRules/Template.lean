import QueryRules.Names

/-!
# Templates

A template is a tree of relational operators in which tables, attribute lists and predicates are
symbols. It is written as, for instance, `Proj<a1>(Filter<p0 a0>(Input<t0>))`.

An attribute list of an operator is drawn from what the operand exposes: a table, or the attribute
list of a projection, which hides everything below it.
-/

namespace QueryRules

/-- The kind of a join in a template. -/
inductive TemplateJoin where
  | inner | left
  deriving DecidableEq

/-- An operator of a template. -/
inductive Operator where
  | input
  | proj (dedup : Bool)
  | filter
  | inSub
  | join (kind : TemplateJoin)
  | union (dedup : Bool)
  deriving DecidableEq

namespace Operator

/-- All operators. -/
def all : List Operator :=
  [.input, .proj false, .proj true, .filter, .inSub, .join .inner, .join .left, .union false,
    .union true]

/-- The name of an operator; a star marks deduplication. -/
def name : Operator → String
  | .input => "Input"
  | .proj false => "Proj"
  | .proj true => "Proj*"
  | .filter => "Filter"
  | .inSub => "InSubFilter"
  | .join .inner => "InnerJoin"
  | .join .left => "LeftJoin"
  | .union false => "Union"
  | .union true => "Union*"

/-- The operator with a name. -/
def ofName? (name : String) : Option Operator :=
  all.find? fun op => op.name = name

/-- The number of operands. -/
def arity : Operator → Nat
  | .input => 0
  | .proj _ => 1
  | .filter => 1
  | .inSub => 2
  | .join _ => 2
  | .union _ => 2

/-- The kinds of the symbols of an operator, in written order. -/
def symbolKinds : Operator → List SymbolKind
  | .input => [.table]
  | .proj _ => [.attrs]
  | .filter => [.pred, .attrs]
  | .inSub => [.attrs]
  | .join _ => [.attrs, .attrs]
  | .union _ => []

end Operator

/-- A template. -/
inductive Template where
  | input (table : Symbol)
  | proj (dedup : Bool) (attrs : Symbol) (operand : Template)
  | filter (pred attrs : Symbol) (operand : Template)
  | inSub (attrs : Symbol) (operand subquery : Template)
  | join (kind : TemplateJoin) (leftAttrs rightAttrs : Symbol) (left right : Template)
  | union (dedup : Bool) (left right : Template)
  deriving DecidableEq

namespace Template

/-- The operator at the root. -/
def operator : Template → Operator
  | .input _ => .input
  | .proj dedup _ _ => .proj dedup
  | .filter .. => .filter
  | .inSub .. => .inSub
  | .join kind .. => .join kind
  | .union dedup _ _ => .union dedup

/-- The symbols of the operator at the root, in written order. -/
def rootSymbols : Template → List Symbol
  | .input table => [table]
  | .proj _ attrs _ => [attrs]
  | .filter pred attrs _ => [pred, attrs]
  | .inSub attrs _ _ => [attrs]
  | .join _ leftAttrs rightAttrs _ _ => [leftAttrs, rightAttrs]
  | .union .. => []

/-- The number of operators. -/
def size : Template → Nat
  | .input _ => 1
  | .proj _ _ p => p.size + 1
  | .filter _ _ p => p.size + 1
  | .inSub _ p q => p.size + q.size + 1
  | .join _ _ _ l r => l.size + r.size + 1
  | .union _ l r => l.size + r.size + 1

/-! ## Operators in order

Operators are numbered from the operands to the root, the left operand first. -/

/-- An operator with its symbols and the numbers of its operands. -/
structure Row where
  operator : Operator
  operands : List Nat
  symbols : List Symbol
  deriving DecidableEq

/-- The operators of a template, numbered from `first` on. -/
def rowsFrom (first : Nat) : Template → List Row
  | .input table => [⟨.input, [], [table]⟩]
  | .proj dedup attrs p =>
    p.rowsFrom first ++ [⟨.proj dedup, [first + p.size - 1], [attrs]⟩]
  | .filter pred attrs p =>
    p.rowsFrom first ++ [⟨.filter, [first + p.size - 1], [pred, attrs]⟩]
  | .inSub attrs p q =>
    p.rowsFrom first ++ q.rowsFrom (first + p.size)
      ++ [⟨.inSub, [first + p.size - 1, first + p.size + q.size - 1], [attrs]⟩]
  | .join kind leftAttrs rightAttrs l r =>
    l.rowsFrom first ++ r.rowsFrom (first + l.size)
      ++ [⟨.join kind, [first + l.size - 1, first + l.size + r.size - 1], [leftAttrs, rightAttrs]⟩]
  | .union dedup l r =>
    l.rowsFrom first ++ r.rowsFrom (first + l.size)
      ++ [⟨.union dedup, [first + l.size - 1, first + l.size + r.size - 1], []⟩]

/-- The operators of a template; the root is the last one. -/
def rows (t : Template) : List Row :=
  t.rowsFrom 0

/-- All symbols in the order of the operators. -/
def symbols : Template → List Symbol
  | .input table => [table]
  | .proj _ attrs p => p.symbols ++ [attrs]
  | .filter pred attrs p => p.symbols ++ [pred, attrs]
  | .inSub attrs p q => p.symbols ++ q.symbols ++ [attrs]
  | .join _ leftAttrs rightAttrs l r => l.symbols ++ r.symbols ++ [leftAttrs, rightAttrs]
  | .union _ l r => l.symbols ++ r.symbols

/-- The symbols of a kind in the order of the operators. -/
def symbolsOf (t : Template) (kind : SymbolKind) : List Symbol :=
  t.symbols.filter fun s => s.kind = kind

/-- All symbols, kind by kind. -/
def symbolsByKind (t : Template) : List Symbol :=
  SymbolKind.all.flatMap t.symbolsOf

/-- The number of the operator that a symbol belongs to. -/
def ownerOf? (t : Template) (s : Symbol) : Option Nat :=
  t.rows.findIdx? fun row => s ∈ row.symbols

/-! ## Sources of attribute lists -/

/-- What a template exposes to the operator above it: tables, and attribute lists of projections,
which hide what is below them. A union exposes its left operand only, an `IN` filter the filtered
operand. -/
def exposed : Template → List Symbol
  | .input table => [table]
  | .proj _ attrs _ => [attrs]
  | .filter _ _ p => p.exposed
  | .inSub _ p _ => p.exposed
  | .join _ _ _ l r => l.exposed ++ r.exposed
  | .union _ l _ => l.exposed

/-- Every attribute list with the symbols it may be drawn from, in the order of the operators. -/
def viable : Template → List (Symbol × List Symbol)
  | .input _ => []
  | .proj _ attrs p => p.viable ++ [(attrs, p.exposed)]
  | .filter _ attrs p => p.viable ++ [(attrs, p.exposed)]
  | .inSub attrs p q => p.viable ++ q.viable ++ [(attrs, p.exposed)]
  | .join _ leftAttrs rightAttrs l r =>
    l.viable ++ r.viable ++ [(leftAttrs, l.exposed), (rightAttrs, r.exposed)]
  | .union _ l r => l.viable ++ r.viable

/-- The symbols that an attribute list may be drawn from. -/
def viableSources (t : Template) (attrs : Symbol) : List Symbol :=
  (t.viable.lookup attrs).getD []

/-! ## Written form -/

/-- An operator with its symbols between angle brackets. -/
def head (op : Operator) (symbols : List String) : String :=
  if symbols.isEmpty then op.name else op.name ++ "<" ++ " ".intercalate symbols ++ ">"

/-- The written form; a symbol without a name is written by its side, kind and number. -/
def text (names : Names) : Template → String
  | .input table => head .input [names.label table]
  | .proj dedup attrs p => head (.proj dedup) [names.label attrs] ++ "(" ++ p.text names ++ ")"
  | .filter pred attrs p =>
    head .filter [names.label pred, names.label attrs] ++ "(" ++ p.text names ++ ")"
  | .inSub attrs p q =>
    head .inSub [names.label attrs] ++ "(" ++ p.text names ++ "," ++ q.text names ++ ")"
  | .join kind leftAttrs rightAttrs l r =>
    head (.join kind) [names.label leftAttrs, names.label rightAttrs] ++ "(" ++ l.text names ++ ","
      ++ r.text names ++ ")"
  | .union dedup l r => head (.union dedup) [] ++ "(" ++ l.text names ++ "," ++ r.text names ++ ")"

end Template

end QueryRules
