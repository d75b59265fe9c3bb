import QueryRules.Names
import QueryRules.Text.Scan

/-!
# Constraints

What a rule assumes about the symbols of its two templates: from where an attribute list is drawn,
which symbols are equal, and which integrity facts hold. An equality between a symbol of the
source and one of the target says that the target symbol copies the source symbol.
-/

namespace QueryRules

/-! ## Kinds -/

/-- The kind of a constraint. -/
inductive ConstraintKind where
  | attrsSub
  | eq (kind : SymbolKind)
  | unique
  | notNull
  | reference
  deriving DecidableEq

namespace ConstraintKind

/-- All kinds. -/
def all : List ConstraintKind :=
  [.attrsSub, .eq .table, .eq .attrs, .eq .pred, .unique, .notNull, .reference]

/-- The name of a kind. -/
def name : ConstraintKind → String
  | .attrsSub => "AttrsSub"
  | .eq .table => "TableEq"
  | .eq .attrs => "AttrsEq"
  | .eq .pred => "PredicateEq"
  | .unique => "Unique"
  | .notNull => "NotNull"
  | .reference => "Reference"

/-- A second name that is understood but not written. -/
def otherName? : ConstraintKind → Option String
  | .attrsSub => some "PickSub"
  | .eq .attrs => some "PickEq"
  | _ => none

/-- The kind with a name. -/
def ofName? (name : String) : Option ConstraintKind :=
  all.find? fun k => k.name = name || k.otherName? = some name

/-- The kinds of symbols that are accepted at each position. -/
def accepted : ConstraintKind → List (List SymbolKind)
  | .attrsSub => [[.attrs], [.table, .attrs]]
  | .eq kind => [[kind], [kind]]
  | .unique => [[.table], [.attrs]]
  | .notNull => [[.table], [.attrs]]
  | .reference => [[.table], [.attrs], [.table], [.attrs]]

/-- The number of symbols. -/
def arity (k : ConstraintKind) : Nat :=
  k.accepted.length

/-- Whether constraints of this kind say that two symbols are equal. -/
def isEq : ConstraintKind → Bool
  | .eq _ => true
  | _ => false

/-- Whether constraints of this kind are integrity facts. -/
def isIntegrity : ConstraintKind → Bool
  | .unique => true
  | .notNull => true
  | .reference => true
  | _ => false

end ConstraintKind

/-! ## Constraints -/

/-- A constraint on symbols. -/
inductive Constraint where
  /-- The attribute list `attrs` is drawn from a table or from a projection's attribute list. -/
  | attrsSub (attrs source : Symbol)
  /-- Two symbols of one kind are equal. -/
  | eq (kind : SymbolKind) (left right : Symbol)
  /-- No two rows of `table` agree on `attrs`. -/
  | unique (table attrs : Symbol)
  /-- The `attrs` of a row of `table` are never null. -/
  | notNull (table attrs : Symbol)
  /-- The `attrs` of a row of `table` are the `refAttrs` of some row of `refTable`. -/
  | reference (table attrs refTable refAttrs : Symbol)
  deriving DecidableEq

/-- Why there is no such constraint. -/
inductive ConstraintError where
  | malformed (text : String) (cause : ScanError)
  | unknownKind (name : String)
  | symbolCount (kind : ConstraintKind) (found : Nat)
  | symbolKind (kind : ConstraintKind) (position : Nat) (found : SymbolKind)
  | unknownSymbol (name : String)
  deriving DecidableEq

/-- The message of a constraint error. -/
def ConstraintError.message : ConstraintError → String
  | .malformed text cause => "malformed constraint `" ++ text ++ "`: " ++ cause.message
  | .unknownKind name => "unknown constraint kind `" ++ name ++ "`"
  | .symbolCount kind found =>
    kind.name ++ " takes " ++ kind.arity.repr ++ " symbols, found " ++ found.repr
  | .symbolKind kind position found =>
    kind.name ++ " does not accept a " ++ found.name ++ " symbol at position " ++ position.repr
  | .unknownSymbol name => "unknown symbol name `" ++ name ++ "`"

namespace Constraint

/-- The kind of a constraint. -/
def kind : Constraint → ConstraintKind
  | .attrsSub .. => .attrsSub
  | .eq kind _ _ => .eq kind
  | .unique .. => .unique
  | .notNull .. => .notNull
  | .reference .. => .reference

/-- The symbols of a constraint, in written order. -/
def symbols : Constraint → List Symbol
  | .attrsSub attrs source => [attrs, source]
  | .eq _ left right => [left, right]
  | .unique table attrs => [table, attrs]
  | .notNull table attrs => [table, attrs]
  | .reference table attrs refTable refAttrs => [table, attrs, refTable, refAttrs]

/-- The first symbol that is not accepted at its position, counted from `position`. -/
def misfit? (kind : ConstraintKind) :
    (position : Nat) → List (List SymbolKind) → List Symbol → Option ConstraintError
  | position, kinds :: rest, s :: symbols =>
    if s.kind ∈ kinds then misfit? kind (position + 1) rest symbols
    else some (.symbolKind kind position s.kind)
  | _, _, _ => none

/-- A constraint of the given kind on the given symbols. -/
def ofSymbols (kind : ConstraintKind) (symbols : List Symbol) : Except ConstraintError Constraint :=
  if symbols.length ≠ kind.arity then .error (.symbolCount kind symbols.length)
  else
    match misfit? kind 0 kind.accepted symbols with
    | some e => .error e
    | none =>
      match kind, symbols with
      | .attrsSub, [attrs, source] => .ok (.attrsSub attrs source)
      | .eq k, [left, right] => .ok (.eq k left right)
      | .unique, [table, attrs] => .ok (.unique table attrs)
      | .notNull, [table, attrs] => .ok (.notNull table attrs)
      | .reference, [table, attrs, refTable, refAttrs] =>
        .ok (.reference table attrs refTable refAttrs)
      | _, _ => .error (.symbolCount kind symbols.length)

/-- Whether a constraint says that a symbol of one side copies a symbol of the other. -/
def isCopy : Constraint → Bool
  | .eq _ left right => left.side ≠ right.side
  | _ => false

/-! ## Written form -/

/-- The written form; a symbol without a name is written by its side, kind and number. -/
def text (names : Names) (c : Constraint) : String :=
  c.kind.name ++ "(" ++ ",".intercalate (c.symbols.map names.label) ++ ")"

/-- The name of a kind and names of symbols between parentheses. -/
def scan : Scan (String × List String) := fun cs => do
  let (name, cs) ← Scan.word Scan.isNameChar cs
  let (args, cs) ← Scan.bracketed '(' ')' (Scan.spaced ',') (Scan.word Scan.isNameChar) cs
  return ((name, args), cs)

/-- The symbols with the given names. -/
def resolve (names : Names) : List String → Except ConstraintError (List Symbol)
  | [] => .ok []
  | name :: rest => do
    match names.symbolOf? name with
    | none => throw (.unknownSymbol name)
    | some s => return s :: (← resolve names rest)

/-- Read a constraint on named symbols. -/
def read (names : Names) (text : String) : Except ConstraintError Constraint := do
  let (name, args) ← (Scan.whole scan text.toList).mapError (.malformed text)
  match ConstraintKind.ofName? name with
  | none => throw (.unknownKind name)
  | some kind => ofSymbols kind (← resolve names args)

end Constraint

end QueryRules
