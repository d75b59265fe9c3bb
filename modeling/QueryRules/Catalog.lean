import QueryRules.Rule

/-!
# Catalogs

The catalog of a pair of templates lists every constraint that a rule between them may assume. The
constraints are added in a fixed order, and the places they fill are recorded at once: by kind, by
symbol, and by pair of symbols. The order is:

* from where each attribute list of the source is drawn;
* for tables, attribute lists and predicates, first the pairs of source symbols that may be equal,
  then the source symbols that each target symbol may copy;
* unique and never-null attribute lists of the source, with each table they may be drawn from;
* references between two attribute lists of the source, with the tables they may be drawn from.

An assignment says for every place of the catalog whether its constraint is assumed.
-/

namespace QueryRules

/-- A range of places: from `start` up to, but without, `stop`. -/
structure Span where
  start : Nat
  stop : Nat
  deriving DecidableEq

/-- A choice of constraints: one flag for each place of a catalog. -/
abbrev Assignment :=
  List Bool

/-- The maps from two symbols to the place of the constraint on them. -/
inductive PlaceMap where
  | sub
  | eq
  | copy
  deriving DecidableEq

/-- The constraints of a catalog, and what is recorded about their places while they are added. In
every map the newest record comes first. -/
structure CatalogIndex where
  entries : Array Constraint
  kindSpans : ConstraintKind → Span
  /-- The places where source symbols of a kind are equal. -/
  eqSpans : SymbolKind → Span
  /-- The places where target symbols of a kind copy source symbols. -/
  copySpans : SymbolKind → Span
  /-- The places of one symbol: of a source list that is drawn, of a target symbol that copies. -/
  symbolSpans : PlaceMap → List (Symbol × Span)
  places : PlaceMap → List ((Symbol × Symbol) × Nat)

namespace CatalogIndex

def empty : CatalogIndex where
  entries := #[]
  kindSpans _ := ⟨0, 0⟩
  eqSpans _ := ⟨0, 0⟩
  copySpans _ := ⟨0, 0⟩
  symbolSpans _ := []
  places _ := []

/-- Change a table at one key. -/
def write {κ β : Type} [DecidableEq κ] (table : κ → β) (key : κ) (value : β) : κ → β :=
  fun k => if k = key then value else table k

/-- Add a constraint at the end. -/
def push (x : CatalogIndex) (e : Constraint) : CatalogIndex :=
  { x with entries := x.entries.push e }

/-- Add a constraint on two symbols, and record its place. -/
def place (m : PlaceMap) (make : Symbol → Symbol → Constraint) (x : CatalogIndex)
    (pair : Symbol × Symbol) : CatalogIndex :=
  { x.push (make pair.1 pair.2) with
    places := write x.places m ((pair, x.entries.size) :: x.places m) }

/-- Add a constraint for each of some pairs. -/
def placeAll (m : PlaceMap) (make : Symbol → Symbol → Constraint) (row : List (Symbol × Symbol))
    (x : CatalogIndex) : CatalogIndex :=
  row.foldl (place m make) x

/-- Add constraints, and note which places they fill. -/
def within (note : Span → CatalogIndex → CatalogIndex) (add : CatalogIndex → CatalogIndex)
    (x : CatalogIndex) : CatalogIndex :=
  let y := add x
  note ⟨x.entries.size, y.entries.size⟩ y

def noteKind (kind : ConstraintKind) (span : Span) (x : CatalogIndex) : CatalogIndex :=
  { x with kindSpans := write x.kindSpans kind span }

def noteEqs (kind : SymbolKind) (span : Span) (x : CatalogIndex) : CatalogIndex :=
  { x with eqSpans := write x.eqSpans kind span }

def noteCopies (kind : SymbolKind) (span : Span) (x : CatalogIndex) : CatalogIndex :=
  { x with copySpans := write x.copySpans kind span }

def noteSymbol (m : PlaceMap) (s : Symbol) (span : Span) (x : CatalogIndex) : CatalogIndex :=
  { x with symbolSpans := write x.symbolSpans m ((s, span) :: x.symbolSpans m) }

/-- Add a row of constraints for each of some symbols. -/
def placeRows (m : PlaceMap) (make : Symbol → Symbol → Constraint)
    (row : Symbol → List (Symbol × Symbol)) (symbols : List Symbol) (x : CatalogIndex) :
    CatalogIndex :=
  symbols.foldl (fun x s => within (noteSymbol m s) (placeAll m make (row s)) x) x

/-- Add the equality of each symbol with every later one. -/
def placePairs (kind : SymbolKind) : List Symbol → CatalogIndex → CatalogIndex
  | [], x => x
  | a :: rest, x => placePairs kind rest (placeAll .eq (.eq kind) (rest.map (a, ·)) x)

/-- The recorded place of the constraint on two symbols. -/
def place? (x : CatalogIndex) (m : PlaceMap) (a b : Symbol) : Option Nat :=
  (x.places m).lookup (a, b)

/-- The recorded places of a symbol. -/
def symbolSpan (x : CatalogIndex) (m : PlaceMap) (s : Symbol) : Span :=
  ((x.symbolSpans m).lookup s).getD ⟨0, 0⟩

end CatalogIndex

/-- A source template, a target template, and the names of their symbols. -/
structure Catalog where
  source : Template
  target : Template
  names : Names
  deriving DecidableEq

namespace Catalog

/-! ## Candidates -/

/-- All pairs of an element and a later one. -/
def pairs {α : Type} : List α → List (α × α)
  | [] => []
  | a :: rest => rest.map (a, ·) ++ pairs rest

/-- The tables that an attribute list of the source may be drawn from. -/
def tableSources (c : Catalog) (attrs : Symbol) : List Symbol :=
  (c.source.viableSources attrs).filter fun s => s.kind = .table

/-! ## Building -/

/-- From where each attribute list of the source is drawn. -/
def addSubs (c : Catalog) : CatalogIndex → CatalogIndex :=
  CatalogIndex.within (.noteKind .attrsSub) <|
    CatalogIndex.placeRows .sub .attrsSub (fun a => (c.source.viableSources a).map (a, ·))
      (c.source.symbolsOf .attrs)

/-- The symbols of a kind: pairs of source symbols, then what each target symbol may copy. -/
def addEqs (c : Catalog) (x : CatalogIndex) (kind : SymbolKind) : CatalogIndex :=
  let candidates := c.source.symbolsOf kind
  let eqs := CatalogIndex.within (.noteEqs kind) (CatalogIndex.placePairs kind candidates)
  let copies := CatalogIndex.within (.noteCopies kind) <|
    CatalogIndex.placeRows .copy (.eq kind) (fun target => candidates.map (·, target))
      (c.target.symbolsOf kind)
  CatalogIndex.within (.noteKind (.eq kind)) (fun x => copies (eqs x)) x

/-- A property of each attribute list of the source in each of its tables. -/
def addKeys (c : Catalog) (kind : ConstraintKind) (make : Symbol → Symbol → Constraint) :
    CatalogIndex → CatalogIndex :=
  CatalogIndex.within (.noteKind kind) fun x =>
    (c.source.symbolsOf .attrs).foldl (fun x a =>
      (c.tableSources a).foldl (fun x table => x.push (make table a)) x) x

/-- References between different attribute lists of the source. -/
def addReferences (c : Catalog) : CatalogIndex → CatalogIndex :=
  CatalogIndex.within (.noteKind .reference) fun x =>
    (c.source.symbolsOf .attrs).foldl (fun x a =>
      (c.source.symbolsOf .attrs).foldl (fun x b =>
        if a = b then x
        else (c.tableSources a).foldl (fun x t =>
          (c.tableSources b).foldl (fun x u => x.push (.reference t a u b)) x) x) x) x

/-- The constraints of a catalog and their places. -/
def index (c : Catalog) : CatalogIndex :=
  let x := c.addSubs .empty
  let x := SymbolKind.all.foldl c.addEqs x
  let x := c.addKeys .unique .unique x
  let x := c.addKeys .notNull .notNull x
  c.addReferences x

/-- All constraints. -/
def entries (c : Catalog) : List Constraint :=
  c.index.entries.toList

/-! ## Places -/

/-- The places of the constraints of a kind. -/
def kindSpan (c : Catalog) (kind : ConstraintKind) : Span :=
  c.index.kindSpans kind

/-- The constraints at the places of a kind. -/
def ofKind (c : Catalog) (kind : ConstraintKind) : List Constraint :=
  c.entries.extract (c.kindSpan kind).start (c.kindSpan kind).stop

/-- The places where source symbols of a kind are equal. -/
def eqsSpan (c : Catalog) (kind : SymbolKind) : Span :=
  c.index.eqSpans kind

/-- The places where target symbols of a kind copy source symbols. -/
def copiesSpan (c : Catalog) (kind : SymbolKind) : Span :=
  c.index.copySpans kind

/-- The place where two source symbols are equal, in either order. -/
def eqPlace? (c : Catalog) (a b : Symbol) : Option Nat :=
  c.index.place? .eq a b <|> c.index.place? .eq b a

/-- The place where the target symbol `target` copies the source symbol `source`. -/
def copyPlace? (c : Catalog) (source target : Symbol) : Option Nat :=
  c.index.place? .copy source target

/-- The place where an attribute list is drawn from a symbol. -/
def subPlace? (c : Catalog) (attrs source : Symbol) : Option Nat :=
  c.index.place? .sub attrs source

/-- The places that decide from where an attribute list of the source is drawn; none for other
symbols. -/
def subSpan (c : Catalog) (attrs : Symbol) : Span :=
  c.index.symbolSpan .sub attrs

/-- The places that decide which symbol a target symbol copies; none for other symbols. -/
def copySpan (c : Catalog) (target : Symbol) : Span :=
  c.index.symbolSpan .copy target

/-- The symbols that an attribute list of either template may be drawn from. -/
def viableSources (c : Catalog) (attrs : Symbol) : List Symbol :=
  match attrs.side with
  | .source => c.source.viableSources attrs
  | .target => c.target.viableSources attrs

/-- The constraints that an assignment chooses. Flags beyond the end of the catalog, and places
beyond the end of the assignment, do not count. -/
def chosen (c : Catalog) (flags : Assignment) : List Constraint :=
  (c.entries.zip flags).filterMap fun (e, on) => if on then some e else none

/-- The rule that assumes the constraints of an assignment. -/
def rule (c : Catalog) (flags : Assignment) : Rule :=
  ⟨c.source, c.target, c.chosen flags, c.names⟩

end Catalog

end QueryRules
