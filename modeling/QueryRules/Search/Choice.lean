import QueryRules.Catalog

/-!
# Choices

What a search has decided so far about the constraints of a catalog: from where the attribute
lists of the source are drawn, which source symbols the target symbols copy, which source symbols
are equal, and which integrity constraints hold.
-/

namespace QueryRules

/-- The decisions of a search. -/
structure Choice where
  /-- The attribute lists of the source, each with the symbol it is drawn from. -/
  sources : List (Symbol × Symbol)
  /-- The target symbols, each with the source symbol it copies. -/
  copies : List (Symbol × Symbol)
  /-- The source symbols, each with its block among the symbols of its kind. -/
  blocks : List (Symbol × Nat)
  /-- The flags of the integrity constraints in catalog order. -/
  integrity : List Bool
  deriving DecidableEq

namespace Choice

/-- Nothing is decided. -/
def none : Choice :=
  ⟨[], [], [], []⟩

/-- The symbol that an attribute list is drawn from. -/
def source? (c : Choice) (attrs : Symbol) : Option Symbol :=
  c.sources.lookup attrs

/-- The source symbol that a target symbol copies. -/
def copied? (c : Choice) (target : Symbol) : Option Symbol :=
  c.copies.lookup target

/-- Whether two source symbols are equal: they are the same, or of one kind and in one block. -/
def isEq (c : Choice) (a b : Symbol) : Bool :=
  a = b || (a.kind = b.kind &&
    match c.blocks.lookup a, c.blocks.lookup b with
    | some i, some j => i = j
    | _, _ => false)

/-- Whether two attribute lists are drawn from equal symbols. -/
def sourcesEq (c : Choice) (a b : Symbol) : Bool :=
  match c.source? a, c.source? b with
  | some x, some y => c.isEq x y
  | x, y => x = y

/-! ## Decisions -/

/-- Draw an attribute list from a symbol. -/
def draw (c : Choice) (attrs source : Symbol) : Choice :=
  { c with sources := c.sources ++ [(attrs, source)] }

/-- Let a target symbol copy a source symbol. -/
def copy (c : Choice) (target source : Symbol) : Choice :=
  { c with copies := c.copies ++ [(target, source)] }

/-- Distribute source symbols of one kind over blocks. -/
def group (c : Choice) (symbols : List Symbol) (blocks : List Nat) : Choice :=
  { c with blocks := c.blocks ++ symbols.zip blocks }

/-- Decide the next integrity constraint. -/
def decide (c : Choice) (flag : Bool) : Choice :=
  { c with integrity := c.integrity ++ [flag] }

/-! ## What may be decided -/

/-- Whether the chain of sources of an attribute list meets one of the wanted symbols, `bound`
steps at most. -/
def reaches (c : Choice) (wanted : List Symbol) : (bound : Nat) → (attrs : Symbol) → Bool
  | 0, _ => false
  | bound + 1, attrs =>
    match c.source? attrs with
    | some s =>
      if s ∈ wanted then true
      else if s.kind = .attrs then reaches c wanted bound s
      else false
    | .none => false

/-- Whether a target symbol may copy a source symbol. Different tables copy different tables. An
attribute list may copy one that comes, directly or through projections, from what one of its own
possible sources copies. -/
def mayCopy (c : Choice) (catalog : Catalog) (target source : Symbol) : Bool :=
  match target.kind with
  | .table => !c.copies.any fun (t, s) => s = source && t ≠ target
  | .attrs =>
    let wanted := (catalog.viableSources target).filterMap c.copied?
    c.reaches wanted catalog.source.symbols.length source
  | .pred => true

/-- Whether two equal attribute lists among the given ones are drawn from different symbols. -/
def hasConflict (c : Choice) (pairs : List (Symbol × Symbol)) : Bool :=
  pairs.any fun (a, b) => c.isEq a b && !c.sourcesEq a b

/-! ## Integrity constraints -/

/-- The tables of an integrity constraint, each with the attribute list next to it. -/
def columnsOf : Constraint → List (Symbol × Symbol)
  | .unique table attrs => [(table, attrs)]
  | .notNull table attrs => [(table, attrs)]
  | .reference table attrs refTable refAttrs => [(table, attrs), (refTable, refAttrs)]
  | _ => []

/-- Whether every attribute list of an integrity constraint is drawn from the table next to it. -/
def conforms (c : Choice) (e : Constraint) : Bool :=
  (columnsOf e).all fun (table, attrs) => c.source? attrs = some table

/-- Whether two integrity constraints of one kind are about equal attribute lists. -/
def alike (c : Choice) (e e' : Constraint) : Bool :=
  ((columnsOf e).zip (columnsOf e')).all fun ((_, a), (_, b)) => c.isEq a b

/-- Whether a reference goes from an attribute list to an equal one. -/
def isTrivialReference (c : Choice) : Constraint → Bool
  | .reference _ attrs _ refAttrs => c.isEq attrs refAttrs
  | _ => false

end Choice

/-! ## Forced decisions -/

/-- How earlier decisions bind a later one. -/
structure Forced where
  mustEnable : Bool
  mustDisable : Bool
  deriving DecidableEq

namespace Forced

/-- Nothing is forced. -/
def free : Forced :=
  ⟨false, false⟩

/-- The constraint must hold. -/
def enable : Forced :=
  ⟨true, false⟩

/-- The constraint must not hold. -/
def disable : Forced :=
  ⟨false, true⟩

/-- Contradicting demands. -/
def conflict : Forced :=
  ⟨true, true⟩

/-- Both demands. -/
def union (a b : Forced) : Forced :=
  ⟨a.mustEnable || b.mustEnable, a.mustDisable || b.mustDisable⟩

/-- The demand of a flag that was decided for a constraint alike. -/
def ofFlag (flag : Bool) : Forced :=
  if flag then enable else disable

end Forced

namespace Choice

/-- What is forced on an integrity constraint. One that does not conform is off. A trivial
reference is on. One that is about the same attribute lists as an earlier one that conforms has
the same flag. -/
def forced (c : Choice) (earlier : List (Constraint × Bool)) (e : Constraint) : Forced :=
  if !c.conforms e then .disable
  else
    let start := if c.isTrivialReference e then Forced.enable else Forced.free
    earlier.foldl (fun f (e', flag) =>
      if c.conforms e' && c.alike e' e then f.union (.ofFlag flag) else f) start

end Choice

end QueryRules
