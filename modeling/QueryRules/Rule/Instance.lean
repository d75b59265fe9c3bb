import QueryRules.Plan
import QueryRules.Rule
import QueryRules.Schema

/-!
# Concrete queries of a rule

A rule is made concrete by inventing relations, columns and predicates for the symbols of its
source template. Equal tables become the same relation, equal attribute lists the same column,
equal predicates the same name; an attribute list that is drawn from a projection is the column of
that projection. The symbols of the target template copy those of the source. The integrity
constraints become facts about the relations.

Every relation has one column more than the attribute lists need, so a table is never just its
keys.
-/

namespace QueryRules

/-- Why a rule cannot be made concrete. -/
inductive InstanceError where
  | missingSource (attrs : Symbol)
  | notCopied (target : Symbol)
  | unresolved (attrs : Symbol)
  | endlessSource (attrs : Symbol)
  deriving DecidableEq

/-- The message of an instance error. -/
def InstanceError.message : InstanceError → String
  | .missingSource s => "attrs " ++ s.text ++ " has no enabled source"
  | .notCopied s => "target symbol " ++ s.text ++ " is not instantiated"
  | .unresolved s => "attrs " ++ s.text ++ " does not resolve to a relation below its operator"
  | .endlessSource s => "source chain of " ++ s.text ++ " does not end at a table"

/-- What was invented for the symbols of the source template of a rule. -/
structure Instance where
  rule : Rule
  classes : Congruence Symbol
  /-- The tables in order, each with the number of its relation. -/
  tables : List (Symbol × Nat)
  /-- The columns of the relations. -/
  relations : List (List String)
  /-- The column of each attribute list; none if it is drawn from a projection. -/
  columns : List (Symbol × Option String)
  /-- The number of columns invented so far. -/
  nextColumn : Nat
  /-- The name of each predicate. -/
  preds : List (Symbol × String)

namespace Instance

/-- Nothing invented yet. -/
def ofRule (r : Rule) : Instance :=
  ⟨r, r.classes, [], [], [], 0, []⟩

/-- The name of a relation. -/
def relationName (i : Nat) : String :=
  "r" ++ i.repr

/-- A new column of a relation. -/
def addColumn (inst : Instance) (relation : Nat) : String × Instance :=
  let column := "c" ++ inst.nextColumn.repr
  (column, { inst with
    relations := inst.relations.modify relation (· ++ [column])
    nextColumn := inst.nextColumn + 1 })

/-- A relation for a table: that of the first earlier table equal to it, or else a new one. -/
def addTable (inst : Instance) (table : Symbol) : Instance :=
  match inst.tables.find? fun (t, _) => inst.classes.same t table with
  | some (_, relation) => { inst with tables := inst.tables ++ [(table, relation)] }
  | none => { inst with
      tables := inst.tables ++ [(table, inst.relations.length)]
      relations := inst.relations ++ [[]] }

/-- A column for an attribute list that is drawn from a table: that of the first earlier attribute
list that is equal to it and has one, or else a new column of the table's relation. -/
def addAttrs (inst : Instance) (attrs : Symbol) : Except InstanceError Instance := do
  match inst.rule.sourceOf? attrs with
  | none => throw (.missingSource attrs)
  | some source =>
    if source.kind = .attrs then
      return { inst with columns := inst.columns ++ [(attrs, none)] }
    else
      match inst.columns.findSome? fun (a, c) => if inst.classes.same a attrs then c else none with
      | some column => return { inst with columns := inst.columns ++ [(attrs, some column)] }
      | none =>
        match inst.tables.lookup source with
        | none => throw (.missingSource attrs)
        | some relation =>
          let (column, inst) := inst.addColumn relation
          return { inst with columns := inst.columns ++ [(attrs, some column)] }

/-- A name for a predicate: that of the first earlier predicate equal to it, or else a new one. -/
def addPred (inst : Instance) (pred : Symbol) : Instance :=
  let name := match inst.preds.find? fun (p, _) => inst.classes.same p pred with
    | some (_, name) => name
    | none => "p" ++ inst.preds.length.repr
  { inst with preds := inst.preds ++ [(pred, name)] }

/-- Relations, columns and names for all symbols of the source template. -/
def invent (r : Rule) : Except InstanceError Instance := do
  let inst := (r.source.symbolsOf .table).foldl addTable (ofRule r)
  let inst ← (r.source.symbolsOf .attrs).foldlM addAttrs inst
  let inst := (r.source.symbolsOf .pred).foldl addPred inst
  -- one column that no attribute list refers to
  return (List.range inst.relations.length).foldl (fun inst i => (inst.addColumn i).2) inst

/-! ## From symbols to what was invented -/

/-- The source symbol that stands for a symbol. -/
def resolve (inst : Instance) (s : Symbol) : Except InstanceError Symbol :=
  match s.side with
  | .source => .ok s
  | .target =>
    match inst.rule.copiedBy? s with
    | some t => .ok t
    | none => .error (.notCopied s)

/-- A bound on the length of a chain of sources. -/
def chainBound (inst : Instance) : Nat :=
  inst.rule.source.symbols.length + 1

/-- Follow the sources of `current` up to an attribute list with a column of its own, `bound`
steps at most. -/
def columnFrom (inst : Instance) (attrs : Symbol) : (bound : Nat) → (current : Symbol) →
    Except InstanceError String
  | 0, _ => .error (.endlessSource attrs)
  | bound + 1, current =>
    match inst.columns.lookup current with
    | some (some column) => .ok column
    | none => .error (.missingSource current)
    | some none =>
      match inst.rule.sourceOf? current with
      | some source => columnFrom inst attrs bound source
      | none => .error (.missingSource current)

/-- The column of an attribute list. -/
def columnOf (inst : Instance) (attrs : Symbol) : Except InstanceError String := do
  inst.columnFrom attrs inst.chainBound (← inst.resolve attrs)

/-- Follow the sources of `current` up to a table, `bound` steps at most. -/
def tableFrom (inst : Instance) (attrs : Symbol) : (bound : Nat) → (current : Symbol) →
    Except InstanceError Symbol
  | 0, _ => .error (.endlessSource attrs)
  | bound + 1, current =>
    match inst.rule.sourceOf? current with
    | none => .error (.missingSource current)
    | some source => if source.kind = .table then .ok source else tableFrom inst attrs bound source

/-- The table at the end of the chain of sources of an attribute list. -/
def tableOf (inst : Instance) (attrs : Symbol) : Except InstanceError Symbol := do
  inst.tableFrom attrs inst.chainBound (← inst.resolve attrs)

/-- A reference to the column of an attribute list. The aliases say through which relation or
projection the columns of a table are seen. -/
def columnRef (inst : Instance) (attrs : Symbol) (aliases : List (Symbol × String)) :
    Except InstanceError Scalar := do
  let column ← inst.columnOf attrs
  let table ← inst.tableOf attrs
  match aliases.lookup table with
  | some aliasName => return .column aliasName column
  | none => throw (.unresolved attrs)

/-! ## Plans and facts -/

/-- A step of building plans: the number of the next projection is threaded through. -/
abbrev Build :=
  StateT Nat (Except InstanceError)

/-- The alias of the next projection. -/
def nextProjection : Build String := do
  let n ← getModify (· + 1)
  return "q" ++ n.repr

/-- The alias of a table: its place among the tables. -/
def tableAlias (inst : Instance) (table : Symbol) : String :=
  "t" ++ ((inst.tables.map (·.1)).idxOf table).repr

/-- The plan of a template, and the alias through which the columns of each table below it are
seen. A projection hides the aliases below it behind its own. -/
def build (inst : Instance) : Template → Build (Plan × List (Symbol × String))
  | .input table => do
    let source ← inst.resolve table
    match inst.tables.lookup source with
    | none => throw (.notCopied table)
    | some relation =>
      let aliasName := inst.tableAlias source
      let columns := inst.relations.getD relation []
      return (.input (relationName relation) aliasName columns, [(source, aliasName)])
  | .proj dedup attrs p => do
    let (plan, aliases) ← inst.build p
    let column ← inst.columnRef attrs aliases
    let name := match column with
      | .column _ c => c
      | other => other.text
    let aliasName ← nextProjection
    return (.proj plan [⟨column, name⟩] dedup aliasName, aliases.map fun (s, _) => (s, aliasName))
  | .filter pred attrs p => do
    let (plan, aliases) ← inst.build p
    let column ← inst.columnRef attrs aliases
    let source ← inst.resolve pred
    match inst.preds.lookup source with
    | some name => return (.filter plan (.call name [column]), aliases)
    | none => throw (.notCopied pred)
  | .inSub attrs p q => do
    let (outer, aliases) ← inst.build p
    let (inner, innerAliases) ← inst.build q
    let column ← inst.columnRef attrs aliases
    return (.inSub outer [column] inner, aliases ++ innerAliases)
  | .join kind leftAttrs rightAttrs l r => do
    let (left, leftAliases) ← inst.build l
    let (right, rightAliases) ← inst.build r
    let lhs ← inst.columnRef leftAttrs leftAliases
    let rhs ← inst.columnRef rightAttrs rightAliases
    let kind := match kind with
      | .inner => JoinKind.inner
      | .left => JoinKind.left
    return (.join kind left right (some (.eq lhs rhs)), leftAliases ++ rightAliases)
  | .union dedup l r => do
    let (left, leftAliases) ← inst.build l
    let (right, rightAliases) ← inst.build r
    return (.setOp .union dedup left right, leftAliases ++ rightAliases)

/-- The relation of a table. -/
def relationOf? (inst : Instance) (table : Symbol) : Option String :=
  (inst.tables.lookup table).map relationName

/-- The column that an attribute list has of its own. -/
def ownColumn? (inst : Instance) (attrs : Symbol) : Option String :=
  (inst.columns.lookup attrs).join

/-- Add a value to the end of a list, unless it is there already. -/
def addNew {α : Type} [DecidableEq α] (xs : List α) (x : α) : List α :=
  if x ∈ xs then xs else xs ++ [x]

/-- Add the fact that a constraint states, if its tables and attribute lists have relations and
columns. -/
def addFact (inst : Instance) (facts : Facts) : Constraint → Facts
  | .unique table attrs =>
    match inst.relationOf? table, inst.ownColumn? attrs with
    | some r, some c => { facts with uniqueKeys := addNew facts.uniqueKeys ⟨r, [c]⟩ }
    | _, _ => facts
  | .notNull table attrs =>
    match inst.relationOf? table, inst.ownColumn? attrs with
    | some r, some c => { facts with notNull := addNew facts.notNull ⟨r, c⟩ }
    | _, _ => facts
  | .reference table attrs refTable refAttrs =>
    match inst.relationOf? table, inst.ownColumn? attrs, inst.relationOf? refTable,
      inst.ownColumn? refAttrs with
    | some r, some c, some r', some c' =>
      { facts with foreignKeys := addNew facts.foreignKeys ⟨r, [c], r', [c']⟩ }
    | _, _, _, _ => facts
  | _ => facts

/-- The integrity facts of the rule. -/
def facts (inst : Instance) : Facts :=
  inst.rule.constraints.foldl inst.addFact Facts.none

end Instance

/-- The two plans of a rule and the facts they are compared under. -/
structure ConcreteRule where
  source : Plan
  target : Plan
  facts : Facts

/-- Make a rule concrete: invent relations, then build the source and the target plan. -/
def Rule.concrete (r : Rule) : Except InstanceError ConcreteRule := do
  let inst ← Instance.invent r
  let ((source, _), next) ← (inst.build r.source).run 0
  let ((target, _), _) ← (inst.build r.target).run next
  return ⟨source, target, inst.facts⟩

end QueryRules
