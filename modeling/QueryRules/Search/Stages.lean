import QueryRules.NormalForm.Tables
import QueryRules.Search.Partition
import QueryRules.Search.State

/-!
# The stages of a search

A search decides the constraints of a catalog stage by stage. A stage takes a choice, tries every
way to go on from it and hands each over to the next stage; at the end a complete choice is turned
into two queries and the oracle is asked.

In order, the stages

* draw every attribute list of the source from one of its possible sources;
* let every target symbol copy a source symbol: tables, then attribute lists, then predicates;
* check that both queries have the same number of columns;
* partition the source symbols into classes of equal ones, again kind by kind;
* decide which attribute lists are unique;
* check that the tables of one query are among those of the other;
* decide which attribute lists are never null, and which refer to others;
* look at the clock;
* ask the oracle.

The answers of later stages cut off earlier ones: what differs under some integrity constraints
also differs under fewer of them, and what differs under a partition also differs under its
refinements.
-/

namespace QueryRules

/-- What a search is about, and what it may use. -/
structure SearchTask where
  catalog : Catalog
  settings : Settings
  oracle : Oracle
  /-- The time passed at each look at the clock, in milliseconds. -/
  clock : Nat → Nat
  /-- The constraints of the catalog that are no integrity constraints. -/
  structural : List Constraint
  /-- The integrity constraints of the catalog, block by block. -/
  uniques : List Constraint
  notNulls : List Constraint
  references : List Constraint

namespace SearchTask

/-- The task of searching the rules of a catalog. -/
def ofCatalog (catalog : Catalog) (settings : Settings) (oracle : Oracle) (clock : Nat → Nat) :
    SearchTask where
  catalog := catalog
  settings := settings
  oracle := oracle
  clock := clock
  structural := catalog.entries.take (catalog.kindSpan .unique).start
  uniques := catalog.ofKind .unique
  notNulls := catalog.ofKind .notNull
  references := catalog.ofKind .reference

/-- The number of integrity constraints. -/
def integritySize (t : SearchTask) : Nat :=
  t.uniques.length + t.notNulls.length + t.references.length

/-- Whether a choice enables a constraint that is no integrity constraint. -/
def enables (c : Choice) : Constraint → Bool
  | .attrsSub attrs source => c.source? attrs = some source
  | .eq _ left right =>
    if left.side = right.side then c.isEq left right else c.copied? right = some left
  | _ => false

/-- The assignment of a choice. Integrity constraints that are not decided get the given flag. -/
def flags (t : SearchTask) (c : Choice) (undecided : Bool) : Assignment :=
  t.structural.map (enables c) ++ c.integrity
    ++ List.replicate (t.integritySize - c.integrity.length) undecided

/-- The rule of an assignment. -/
def rule (t : SearchTask) (flags : Assignment) : Rule :=
  t.catalog.rule flags

end SearchTask

/-- A stage: how to go on from a choice, given what comes next. -/
abbrev Stage :=
  (Choice → Search Answer) → Choice → Search Answer

namespace Search

variable {α : Type}

/-- Try all alternatives. The answer is that all differ, or else that some may be equal. When the
time is up the rest is left out. -/
def tryAllFrom (f : α → Search Answer) (allNeq : Bool) : List α → Search Answer
  | [] => return if allNeq then .neq else .eq
  | a :: rest => do
    match ← f a with
    | .timeout => return .timeout
    | .neq => tryAllFrom f allNeq rest
    | _ => tryAllFrom f false rest

/-- Try all alternatives. -/
def tryAll (f : α → Search Answer) (alternatives : List α) : Search Answer :=
  tryAllFrom f true alternatives

/-! ## Sources and copies -/

/-- Draw attribute lists from their possible sources. -/
def drawAll (next : Choice → Search Answer) : List (Symbol × List Symbol) → Choice → Search Answer
  | [], c => next c
  | (attrs, [source]) :: rest, c => drawAll next rest (c.draw attrs source)
  | (attrs, sources) :: rest, c =>
    tryAll (fun source => drawAll next rest (c.draw attrs source)) sources

/-- Draw every attribute list of the source from one of its possible sources. -/
def drawStage (t : SearchTask) : Stage := fun next c =>
  let source := t.catalog.source
  drawAll next ((source.symbolsOf .attrs).map fun a => (a, source.viableSources a)) c

/-- Let target symbols copy source symbols. -/
def copyAll (t : SearchTask) (candidates : List Symbol) (next : Choice → Search Answer) :
    List Symbol → Choice → Search Answer
  | [], c => next c
  | target :: rest, c =>
    tryAll (fun source =>
        if (t.catalog.copyPlace? source target).isNone then
          throw (.conflict (.noCopyPlace source target))
        else copyAll t candidates next rest (c.copy target source))
      (candidates.filter fun source => c.mayCopy t.catalog target source)

/-- Let every target symbol of a kind copy a source symbol. -/
def copyStage (t : SearchTask) (kind : SymbolKind) : Stage := fun next c =>
  copyAll t (t.catalog.source.symbolsOf kind) next (t.catalog.target.symbolsOf kind) c

/-! ## Checks -/

/-- The question whether the two queries of a rule are equal; none if the rule has no such
queries. -/
def question? (t : SearchTask) (r : Rule) : Search (Option Question) := do
  match r.concrete with
  | .error _ => return none
  | .ok concrete =>
    match concrete.source.denote, concrete.target.denote with
    | .ok l, .ok r =>
      match Question.ofDenotations l r concrete.facts with
      | .error e => throw (.normalForm e)
      | .ok q =>
        if t.settings.canonicalize then
          match q.canonicalize with
          | .error e => throw (.canonical e)
          | .ok q => return some q
        else return some q
    | _, _ => return none

/-- Queries with different numbers of columns differ. -/
def outputStage (t : SearchTask) : Stage := fun next c => do
  if t.settings.skipOutputCheck then next c
  else
    match (t.rule (t.flags c false)).concrete with
    | .error _ => return .unknown
    | .ok concrete =>
      if concrete.source.outputColumns.length ≠ concrete.target.outputColumns.length then
        modify (·.count fun s => { s with outputHits := s.outputHits + 1 })
        return .neq
      else next c

/-- Unless the tables of one query are among those of the other, the queries are not worth
comparing. Constraints on nulls and references are not decided yet; they count as chosen if the
search has decided some before. -/
def tableStage (t : SearchTask) : Stage := fun next c => do
  if t.settings.skipTableCheck then next c
  else
    let flags := t.flags c (← get).integrityReached
    modify (·.record (.tablesCompared flags))
    match ← question? t (t.rule flags) with
    | none => return .unknown
    | some q =>
      if Disj.tablesWithin q.left q.right || Disj.tablesWithin q.right q.left then next c
      else
        modify (·.count fun s => { s with tableHits := s.tableHits + 1 })
        return .unknown

/-- Look at the clock if there is a limit. -/
def clockStage (t : SearchTask) : Stage := fun next c => do
  match t.settings.timeout with
  | none => next c
  | some limit =>
    let look := (← get).looks
    modify fun s => { s with looks := look + 1 }
    if t.clock look ≥ limit then
      modify fun s => { s with timedOut := true }
      return .timeout
    else next c

/-! ## Partitions -/

/-- Go through the partitions of some symbols, from `p` on, `count` of them at most. A partition
that refines one for which all queries differ is left out, and so is one that makes attribute
lists equal that are drawn from different symbols. -/
def partitionFrom (kind : SymbolKind) (symbols : List Symbol) (next : Choice → Search Answer)
    (c : Choice) : (count : Nat) → (p : Partition) → (neqs : List Assignment) → (allNeq : Bool) →
      Search Answer
  | 0, _, _, allNeq => return if allNeq then .neq else .eq
  | count + 1, p, neqs, allNeq => do
    let c' := c.group symbols p
    let pairs := Catalog.pairs symbols
    let flags : Assignment := pairs.map fun (a, b) => c'.isEq a b
    let skipped := (kind = .attrs && c'.hasConflict pairs) || neqs.any (Assignment.ssubset flags ·)
    let answer ← if skipped then pure none else some <$> next c'
    let goOn (neqs : List Assignment) (allNeq : Bool) : Search Answer :=
      match p.next? with
      | some p => partitionFrom kind symbols next c count p neqs allNeq
      | none => return if allNeq then .neq else .eq
    match answer with
    | none => goOn neqs allNeq
    | some .timeout => return .timeout
    | some .neq => goOn (neqs.filter (!Assignment.ssubset · flags) ++ [flags]) allNeq
    | some _ => goOn neqs false

/-- The first two of some symbols that have no place in a catalog where they are equal. -/
def unplaced? (catalog : Catalog) (symbols : List Symbol) : Option (Symbol × Symbol) :=
  (Catalog.pairs symbols).find? fun (a, b) => (catalog.eqPlace? a b).isNone

/-- Partition the source symbols of a kind into classes of equal ones. In the first partition all
symbols are equal, so the place of every pair is needed at once. -/
def partitionStage (t : SearchTask) (kind : SymbolKind) : Stage := fun next c =>
  let symbols := t.catalog.source.symbolsOf kind
  let n := symbols.length
  if n = 0 then next c
  else
    match unplaced? t.catalog symbols with
    | some (a, b) => throw (.conflict (.noEqPlace a b))
    | none => partitionFrom kind symbols next c (Partition.bound n) (Partition.single n) [] true

/-! ## Integrity constraints -/

/-- What is known if `on` is the answer with a constraint and `off` the one without it. -/
def combine (on off : Option Answer) : Answer :=
  if on = some .eq ∨ off = some .eq then .eq
  else if on = some .unknown ∨ off = some .unknown then .unknown
  else .neq

/-- Decide integrity constraints of one kind from left to right: first with the constraint, then
without it. If the queries differ with it, they differ without it. -/
def decideAll (t : SearchTask) (next : Choice → Search Answer) :
    (earlier : List (Constraint × Bool)) → List Constraint → Choice → Search Answer
  | _, [], c => next c
  | earlier, e :: rest, c => do
    let forced := c.forced earlier e
    if forced = .conflict then throw (.conflict (.forced (e.text t.catalog.names)))
    let on ←
      if forced.mustDisable then pure none
      else some <$> decideAll t next (earlier ++ [(e, true)]) rest (c.decide true)
    if on = some .neq then return .neq
    else if on = some .timeout then return .timeout
    else
      let off ←
        if forced.mustEnable then pure none
        else some <$> decideAll t next (earlier ++ [(e, false)]) rest (c.decide false)
      if off = some .timeout then return .timeout
      else return combine on off

/-- Decide which attribute lists are unique. -/
def uniqueStage (t : SearchTask) : Stage := fun next c =>
  decideAll t next [] t.uniques c

/-- Decide which attribute lists are never null. -/
def notNullStage (t : SearchTask) : Stage := fun next c => do
  modify fun s => { s with integrityReached := true }
  decideAll t next [] t.notNulls c

/-- Decide which attribute lists refer to others. -/
def referenceStage (t : SearchTask) : Stage := fun next c =>
  decideAll t next [] t.references c

/-! ## Complete choices -/

/-- Answer a complete choice: by what is known about other assignments, or else by asking the
oracle. A dry run takes every choice for equal. -/
def answerLeaf (t : SearchTask) (c : Choice) : Search Answer := do
  modify (·.count fun s => { s with leaves := s.leaves + 1 })
  let flags := t.flags c false
  let s ← get
  if t.settings.isDryRun then
    modify (·.rememberEq flags)
    return .eq
  else if s.isKnownEq flags then
    modify (·.count fun s => { s with cacheHits := s.cacheHits + 1 })
    return .eq
  else if s.isKnownNeq flags then
    modify (·.count fun s => { s with cacheHits := s.cacheHits + 1 })
    return .neq
  else
    match ← question? t (t.rule flags) with
    | none => return .unknown
    | some q =>
      modify (·.record (.asked q))
      modify (·.count fun s => { s with oracleCalls := s.oracleCalls + 1 })
      match t.oracle s.stats.oracleCalls q with
      | .error e => throw (.oracle e)
      | .ok .eq =>
        modify (·.rememberEq flags)
        return .eq
      | .ok .neq =>
        modify (·.rememberNeq flags)
        return .neq
      | .ok .unknown => return .unknown

/-- Answer a complete choice and record the answer. -/
def leafStage (t : SearchTask) (c : Choice) : Search Answer := do
  let answer ← answerLeaf t c
  modify (·.record (.leaf c answer))
  return answer

/-! ## The whole search -/

/-- The stages in order. The last one goes on to no other. -/
def stages (t : SearchTask) : List Stage :=
  [drawStage t, copyStage t .table, copyStage t .attrs, copyStage t .pred, outputStage t,
    partitionStage t .table, partitionStage t .attrs, partitionStage t .pred, uniqueStage t,
    tableStage t, notNullStage t, referenceStage t, clockStage t, fun _ => leafStage t]

/-- Run stages, the first of which has the given number. To go on after the last one is an error. -/
def runFrom (number : Nat) : List Stage → Choice → Search Answer
  | [], _ => throw (.conflict (.noStage number))
  | stage :: rest, c => stage (runFrom (number + 1) rest) c

/-- Go through all choices. -/
def explore (t : SearchTask) : Search Answer :=
  runFrom 0 (stages t) Choice.none

end Search

end QueryRules
