import QueryRules.Search

/-!
# QueryRules — the tree of all choices

The search for rules cuts off whatever its answers allow. This module says what it would visit
without them: every complete choice that the stages let through, in order.
-/

namespace QueryRules

/-- The complete choices below a choice, in order, and whether constraints on nulls and references
are decided after them; both depend on whether such constraints were decided before. -/
abbrev SearchTree :=
  Bool → List Choice × Bool

namespace SearchTree

variable {α : Type}

/-- No choices. -/
def none : SearchTree :=
  fun reached => ([], reached)

/-- One tree after the other. -/
def append (l r : SearchTree) : SearchTree :=
  fun reached => ((l reached).1 ++ (r (l reached).2).1, (r (l reached).2).2)

/-- The trees of all alternatives, one after the other. -/
def all (f : α → SearchTree) : List α → SearchTree
  | [] => none
  | a :: rest => (f a).append (all f rest)

/-! ## Stages -/

/-- Draw attribute lists from their possible sources. -/
def drawAll (next : Choice → SearchTree) : List (Symbol × List Symbol) → Choice → SearchTree
  | [], c => next c
  | (attrs, sources) :: rest, c =>
    all (fun source => drawAll next rest (c.draw attrs source)) sources

/-- Draw every attribute list of the source from one of its possible sources. -/
def drawStage (t : SearchTask) (next : Choice → SearchTree) (c : Choice) : SearchTree :=
  let source := t.catalog.source
  drawAll next ((source.symbolsOf .attrs).map fun a => (a, source.viableSources a)) c

/-- Let target symbols copy source symbols. -/
def copyAll (t : SearchTask) (candidates : List Symbol) (next : Choice → SearchTree) :
    List Symbol → Choice → SearchTree
  | [], c => next c
  | target :: rest, c =>
    all (fun source => copyAll t candidates next rest (c.copy target source))
      (candidates.filter fun source => c.mayCopy t.catalog target source)

/-- Let every target symbol of a kind copy a source symbol. -/
def copyStage (t : SearchTask) (kind : SymbolKind) (next : Choice → SearchTree) (c : Choice) :
    SearchTree :=
  copyAll t (t.catalog.source.symbolsOf kind) next (t.catalog.target.symbolsOf kind) c

/-- Both queries have the same number of columns. -/
def outputStage (t : SearchTask) (next : Choice → SearchTree) (c : Choice) : SearchTree :=
  if t.settings.skipOutputCheck then next c
  else
    match (t.rule (t.flags c false)).concrete with
    | .error _ => none
    | .ok concrete =>
      if concrete.source.outputColumns.length ≠ concrete.target.outputColumns.length then none
      else next c

/-- Partition the source symbols of a kind in every way that makes no attribute lists equal that
are drawn from different symbols. -/
def partitionStage (t : SearchTask) (kind : SymbolKind) (next : Choice → SearchTree) (c : Choice) :
    SearchTree :=
  let symbols := t.catalog.source.symbolsOf kind
  all (fun p =>
    if kind = .attrs && (c.group symbols p).hasConflict (Catalog.pairs symbols) then none
    else next (c.group symbols p)) (Partition.all symbols.length)

/-- Decide integrity constraints of one kind, with and without each as far as nothing is forced. -/
def decideAll (next : Choice → SearchTree) :
    (earlier : List (Constraint × Bool)) → List Constraint → Choice → SearchTree
  | _, [], c => next c
  | earlier, e :: rest, c =>
    append
      (if (c.forced earlier e).mustDisable then none
        else decideAll next (earlier ++ [(e, true)]) rest (c.decide true))
      (if (c.forced earlier e).mustEnable then none
        else decideAll next (earlier ++ [(e, false)]) rest (c.decide false))

end SearchTree

namespace SearchTask

/-- The question about an assignment; none if its rule has no queries. -/
def question (t : SearchTask) (flags : Assignment) : Except SearchError (Option Question) :=
  ((Search.question? t (t.rule flags)).run.run SearchState.initial).1

/-- What the oracle says about an assignment, unknown if there is nothing to ask or if asking
fails. -/
def verdict (t : SearchTask) (flags : Assignment) : Verdict :=
  match t.question flags with
  | .ok (some q) =>
    match t.oracle 0 q with
    | .ok v => v
    | .error _ => .unknown
  | _ => .unknown

end SearchTask

namespace SearchTree

/-- The tables of one query are among those of the other. -/
def tableStage (t : SearchTask) (next : Choice → SearchTree) (c : Choice) : SearchTree :=
  if t.settings.skipTableCheck then next c
  else fun reached =>
    match t.question (t.flags c reached) with
    | .ok (some q) =>
      if Disj.tablesWithin q.left q.right || Disj.tablesWithin q.right q.left then next c reached
      else none reached
    | _ => none reached

/-- Decide which attribute lists are never null. -/
def notNullStage (t : SearchTask) (next : Choice → SearchTree) (c : Choice) : SearchTree :=
  fun _ => decideAll next [] t.notNulls c true

/-- A complete choice. -/
def leaf (c : Choice) : SearchTree :=
  fun reached => ([c], reached)

/-- All complete choices. There are both checks, but neither the cut after the answer `neq`, nor the
memory of a partition stage, nor the known assignments. -/
def root (t : SearchTask) : SearchTree :=
  [drawStage t, copyStage t .table, copyStage t .attrs, copyStage t .pred, outputStage t,
    partitionStage t .table, partitionStage t .attrs, partitionStage t .pred,
    fun next => decideAll next [] t.uniques, tableStage t, notNullStage t,
    fun next => decideAll next [] t.references].foldr (fun stage next => stage next) leaf
    Choice.none

end SearchTree

namespace SearchTask

/-- The assignments of all complete choices. -/
def leaves (t : SearchTask) : List Assignment :=
  (SearchTree.root t false).1.map (t.flags · false)

/-- An assignment is a smallest one among those complete choices for which the oracle says that
the queries are equal. -/
def IsMinimalEq (t : SearchTask) (flags : Assignment) : Prop :=
  (flags ∈ t.leaves ∧ t.verdict flags = .eq) ∧
    ∀ other ∈ t.leaves, t.verdict other = .eq → other.subset flags = true → other = flags

instance (t : SearchTask) (flags : Assignment) : Decidable (t.IsMinimalEq flags) :=
  inferInstanceAs (Decidable (_ ∧ _))

/-- The oracle is a function of the question, and on the assignments of complete choices it is
monotone: what makes the queries equal does so together with more constraints, and what leaves them
different does so with fewer. -/
structure IsMonotone (t : SearchTask) : Prop where
  pure : ∀ n q, t.oracle n q = t.oracle 0 q
  eq_up : ∀ a ∈ t.leaves, ∀ b ∈ t.leaves, Assignment.subset a b = true →
    t.verdict a = .eq → t.verdict b = .eq
  neq_down : ∀ a ∈ t.leaves, ∀ b ∈ t.leaves, Assignment.subset a b = true →
    t.verdict b = .neq → t.verdict a = .neq

end SearchTask

end QueryRules
