import QueryRules.Search.Stages

/-!
# Searching rules

The rules between two templates: the smallest assignments of constraints under which the queries
of the templates are equal, as far as the oracle can tell.
-/

namespace QueryRules

/-- The result of a search. -/
structure SearchOutcome where
  /-- The rules in the order of discovery. -/
  rules : List Rule
  timedOut : Bool
  stats : SearchStats

/-- A search that has ended: its result, and the state in which it ended. -/
structure SearchRun where
  result : Except SearchError SearchOutcome
  final : SearchState

/-- Search the rules of a catalog. -/
def Catalog.search (catalog : Catalog) (settings : Settings) (oracle : Oracle) (clock : Nat → Nat) :
    SearchRun :=
  let t := SearchTask.ofCatalog catalog settings oracle clock
  match (Search.explore t).run.run SearchState.initial with
  | (.error e, s) => ⟨.error e, s⟩
  | (.ok _, s) => ⟨.ok ⟨s.eqs.map catalog.rule, s.timedOut, s.stats⟩, s⟩

/-- A written pair of templates. -/
structure TemplatePair where
  source : String
  target : String
  deriving DecidableEq

namespace TemplatePair

/-- Read both templates, the source first. -/
def catalog (p : TemplatePair) : Except TemplateError Catalog := do
  let (source, names) := Template.read p.source .source Names.empty
  let source ← source
  let (target, names) := Template.read p.target .target names
  let target ← target
  return ⟨source, target, names⟩

/-- Search the rules between two written templates. -/
def search (p : TemplatePair) (settings : Settings) (oracle : Oracle) (clock : Nat → Nat) :
    SearchRun :=
  match p.catalog with
  | .error e => ⟨.error (.template e), .initial⟩
  | .ok catalog =>
    let count := (catalog.source.symbolsOf .attrs).length + (catalog.target.symbolsOf .attrs).length
    if count ≥ attrsLimit then ⟨.error (.tooManyAttrs count), .initial⟩
    else catalog.search settings oracle clock

end TemplatePair

end QueryRules
