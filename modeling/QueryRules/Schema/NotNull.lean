import QueryRules.Schema.Elimination

/-!
# Columns that are never null

A predicate `[NotNull(t.c)]` is implied where a table atom `R(t)` in scope has a column `c` that
is declared to be never null. Atoms of a conjunction are in scope in the disjunctions nested in
it, except for variables that are bound again.
-/

namespace QueryRules

/-- The table atoms in scope. -/
abbrev TableScope := List TableAtom

/-- The scope inside a conjunction with the given binders and tables. -/
def TableScope.enter (scope : TableScope) (vars : List Tuple) (tables : List TableAtom) :
    TableScope :=
  scope.filter (·.row ∉ vars) ++ tables

/-- Whether the atoms in scope and the declared columns imply a predicate. -/
def TableScope.implies (scope : TableScope) (facts : Facts) : PredAtom → Bool
  | .pred name [.attr base column] =>
    name == Term.notNullName
      && scope.any fun a => a.row = base && facts.isNotNull a.name column
  | _ => false

mutual

/-- Drop the implied predicates of a conjunction and of what is nested in it. -/
def Conj.dropImplied (facts : Facts) (outer : TableScope) : Conj → Conj
  | ⟨vars, tables, preds, squash, negation⟩ =>
    let scope := outer.enter vars tables
    let kept := preds.filter fun p => !scope.implies facts p
    let c : Conj := ⟨vars, tables, preds, squash, negation⟩
    let c := if kept.length = preds.length then c else c.withPreds kept
    ⟨vars, tables, c.preds, Disj.dropImpliedOption facts scope squash,
      Disj.dropImpliedOption facts scope negation⟩

/-- Drop the implied predicates of an optional disjunction. -/
def Disj.dropImpliedOption (facts : Facts) (scope : TableScope) :
    Option (List Conj) → Option (List Conj)
  | none => none
  | some d => some (Disj.dropImpliedIn facts scope d)

/-- Drop the implied predicates of a disjunction. -/
def Disj.dropImpliedIn (facts : Facts) (scope : TableScope) : List Conj → List Conj
  | [] => []
  | c :: cs => c.dropImplied facts scope :: Disj.dropImpliedIn facts scope cs

end

/-- Drop every predicate `[NotNull(t.c)]` that a table atom in scope implies. -/
def Disj.dropNotNull (d : Disj) (facts : Facts) : Disj :=
  if facts.notNull.isEmpty then d else Disj.dropImpliedIn facts [] d

end QueryRules
