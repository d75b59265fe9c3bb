import QueryRules.NormalForm

/-!
# Tables of normal forms

How often the tables occur in the conjunctions of a normal form. Tables inside a squash or a
negation do not count.
-/

namespace QueryRules

/-- How often a table occurs in a conjunction. -/
def Conj.tableCount (c : Conj) (name : String) : Nat :=
  c.tables.countP (·.name = name)

/-- How often a table occurs in a conjunction of a disjunction, at most. -/
def Disj.tableCount (d : Disj) (name : String) : Nat :=
  (d.map (·.tableCount name)).foldl max 0

/-- Whether every table occurs in the second disjunction at least as often as in the first. -/
def Disj.tablesWithin (d e : Disj) : Bool :=
  d.all fun c => c.tables.all fun a => Disj.tableCount d a.name ≤ Disj.tableCount e a.name

end QueryRules
