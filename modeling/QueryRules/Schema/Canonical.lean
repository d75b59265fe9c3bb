import QueryRules.Schema.NotNull
import QueryRules.Schema.UniqueKey

/-!
# Canonical forms

The schema facts let normal forms of different shape meet: bound variables that are forced are
eliminated, implied predicates are dropped, unique keys are used, and the bound variables are
named anew.
-/

namespace QueryRules

/-- The canonical form of a normal form under the given facts and constants. -/
def Disj.canonicalize (d : Disj) (facts : Facts) (consts : Constants) :
    Except CanonicalError Disj := do
  let d := d.eliminateConstants consts
  let d := d.eliminateUnranged
  let d := d.dropNotNull facts
  let d ← d.useUniqueKeys facts consts
  return d.renameBound

end QueryRules
