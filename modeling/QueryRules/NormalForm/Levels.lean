import QueryRules.NormalForm

/-!
# Working through the levels of a normal form

Several steps on normal forms change a conjunction together with what is nested in it, and then go
on with the nested disjunctions of the result. `Disj.descend` is that order of work: a conjunction
first, then its squash, then its negation, conjunctions from left to right.

The descent is counted by `Conj.depth`. A step that does not nest deeper is thereby applied to
every conjunction at every level.
-/

namespace QueryRules

variable {m : Type → Type} [Monad m]

/-- Apply a step to a conjunction and then to the conjunctions nested in the result, `levels`
deep. -/
def Conj.descend (step : Conj → m Conj) : (levels : Nat) → Conj → m Conj
  | 0, c => step c
  | levels + 1, c => do
    let c ← step c
    let squash ← c.squash.mapM (List.mapM (Conj.descend step levels))
    let negation ← c.negation.mapM (List.mapM (Conj.descend step levels))
    return { c with squash, negation }

/-- Apply a step to every conjunction of a disjunction, from the outermost level inwards. -/
def Disj.descend (step : Conj → m Conj) (d : Disj) : m Disj :=
  d.mapM fun c => c.descend step c.depth

end QueryRules
