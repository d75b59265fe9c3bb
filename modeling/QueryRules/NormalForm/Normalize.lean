import QueryRules.NormalForm.Binders
import QueryRules.NormalForm.Reader

/-!
# Normalization

A term is normalized by reducing it, reading the result as a disjunction and naming the bound
variables canonically.
-/

namespace QueryRules

/-- Read a reduced term as a disjunction with canonically named bound variables. -/
def Disj.ofReduced (t : Term) : Except NormalFormError Disj :=
  (Disj.ofTerm t).map Disj.renameBound

namespace Term

/-- The normal form of a term together with the steps that led to it, in the order in which they
were made. -/
def normalizeRecorded (t : Term) : Except NormalFormError (Disj × List Step) := do
  let p ← t.reduceRecorded.mapError .stepLimit
  let d ← Disj.ofReduced p.term
  return (d, p.steps.reverse)

/-- The normal form of a term. -/
def normalize (t : Term) : Except NormalFormError Disj := do
  let reduced ← t.reduce.mapError .stepLimit
  Disj.ofReduced reduced

end Term

end QueryRules
