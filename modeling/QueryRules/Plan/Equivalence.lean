import QueryRules.Isomorphism
import QueryRules.Plan.Denotation
import QueryRules.Schema.Canonical
import QueryRules.Schema.ForeignKey

/-!
# Comparing two plans

Two plans are compared by their terms. Foreign keys are expanded in each term and it is
normalized; the normal form can be brought into canonical form. The plans are equivalent under the
facts when their canonical forms are isomorphic. The variables that either plan leaves free count
as constants.
-/

namespace QueryRules

/-! ## Questions -/

/-- Whether two normal forms have the same value under the facts, whatever the free variables are.
-/
structure Question where
  left : Disj
  right : Disj
  facts : Facts
  freeVars : List Tuple
  deriving DecidableEq

namespace Question

/-- The question whether two denotations are equal: both are normalized, the left one first. -/
def ofDenotations (l r : Denotation) (facts : Facts) : Except NormalFormError Question := do
  let left ← (l.term.expandForeignKeys facts).normalize
  let right ← (r.term.expandForeignKeys facts).normalize
  return ⟨left, right, facts, l.freeVars ++ r.freeVars.filter (· ∉ l.freeVars)⟩

/-- The question about the canonical forms of both sides. -/
def canonicalize (q : Question) : Except CanonicalError Question := do
  let consts := Constants.ofList q.freeVars
  let left ← q.left.canonicalize q.facts consts
  let right ← q.right.canonicalize q.facts consts
  return { q with left, right }

/-- Whether both sides are isomorphic. -/
def isIsomorphic (q : Question) : Bool :=
  q.left.isIsomorphic q.right

end Question

/-! ## Comparisons -/

/-- Why two plans cannot be compared. -/
inductive CompareError where
  | denote (e : DenoteError)
  | normalForm (e : NormalFormError)
  | canonical (e : CanonicalError)

/-- The terms of two plans, and the question about their normal forms and about their canonical
forms. -/
structure Comparison where
  left : Term
  right : Term
  normalized : Question
  canonical : Question

/-- Compare two plans under given facts. -/
def Plan.compare (a b : Plan) (facts : Facts) : Except CompareError Comparison := do
  let l ← a.denote.mapError .denote
  let r ← b.denote.mapError .denote
  let normalized ← (Question.ofDenotations l r facts).mapError .normalForm
  let canonical ← normalized.canonicalize.mapError .canonical
  return ⟨l.term, r.term, normalized, canonical⟩

end QueryRules
