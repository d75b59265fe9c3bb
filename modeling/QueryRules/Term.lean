import QueryRules.OrderedSet
import QueryRules.Tuple

/-!
# Terms

A term denotes how often a query returns a row. Atoms are the multiplicity `R(x)` of a row in a
table, an uninterpreted predicate `[p(x, y)]` and an equality `[x = y]`, the last two counting as
zero or one. Terms are closed under addition, multiplication, negation, truncation to zero or one
(squash) and summation over row variables.

A `Term.sum` may carry any list of tuples as binders, also the empty one; `Term.sumOver` is the
constructor that collapses the empty summation.
-/

namespace QueryRules

/-- A term over tables, predicates and equalities. -/
inductive Term where
  | table (name : String) (row : Tuple)
  | pred (name : String) (args : List Tuple)
  | eq (left right : Tuple)
  | add (left right : Term)
  | mul (left right : Term)
  | not (inner : Term)
  | sum (vars : List Tuple) (body : Term)
  | squash (inner : Term)
  deriving DecidableEq, Inhabited

namespace Term

/-! ## Kinds -/

/-- The outermost shape of a term. -/
inductive Kind where
  | table | pred | eq | add | mul | not | sum | squash
  deriving DecidableEq

/-- All kinds, in the order in which terms of different kinds are compared. -/
def Kind.all : List Kind :=
  [.table, .pred, .eq, .add, .mul, .not, .sum, .squash]

/-- The written name of a kind. -/
def Kind.name : Kind → String
  | .table => "Table"
  | .pred => "Pred"
  | .eq => "EqPred"
  | .add => "Add"
  | .mul => "Mul"
  | .not => "Not"
  | .sum => "Sum"
  | .squash => "Squash"

/-- The number of subterms of a term of this kind. -/
def Kind.arity : Kind → Nat
  | .table | .pred | .eq => 0
  | .not | .sum | .squash => 1
  | .add | .mul => 2

/-- The place of a kind in `Kind.all`. -/
def Kind.rank : Kind → Nat
  | .table => 0
  | .pred => 1
  | .eq => 2
  | .add => 3
  | .mul => 4
  | .not => 5
  | .sum => 6
  | .squash => 7

/-- Predicates and equalities count as zero or one. -/
def Kind.isPred : Kind → Bool
  | .pred | .eq => true
  | _ => false

/-- The outermost shape of a term. -/
def kind : Term → Kind
  | .table .. => .table
  | .pred .. => .pred
  | .eq .. => .eq
  | .add .. => .add
  | .mul .. => .mul
  | .not _ => .not
  | .sum .. => .sum
  | .squash _ => .squash

/-- A term without subterms. -/
def isAtom (t : Term) : Bool :=
  t.kind.arity == 0

/-! ## Building terms -/

/-- The unit of multiplication, the trivially true `[1 = 1]`. -/
def unit : Term :=
  .eq (.const "1") (.const "1")

/-- The unit of addition, the negated unit. -/
def zero : Term :=
  .not unit

/-- The name of the predicate that holds of everything but null. -/
def notNullName : String :=
  "NotNull"

/-- `[NotNull(t)]`. -/
def notNull (t : Tuple) : Term :=
  .pred notNullName [t]

/-- Summation over `vars`; summing over no variables is the body itself. -/
def sumOver (vars : List Tuple) (body : Term) : Term :=
  if vars.isEmpty then body else .sum vars body

/-- The left-deep product of a list of terms, if there are any. -/
def product? : List Term → Option Term
  | [] => none
  | t :: ts => some (ts.foldl .mul t)

/-- The left-deep sum of a list of terms, if there are any. -/
def total? : List Term → Option Term
  | [] => none
  | t :: ts => some (ts.foldl .add t)

/-- The left-deep product; the empty product is the unit. -/
def product (ts : List Term) : Term :=
  (product? ts).getD unit

/-! ## Parts of a term -/

/-- The subterm with the given index: zero for the left or only one, one for the right one. -/
def child? : Term → Nat → Option Term
  | .add l _, 0 | .mul l _, 0 => some l
  | .add _ r, 1 | .mul _ r, 1 => some r
  | .not t, 0 | .squash t, 0 => some t
  | .sum _ body, 0 => some body
  | _, _ => none

/-- The factors of a left-deep product, leftmost first. Only the left spine is followed, so a
product on the right counts as one factor. -/
def factors : Term → List Term
  | .mul l r => factors l ++ [r]
  | t => [t]

/-- How many factors of a left-deep product have a property. -/
def countFactors (p : Term → Bool) : Term → Nat
  | .mul l r => countFactors p l + if p r then 1 else 0
  | t => if p t then 1 else 0

/-- Counting along the left spine counts in the list of factors. -/
theorem countFactors_eq_countP (p : Term → Bool) (t : Term) :
    t.countFactors p = t.factors.countP p := by
  fun_induction factors t with
  | case1 l r ih => simp [countFactors, ih, List.countP_append, List.countP_singleton]
  | case2 t h =>
    rw [countFactors.eq_2 p t h]
    simp [List.countP_singleton]

/-- The summands of a left-deep sum, leftmost first; a sum on the right counts as one summand. -/
def summands : Term → List Term
  | .add l r => summands l ++ [r]
  | t => [t]

/-! ## Variables -/

/-- Whether `v` occurs in a term, in an atom or as a binder. -/
def uses : (t : Term) → (v : Tuple) → Bool
  | .table _ row, v => row.uses v
  | .pred _ args, v => Tuple.anyUses args v
  | .eq l r, v => l.uses v || r.uses v
  | .add l r, v | .mul l r, v => l.uses v || r.uses v
  | .not t, v | .squash t, v => t.uses v
  | .sum vars body, v => decide (v ∈ vars) || body.uses v

/-- Replace `source` by `image` in every atom and in every binder list. -/
def subst : (t : Term) → (source image : Tuple) → Term
  | .table n row, source, image => .table n (row.subst source image)
  | .pred n args, source, image => .pred n (Tuple.substAll args source image)
  | .eq l r, source, image => .eq (l.subst source image) (r.subst source image)
  | .add l r, source, image => .add (l.subst source image) (r.subst source image)
  | .mul l r, source, image => .mul (l.subst source image) (r.subst source image)
  | .not t, source, image => .not (t.subst source image)
  | .squash t, source, image => .squash (t.subst source image)
  | .sum vars body, source, image =>
    .sum (Tuple.substAll vars source image) (body.subst source image)

/-- The row variables of the atoms of a term, appended to those already `seen`. -/
def collectAtomVars (seen : List Tuple) : Term → List Tuple
  | .table _ row => row.collectVars seen
  | .pred _ args => Tuple.collectVarsAll seen args
  | .eq l r => Tuple.collectVars (Tuple.collectVars seen l) r
  | .add l r | .mul l r => collectAtomVars (collectAtomVars seen l) r
  | .not t | .squash t => collectAtomVars seen t
  | .sum _ body => collectAtomVars seen body

/-- The row variables of the atoms of a term in the order of their first occurrence. -/
def atomVars (t : Term) : List Tuple :=
  t.collectAtomVars []

/-- The row variables of the atoms of a term that no summation around them binds, those in `bound`
included, added to the set `seen`. -/
def collectFreeVars (bound : List Tuple) (seen : OrderedSet Tuple) : Term → OrderedSet Tuple
  | .sum vars body => collectFreeVars (bound ++ vars) seen body
  | .add l r | .mul l r => collectFreeVars bound (collectFreeVars bound seen l) r
  | .not t | .squash t => collectFreeVars bound seen t
  | .table n row => seen.insertAll ((atomVars (.table n row)).filter (· ∉ bound))
  | .pred n args => seen.insertAll ((atomVars (.pred n args)).filter (· ∉ bound))
  | .eq l r => seen.insertAll ((atomVars (.eq l r)).filter (· ∉ bound))

/-- The free row variables of a term, in increasing order. -/
def freeVars (t : Term) : OrderedSet Tuple :=
  t.collectFreeVars [] []

/-- The names of all row variables of a term, binders included, added to the set `seen`. -/
def collectNames (seen : OrderedSet String) : Term → OrderedSet String
  | .sum vars body => collectNames (seen.insertAll (vars.filterMap Tuple.name?)) body
  | .add l r | .mul l r => collectNames (collectNames seen l) r
  | .not t | .squash t => collectNames seen t
  | .table n row => seen.insertAll ((atomVars (.table n row)).filterMap Tuple.name?)
  | .pred n args => seen.insertAll ((atomVars (.pred n args)).filterMap Tuple.name?)
  | .eq l r => seen.insertAll ((atomVars (.eq l r)).filterMap Tuple.name?)

/-- The names of all row variables of a term, binders included, in increasing order. -/
def varNames (t : Term) : OrderedSet String :=
  t.collectNames []

/-! ## Order -/

/-- The structural order of terms: by kind, then by the parts from left to right. -/
def compare : Term → Term → Ordering
  | .table m a, .table n b => (Ord.compare m n).then (Tuple.compare a b)
  | .pred m as, .pred n bs => (Ord.compare m n).then (Tuple.compareList as bs)
  | .eq a b, .eq c d => (Tuple.compare a c).then (Tuple.compare b d)
  | .add a b, .add c d => (compare a c).then (compare b d)
  | .mul a b, .mul c d => (compare a c).then (compare b d)
  | .not a, .not b => compare a b
  | .sum vs a, .sum ws b => (Tuple.compareList vs ws).then (compare a b)
  | .squash a, .squash b => compare a b
  | a, b => Ord.compare a.kind.rank b.kind.rank

/-! ## Text -/

/-- The written form `shown` of a factor `t`; a sum that is a factor stands in parentheses. -/
def factorText (t : Term) (shown : String) : String :=
  if t.kind = .add then "(" ++ shown ++ ")" else shown

/-- The written form of a term. -/
def text : Term → String
  | .table n row => n ++ "(" ++ row.text ++ ")"
  | .pred n args => "[" ++ n ++ "(" ++ Tuple.textAll args ++ ")]"
  | .eq l r => "[" ++ l.text ++ " = " ++ r.text ++ "]"
  | .add l r => text l ++ " + " ++ text r
  | .mul l r => factorText l (text l) ++ " * " ++ factorText r (text r)
  | .not t => "not(" ++ text t ++ ")"
  | .squash t => "||" ++ text t ++ "||"
  | .sum vars body => "Sum\x7b" ++ Tuple.textAll vars ++ "\x7d(" ++ text body ++ ")"

end Term

end QueryRules
