import QueryRules.NormalForm

/-!
# Reading normal forms

A reduced term is read as a disjunction: its summands are the conjunctions, each a product under
at most one summation. `Disj.ofTerm` reads a disjunction and `Conj.ofTerm` a single conjunction. A
term of another shape is refused with the conjunction at fault and the reason.
-/

namespace QueryRules

/-- The factors of a product, sorted by shape. A squash or a negation is listed by what its body
reads as, which may be an error. -/
structure Factors where
  tables : List TableAtom
  preds : List PredAtom
  squashes : List (Except NormalFormError Disj)
  negations : List (Except NormalFormError Disj)

namespace Factors

/-- A product of one table atom. -/
def ofTable (name : String) (row : Tuple) : Factors :=
  ⟨[⟨name, row⟩], [], [], []⟩

/-- A product of one predicate atom. -/
def ofPred (p : PredAtom) : Factors :=
  ⟨[], [p], [], []⟩

/-- A product of one squash. -/
def ofSquash (body : Except NormalFormError Disj) : Factors :=
  ⟨[], [], [body], []⟩

/-- A product of one negation. -/
def ofNegation (body : Except NormalFormError Disj) : Factors :=
  ⟨[], [], [], [body]⟩

/-- The factors of two products together. -/
def append (a b : Factors) : Factors :=
  ⟨a.tables ++ b.tables, a.preds ++ b.preds, a.squashes ++ b.squashes,
    a.negations ++ b.negations⟩

/-- The factors of `left * right`, where `right` may not be a product again. -/
def ofMul (left : Except Misfit Factors) (right : Term) (ofRight : Except Misfit Factors) :
    Except Misfit Factors := do
  let a ← left
  if right.kind = .mul then throw .rightNestedProduct
  let b ← ofRight
  return a.append b

/-- The first of a list of readings, if there is one. -/
def first : List (Except NormalFormError Disj) → Except NormalFormError (Option Disj)
  | [] => .ok none
  | d :: _ => d.map some

/-- The conjunction with the given binders and factors. The error names the term `whole` that was
read. -/
def toConj (whole : Term) (vars : List Tuple) (f : Factors) : Except NormalFormError Conj :=
  if 2 ≤ f.squashes.length then .error (.notNormal whole .manySquashes)
  else if 2 ≤ f.negations.length then .error (.notNormal whole .manyNegations)
  else do
    let squash ← first f.squashes
    let negation ← first f.negations
    Conj.ofParts vars f.tables f.preds squash negation

/-- The one-conjunction disjunction with the given binders and factors, unless the factors could not
be sorted. -/
def toDisj (whole : Term) (vars : List Tuple) : Except Misfit Factors → Except NormalFormError Disj
  | .error reason => .error (.notNormal whole reason)
  | .ok f => (f.toConj whole vars).map ([·])

end Factors

mutual

/-- Read a term as a disjunction, one conjunction for each summand. -/
def Disj.ofTerm : Term → Except NormalFormError Disj
  | .add l r => do
    let cs ← Disj.ofTerm l
    if r.kind = .add then throw (.notNormal r .sumInProduct)
    let c ← Disj.ofTerm r
    return cs ++ c
  | .sum vars body =>
    if body.kind = .sum then .error (.notNormal (.sum vars body) .nestedSummation)
    else Factors.toDisj (.sum vars body) vars (Factors.ofTerm body)
  | .mul l r =>
    Factors.toDisj (.mul l r) [] (Factors.ofMul (Factors.ofTerm l) r (Factors.ofTerm r))
  | .table n row => Factors.toDisj (.table n row) [] (.ok (.ofTable n row))
  | .pred n args => Factors.toDisj (.pred n args) [] (.ok (.ofPred (.pred n args)))
  | .eq l r => Factors.toDisj (.eq l r) [] (.ok (.ofPred (.eq l r)))
  | .squash t => Factors.toDisj (.squash t) [] (.ok (.ofSquash (Disj.ofTerm t)))
  | .not t => Factors.toDisj (.not t) [] (.ok (.ofNegation (Disj.ofTerm t)))

/-- Sort the factors of a product. -/
def Factors.ofTerm : Term → Except Misfit Factors
  | .mul l r => Factors.ofMul (Factors.ofTerm l) r (Factors.ofTerm r)
  | .table n row => .ok (.ofTable n row)
  | .pred n args => .ok (.ofPred (.pred n args))
  | .eq l r => .ok (.ofPred (.eq l r))
  | .squash t => .ok (.ofSquash (Disj.ofTerm t))
  | .not t => .ok (.ofNegation (Disj.ofTerm t))
  | .add _ _ => .error .sumInProduct
  | .sum _ _ => .error .summationInProduct

end

/-- Read a term as a single conjunction. -/
def Conj.ofTerm (t : Term) : Except NormalFormError Conj :=
  match t with
  | .sum vars body =>
    if body.kind = .sum then .error (.notNormal t .nestedSummation)
    else
      match Factors.ofTerm body with
      | .error reason => .error (.notNormal t reason)
      | .ok f => f.toConj t vars
  | _ =>
    match Factors.ofTerm t with
    | .error reason => .error (.notNormal t reason)
    | .ok f => f.toConj t []

end QueryRules
