import QueryRules.Reduction.Pass

/-!
# Sum-of-products normal forms

A disjunction is a sum of conjunctions, and a conjunction is a summation over a product

Sum{vars}(tables * predicates * ||squash|| * not(negation))

with at most one squash and at most one negation, each around a disjunction of its own. Tables and
predicates are atoms by type. What the types leave open is `Conj.isEmpty`: a conjunction without
any factor stands for the unit, and only `Conj.empty` and the steps that keep a factor may build
one.
-/

namespace QueryRules

/-! ## Atoms -/

/-- A table atom `R(x)`. -/
structure TableAtom where
  name : String
  row : Tuple
  deriving DecidableEq

/-- A predicate atom, uninterpreted or an equality. -/
inductive PredAtom where
  | pred (name : String) (args : List Tuple)
  | eq (left right : Tuple)
  deriving DecidableEq

namespace TableAtom

/-- The atom as a term. -/
def toTerm (a : TableAtom) : Term :=
  .table a.name a.row

/-- Replace `source` by `image`. -/
def subst (a : TableAtom) (source image : Tuple) : TableAtom :=
  { a with row := a.row.subst source image }

/-- The table atom that a term is. -/
def ofTerm? : Term → Option TableAtom
  | .table name row => some ⟨name, row⟩
  | _ => none

end TableAtom

namespace PredAtom

/-- The atom as a term. -/
def toTerm : PredAtom → Term
  | .pred name args => .pred name args
  | .eq l r => .eq l r

/-- Replace `source` by `image`. -/
def subst (source image : Tuple) : PredAtom → PredAtom
  | .pred name args => .pred name (Tuple.substAll args source image)
  | .eq l r => .eq (l.subst source image) (r.subst source image)

/-- Whether `v` occurs in the atom. -/
def uses (v : Tuple) : PredAtom → Bool
  | .pred _ args => Tuple.anyUses args v
  | .eq l r => l.uses v || r.uses v

/-- The trivially true equality `[1 = 1]`. -/
def unit : PredAtom :=
  .eq (.const "1") (.const "1")

/-- The predicate atom that a term is. -/
def ofTerm? : Term → Option PredAtom
  | .pred name args => some (.pred name args)
  | .eq l r => some (.eq l r)
  | _ => none

end PredAtom

/-! ## Conjunctions and disjunctions -/

/-- A summation over a product of atoms, at most one squash and at most one negation. -/
structure Conj where
  vars : List Tuple
  tables : List TableAtom
  preds : List PredAtom
  squash : Option (List Conj)
  negation : Option (List Conj)

/-- A sum of conjunctions. -/
abbrev Disj := List Conj

mutual

/-- Structural equality of conjunctions is decidable. -/
def Conj.decEq : (a b : Conj) → Decidable (a = b)
  | ⟨vs, ts, ps, s, n⟩, ⟨vs', ts', ps', s', n'⟩ =>
    if h : vs = vs' ∧ ts = ts' ∧ ps = ps' then
      match Conj.decEqOption s s', Conj.decEqOption n n' with
      | isTrue hs, isTrue hn => isTrue (by simp [h, hs, hn])
      | isFalse hs, _ => isFalse (by simp [hs])
      | isTrue _, isFalse hn => isFalse (by simp [hn])
    else
      isFalse (by
        simp only [Conj.mk.injEq]
        exact fun ⟨h₁, h₂, h₃, _⟩ => h ⟨h₁, h₂, h₃⟩)

/-- Structural equality of optional disjunctions is decidable. -/
def Conj.decEqOption : (a b : Option (List Conj)) → Decidable (a = b)
  | none, none => isTrue rfl
  | none, some _ => isFalse (by simp)
  | some _, none => isFalse (by simp)
  | some a, some b =>
    match Conj.decEqList a b with
    | isTrue h => isTrue (by rw [h])
    | isFalse h => isFalse (by simpa using h)

/-- Structural equality of disjunctions is decidable. -/
def Conj.decEqList : (a b : List Conj) → Decidable (a = b)
  | [], [] => isTrue rfl
  | [], _ :: _ => isFalse (by simp)
  | _ :: _, [] => isFalse (by simp)
  | a :: as, b :: bs =>
    match Conj.decEq a b, Conj.decEqList as bs with
    | isTrue ha, isTrue hs => isTrue (by rw [ha, hs])
    | isFalse ha, _ => isFalse (by simp [ha])
    | isTrue _, isFalse hs => isFalse (by simp [hs])

end

instance : DecidableEq Conj := Conj.decEq

namespace Conj

/-- The conjunction without factors, which stands for the unit. -/
def empty : Conj :=
  ⟨[], [], [], none, none⟩

/-- A conjunction that has no table, no squash and no negation. -/
def onlyPreds (c : Conj) : Bool :=
  c.tables.isEmpty && c.squash.isNone && c.negation.isNone

/-- A conjunction without factors. -/
def isEmpty (c : Conj) : Bool :=
  c.preds.isEmpty && c.onlyPreds

end Conj

/-! ## As terms -/

mutual

/-- The conjunction as a term: tables, predicates, squash and negation in this order. -/
def Conj.toTerm : Conj → Term
  | ⟨vars, tables, preds, squash, negation⟩ =>
    .sumOver vars (.product (tables.map TableAtom.toTerm ++ preds.map PredAtom.toTerm
      ++ (Disj.toTerm? squash).toList.map .squash ++ (Disj.toTerm? negation).toList.map .not))

/-- An optional disjunction as a term. -/
def Disj.toTerm? : Option (List Conj) → Option Term
  | none => none
  | some d => some ((Term.total? (Disj.toTerms d)).getD .zero)

/-- The conjunctions of a disjunction as terms. -/
def Disj.toTerms : List Conj → List Term
  | [] => []
  | c :: cs => c.toTerm :: Disj.toTerms cs

end

/-- The disjunction as a term: the sum of its conjunctions; the empty sum is zero. -/
def Disj.toTerm (d : Disj) : Term :=
  (Term.total? (Disj.toTerms d)).getD .zero

/-- The written form of a conjunction. -/
def Conj.text (c : Conj) : String :=
  c.toTerm.text

/-- The written form of a disjunction. -/
def Disj.text (d : Disj) : String :=
  d.toTerm.text

/-! ## Variables -/

mutual

/-- Replace `source` by `image` in the binders, the atoms and the nested disjunctions of a
conjunction. -/
def Conj.subst : (c : Conj) → (source image : Tuple) → Conj
  | ⟨vars, tables, preds, squash, negation⟩, source, image =>
    ⟨vars.map fun v => if v = source then image else v,
      tables.map (TableAtom.subst · source image),
      preds.map (PredAtom.subst source image),
      Disj.substOption squash source image,
      Disj.substOption negation source image⟩

/-- Replace `source` by `image` in an optional disjunction. -/
def Disj.substOption : (d : Option (List Conj)) → (source image : Tuple) → Option (List Conj)
  | none, _, _ => none
  | some d, source, image => some (Disj.subst d source image)

/-- Replace `source` by `image` in every conjunction that does not bind `source` itself. -/
def Disj.subst : (d : List Conj) → (source image : Tuple) → List Conj
  | [], _, _ => []
  | c :: cs, source, image =>
    (if source ∈ c.vars then c else c.subst source image) :: Disj.subst cs source image

end

mutual

/-- Whether `v` occurs in a conjunction, in an atom or as a binder. -/
def Conj.uses : (c : Conj) → (v : Tuple) → Bool
  | ⟨vars, tables, preds, squash, negation⟩, v =>
    decide (v ∈ vars) || tables.any (·.row.uses v) || preds.any (PredAtom.uses v)
      || Disj.usesOption squash v || Disj.usesOption negation v

/-- Whether `v` occurs in an optional disjunction. -/
def Disj.usesOption : (d : Option (List Conj)) → (v : Tuple) → Bool
  | none, _ => false
  | some d, v => Disj.uses d v

/-- Whether `v` occurs in a disjunction. -/
def Disj.uses : (d : List Conj) → (v : Tuple) → Bool
  | [], _ => false
  | c :: cs, v => c.uses v || Disj.uses cs v

end

/-! ## Nesting -/

mutual

/-- How many levels of disjunctions are nested in a conjunction. -/
def Conj.depth : Conj → Nat
  | ⟨_, _, _, squash, negation⟩ => max (Disj.depthOption squash) (Disj.depthOption negation)

/-- How many levels of disjunctions an optional disjunction has. -/
def Disj.depthOption : Option (List Conj) → Nat
  | none => 0
  | some d => Disj.depth d + 1

/-- How many levels of disjunctions are nested in a disjunction, itself not counted. -/
def Disj.depth : List Conj → Nat
  | [] => 0
  | c :: cs => max c.depth (Disj.depth cs)

end

/-! ## Errors -/

/-- Why a term is not the written form of a conjunction. -/
inductive Misfit where
  | nestedSummation
  | rightNestedProduct
  | sumInProduct
  | summationInProduct
  | manySquashes
  | manyNegations
  deriving DecidableEq

/-- The reason in words. -/
def Misfit.text : Misfit → String
  | .nestedSummation => "nested summation"
  | .rightNestedProduct => "right-nested product"
  | .sumInProduct => "sum inside a product"
  | .summationInProduct => "summation inside a product"
  | .manySquashes => "more than one squash factor"
  | .manyNegations => "more than one negation factor"

/-- Why there is no normal form. -/
inductive NormalFormError where
  /-- The term is not the written form of a conjunction. -/
  | notNormal (term : Term) (reason : Misfit)
  | emptyConjunction
  | emptyDisjunction
  | notATable (term : Term)
  | notAPredicate (term : Term)
  /-- A pass of the reduction spent its budget. -/
  | stepLimit (limit : StepLimit)
  deriving DecidableEq

/-- The message of a normal-form error. -/
def NormalFormError.message : NormalFormError → String
  | .notNormal t reason => "not a normal form (" ++ reason.text ++ "): " ++ t.text
  | .emptyConjunction => "a conjunction needs at least one factor"
  | .emptyDisjunction => "a disjunction needs at least one conjunction"
  | .notATable t => "expected a table atom, got `" ++ t.text ++ "`"
  | .notAPredicate t => "expected a predicate atom, got `" ++ t.text ++ "`"
  | .stepLimit l =>
    "rewriting did not converge in pass " ++ l.pass.repr ++ " after " ++ l.steps.repr ++ " steps"

/-! ## Checked constructors -/

/-- Every term as a table atom, or the first one that is none. -/
def TableAtom.ofTerms : List Term → Except NormalFormError (List TableAtom)
  | [] => .ok []
  | t :: ts =>
    match TableAtom.ofTerm? t with
    | none => .error (.notATable t)
    | some a => (TableAtom.ofTerms ts).map (a :: ·)

/-- Every term as a predicate atom, or the first one that is none. -/
def PredAtom.ofTerms : List Term → Except NormalFormError (List PredAtom)
  | [] => .ok []
  | t :: ts =>
    match PredAtom.ofTerm? t with
    | none => .error (.notAPredicate t)
    | some a => (PredAtom.ofTerms ts).map (a :: ·)

/-- A conjunction with at least one factor. -/
def Conj.ofParts (vars : List Tuple) (tables : List TableAtom) (preds : List PredAtom)
    (squash negation : Option Disj) : Except NormalFormError Conj :=
  let c : Conj := ⟨vars, tables, preds, squash, negation⟩
  if c.isEmpty then .error .emptyConjunction else .ok c

/-- A conjunction of the given terms. There has to be a factor, tables have to be table atoms and
predicates predicate atoms; the first of these conditions that fails is reported. -/
def Conj.ofTerms (vars : List Tuple) (tables preds : List Term) (squash negation : Option Disj) :
    Except NormalFormError Conj :=
  if tables.isEmpty && preds.isEmpty && squash.isNone && negation.isNone then
    .error .emptyConjunction
  else do
    let tables ← TableAtom.ofTerms tables
    let preds ← PredAtom.ofTerms preds
    return ⟨vars, tables, preds, squash, negation⟩

/-- A disjunction with at least one conjunction. -/
def Disj.ofConjs (cs : List Conj) : Except NormalFormError Disj :=
  if cs.isEmpty then .error .emptyDisjunction else .ok cs

end QueryRules
