import QueryRules.Plan
import QueryRules.Schema
import QueryRules.Term

/-!
# The term of a plan

`Plan.denote` gives the term that counts how often a row is in the result of a plan. Every
relation (a table input, or a projection used as a table) has a row variable of its own, and a
column reference is resolved through the alias of its relation.

A query scope collects the row variables of the relations of one query. A projection opens a new
scope and sums over its row variables. It ties its output columns to *joints*, the tuples that its
consumer hands down (a union, or the left-hand side of `IN`; `EXISTS` hands down none), or else to
the projections of a new row variable of the scope around it. The row of the whole query is called
`t`; the other row variables are `t0, t1, …`.
-/

namespace QueryRules

/-- Why a plan has no term. -/
inductive DenoteError where
  /-- The operator at the root of the plan is not covered. -/
  | unsupported (plan : Plan)
  | unresolvedColumn (qualifier column : String)
  | emptyJoints
  | jointArity (aliasName : String) (joints columns : Nat)

/-- The message of a denotation error. -/
def DenoteError.message : DenoteError → String
  | .unsupported p => "unsupported operator `" ++ p.operator ++ "` in " ++ p.text
  | .unresolvedColumn q c =>
    "column `" ++ q ++ "." ++ c ++ "` is not produced by any relation in scope"
  | .emptyJoints => "IN-subquery filter has no left-hand columns"
  | .jointArity aliasName joints columns =>
    "projection `" ++ aliasName ++ "` yields " ++ columns.repr ++ " column(s) but is compared with "
      ++ joints.repr

/-- The row variables of one query, and the joints that a projection directly inside it is tied
to. -/
structure QueryScope where
  isRoot : Bool
  rows : List Tuple
  joints : Option (List Tuple)

/-- The state of the walk through a plan: the scope of the query at hand, the row variable of each
alias seen so far (the latest first) and the number of the next row variable. -/
structure Walk where
  scope : QueryScope
  owners : List (String × Tuple)
  next : Nat

/-- A step of the walk, which may fail. -/
abbrev Denote := StateT Walk (Except DenoteError)

namespace Denote

/-- The row of the whole query. -/
def rootRow : Tuple :=
  .var "t"

/-- A row variable that was not used before. -/
def freshRow : Denote Tuple :=
  modifyGet fun w => (.var ("t" ++ w.next.repr), { w with next := w.next + 1 })

/-- Give a row variable to the relation `owner` of the query at hand. The first relation of the
whole query gets the row of the query. -/
def newRow (owner : String) : Denote Tuple := do
  let w ← get
  let row ← if w.scope.isRoot && !decide (rootRow ∈ w.scope.rows) then pure rootRow else freshRow
  modify fun w =>
    { w with
      scope := { w.scope with rows := w.scope.rows ++ [row] }
      owners := (owner, row) :: w.owners }
  return row

/-- Do something with other joints, and restore the joints afterwards. -/
def withJoints {α : Type} (joints : List Tuple) (act : Denote α) : Denote α := do
  let saved := (← get).scope.joints
  modify fun w => { w with scope := { w.scope with joints := some joints } }
  let a ← act
  modify fun w => { w with scope := { w.scope with joints := saved } }
  return a

/-- Do something in a new scope inside the one at hand; the result comes with the row variables of
the new scope. -/
def inNewScope {α : Type} (act : Denote α) : Denote (α × List Tuple) := do
  let outer := (← get).scope
  modify fun w => { w with scope := ⟨false, [], none⟩ }
  let a ← act
  let rows := (← get).scope.rows
  modify fun w => { w with scope := outer }
  return (a, rows)

/-! ## Scalars and conditions -/

mutual

/-- The tuple of a scalar expression. -/
def tupleOf (owners : List (String × Tuple)) : Scalar → Except DenoteError Tuple
  | .column q c =>
    match owners.lookup q with
    | some row => .ok (row.project c)
    | none => .error (.unresolvedColumn q c)
  | .literal t => .ok (.const t)
  | .call f args => (tuplesOf owners args).map (.call f)

/-- The tuples of a list of scalar expressions. -/
def tuplesOf (owners : List (String × Tuple)) : List Scalar → Except DenoteError (List Tuple)
  | [] => .ok []
  | s :: ss => do
    let t ← tupleOf owners s
    let ts ← tuplesOf owners ss
    return t :: ts

end

/-- Equality of columns, which never holds of null: `[x = y] * [NotNull(y)]`. -/
def nullSafeEq (x y : Tuple) : Term :=
  .mul (.eq x y) (.notNull y)

/-- An uninterpreted predicate over the columns of a condition, named by the condition's template.
-/
def uninterpreted (owners : List (String × Tuple)) (c : Condition) : Except DenoteError Term := do
  let args ← tuplesOf owners (c.columns.map fun (q, col) => .column q col)
  return .pred c.template args

/-- The factor for one conjunct of a filter. -/
def conjunctTerm (owners : List (String × Tuple)) (c : Condition) : Except DenoteError Term := do
  match c with
  | .eq (.column q a) (.column r b) =>
    let x ← tupleOf owners (.column q a)
    let y ← tupleOf owners (.column r b)
    return nullSafeEq x y
  | .eq (.column q a) (.literal t) => return .eq (← tupleOf owners (.column q a)) (.const t)
  | .eq (.literal t) (.column q a) => return .eq (← tupleOf owners (.column q a)) (.const t)
  | .call f args =>
    if args.all Scalar.isColumn then return .pred f (← tuplesOf owners args)
    else uninterpreted owners (.call f args)
  | c => uninterpreted owners c

/-- The term of a filter condition: the product over its conjuncts. -/
def filterTerm (owners : List (String × Tuple)) (c : Condition) : Except DenoteError Term := do
  let factors ← c.conjuncts.mapM (conjunctTerm owners)
  return .product factors

/-- The two columns of an equality of columns. -/
def columnEquality? : Condition → Option (Scalar × Scalar)
  | .eq l r => if l.isColumn && r.isColumn then some (l, r) else none
  | _ => none

/-- The term of a join condition: null-safe equalities if it consists of equalities of columns,
else one uninterpreted predicate. -/
def joinTerm (owners : List (String × Tuple)) (c : Condition) : Except DenoteError Term :=
  match c.conjuncts.mapM columnEquality? with
  | none => uninterpreted owners c
  | some pairs => do
    let factors ← pairs.mapM fun (l, r) => do
      let x ← tupleOf owners l
      let y ← tupleOf owners r
      return nullSafeEq x y
    return .product factors

/-! ## Operators -/

/-- Replace the rows of the right side of a left join by new ones, in the condition and in the
right side, and state that the old ones are null. The results are the new rows, the null
equalities, the condition and the right side. -/
def copyRows : List Tuple → Term → Term → Denote (List Tuple × List Term × Term × Term)
  | [], cond, rhs => return ([], [], cond, rhs)
  | old :: olds, cond, rhs => do
    let new ← freshRow
    let (news, nulls, cond, rhs) ← copyRows olds (cond.subst old new) (rhs.subst old new)
    return (new :: news, .eq old .null :: nulls, cond, rhs)

/-- The term of a left join: the matching pairs, and every left row that has no match with null
for the rows of the right side, `L(x) * ([y = null] * not(Sum{z}(p(x, z) * R(z))))`. -/
def leftJoinTerm (cond lhs rhs : Term) (rhsRows : List Tuple) : Denote Term := do
  let matching := Term.mul (.mul cond lhs) rhs
  let (news, nulls, cond, rhs) ← copyRows rhsRows cond rhs
  let unmatched := Term.not (.sumOver news (.mul cond rhs))
  let padded := match Term.product? nulls with
    | some isNull => Term.mul lhs (.mul isNull unmatched)
    | none => Term.mul lhs unmatched
  return .add matching padded

/-- The joints of a projection: those handed down, or the projections of a new row of the scope
around it. -/
def jointsFor (items : List Item) (aliasName : String) : Denote (List Tuple) := do
  let joints ← match (← get).scope.joints with
    | some joints => pure joints
    | none => do
      let pivot ← newRow aliasName
      pure (items.map fun i => pivot.project i.name)
  if !joints.isEmpty && joints.length != items.length then
    throw (.jointArity aliasName joints.length items.length)
  return joints

/-- The equalities of joints with the items of a projection. -/
def itemTerms (owners : List (String × Tuple)) :
    List (Tuple × Item) → Except DenoteError (List Term)
  | [] => .ok []
  | (joint, item) :: rest => do
    let t ← tupleOf owners item.expr
    let ts ← itemTerms owners rest
    return .eq joint t :: ts

/-- The term of a plan in the scope at hand. A union below another union shares the joints of that
one. -/
def ofPlan : Plan → (underUnion : Bool) → Denote Term
  | .input table aliasName _, _ => do
    let row ← newRow aliasName
    return .table table row
  | .proj input items distinct aliasName, _ => do
    let joints ← jointsFor items aliasName
    let (body, rows) ← inNewScope do
      let t ← ofPlan input false
      let eqs ← itemTerms (← get).owners (joints.zip items)
      return Term.product (t :: eqs)
    let sum := Term.sumOver rows body
    return if distinct then .squash sum else sum
  | .filter input condition, _ => do
    let t ← ofPlan input false
    let cond ← filterTerm (← get).owners condition
    return .mul cond t
  | .inSub input lhs subquery, _ => do
    if lhs.isEmpty then throw .emptyJoints
    let outer ← ofPlan input false
    let joints ← tuplesOf (← get).owners lhs
    let inner ← withJoints joints (ofPlan subquery false)
    return .mul outer (.squash inner)
  | .exists input subquery, _ => do
    let outer ← ofPlan input false
    let inner ← withJoints [] (ofPlan subquery false)
    return .mul outer (.squash inner)
  | .join kind left right condition, _ => do
    if kind = .right ∨ kind = .full then throw (.unsupported (.join kind left right condition))
    let lhs ← ofPlan left false
    let mark := (← get).scope.rows.length
    let rhs ← ofPlan right false
    let rhsRows := (← get).scope.rows.drop mark
    match condition with
    | none => return .mul lhs rhs
    | some condition =>
      let cond ← joinTerm (← get).owners condition
      if kind = .left then leftJoinTerm cond lhs rhs rhsRows
      else return .mul (.mul cond lhs) rhs
  | .setOp kind distinct left right, underUnion => do
    if kind ≠ .union then throw (.unsupported (.setOp kind distinct left right))
    let branches : Denote (Term × Term) := do
      let l ← ofPlan left true
      let r ← ofPlan right true
      return (l, r)
    let (l, r) ←
      if underUnion then branches
      else do
        let plan := Plan.setOp kind distinct left right
        let joint ← newRow plan.outputOwner
        withJoints (plan.outputColumns.map joint.project) branches
    let sum := Term.add l r
    return if distinct then .squash sum else sum
  | .sort input, underUnion => ofPlan input underUnion
  | .limit input _, underUnion => ofPlan input underUnion
  | .agg input groupBy items aliasName, _ =>
    throw (.unsupported (.agg input groupBy items aliasName))

end Denote

/-- The term of a plan, with the row variables that it leaves free. -/
structure Denotation where
  term : Term
  freeVars : List Tuple

/-- The free variables of a denotation are fixed by whoever asks for the row, so they are
constants. -/
def Denotation.constants (d : Denotation) : Constants :=
  .ofList d.freeVars

/-- The term of a plan. -/
def Plan.denote (p : Plan) : Except DenoteError Denotation := do
  let term ← (Denote.ofPlan p false).run' ⟨⟨true, [], none⟩, [], 0⟩
  return ⟨term, term.freeVars⟩

end QueryRules
