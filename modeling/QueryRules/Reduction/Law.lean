import QueryRules.FreshNames
import QueryRules.Term

/-!
# Laws

The laws by which terms are brought into sum-of-products form. A law is read from left to right
and fires at the root of a term only; `Law.fire?` gives the right-hand side, or nothing where the
left-hand side does not match.

Three laws move a term under a summation (`sumMul`, `mulSum`) or merge two summations (`sumSum`).
They rename the binders that would capture a variable of the moved term, so a law takes the supply
of fresh names and gives it back. A law that does not fire takes no name.
-/

namespace QueryRules

/-- A law for terms, read from left to right. -/
inductive Law where
  /-- `||(||x||)|| → ||x||`, `not(||x||) → not(x)` and `||a * ||x|||| → ||a * x||` -/
  | elimSquash
  /-- `Sum{v}(x) * y → Sum{v}(x * y)` -/
  | sumMul
  /-- `Sum{v}(x + y) → Sum{v}(x) + Sum{v}(y)` -/
  | sumAdd
  /-- `not(x + y) → not(x) * not(y)` -/
  | notAdd
  /-- `not(x * y) → ||not(x) + not(y)||` -/
  | notMul
  /-- `not(not(x)) → ||x||` -/
  | notNot
  /-- `||not(x)|| → not(x)` -/
  | squashNot
  /-- `x * (y * z) → (x * y) * z` -/
  | mulAssoc
  /-- `x + (y + z) → (x + y) + z` -/
  | addAssoc
  /-- `(x + y) * z → x * z + y * z` and `x * (y + z) → x * y + x * z` -/
  | distribution
  /-- `x * Sum{v}(y) → Sum{v}(x * y)` -/
  | mulSum
  /-- `Sum{v}(Sum{w}(x)) → Sum{v, w}(x)` -/
  | sumSum
  /-- A squash moves right past a factor that is neither squash, negation nor product. -/
  | squashCommunity
  /-- `||x|| * ||y|| → ||x * y||` within one product -/
  | mulSquash
  /-- A negation moves right past a factor that is neither negation nor product. -/
  | notCommunity
  /-- `not(x) * not(y) → not(x + y)` within one product -/
  | mulNot
  deriving DecidableEq

namespace Law

/-- Every law. -/
def all : List Law :=
  [.elimSquash, .sumMul, .sumAdd, .notAdd, .notMul, .notNot, .squashNot, .mulAssoc, .addAssoc,
    .distribution, .mulSum, .sumSum, .squashCommunity, .mulSquash, .notCommunity, .mulNot]

/-- The written name of a law. -/
def name : Law → String
  | .elimSquash => "ElimSquash"
  | .sumMul => "SumMul"
  | .sumAdd => "SumAdd"
  | .notAdd => "NotAdd"
  | .notMul => "NotMul"
  | .notNot => "NotNot"
  | .squashNot => "SquashNot"
  | .mulAssoc => "MulAssoc"
  | .addAssoc => "AddAssoc"
  | .distribution => "Distribution"
  | .mulSum => "MulSum"
  | .sumSum => "SumSum"
  | .squashCommunity => "SquashCommunity"
  | .mulSquash => "MulSquash"
  | .notCommunity => "NotCommunity"
  | .mulNot => "MulNot"

/-- The law with the given name. -/
def ofName? (name : String) : Option Law :=
  all.find? fun law => law.name = name

/-! ## Renaming binders -/

/-- The supply of names `u0, u1, …` that avoids every name of a term. -/
def freshFor (t : Term) : FreshNames :=
  ⟨"u", t.varNames, 0⟩

/-- Give a fresh name to every binder that `clashes`, in the body too. Binders are taken from left
to right. The results are the binders, the body and the supply that is left. -/
def renameClashing (clashes : Tuple → Bool) :
    List Tuple → Term → FreshNames → List Tuple × Term × FreshNames
  | [], body, fresh => ([], body, fresh)
  | v :: vs, body, fresh =>
    if clashes v then
      let (name, fresh) := fresh.pick
      let (vs, body, fresh) := renameClashing clashes vs (body.subst v (.var name)) fresh
      (.var name :: vs, body, fresh)
    else
      let (vs, body, fresh) := renameClashing clashes vs body fresh
      (v :: vs, body, fresh)

/-! ## Products -/

/-- The last factor of a product chain. -/
def lastFactor : Term → Term
  | .mul _ r => r
  | t => t

/-- Multiply `left` by `right` so that the last factor of `left` comes last. -/
def swapLast : (left right : Term) → Term
  | .mul head last, right => .mul (.mul head right) last
  | single, right => .mul right single

/-- The body of a squash. -/
def squashBody? : Term → Option Term
  | .squash x => some x
  | _ => none

/-- The body of a negation. -/
def notBody? : Term → Option Term
  | .not x => some x
  | _ => none

/-- Merge the factors of a product that `body?` opens into one trailing factor, which `merge`
makes of their bodies. A product with fewer than two such factors is left alone. -/
def mergeFactors? (body? : Term → Option Term) (merge : List Term → Option Term) (t : Term) :
    Option Term :=
  if t.countFactors (fun f => (body? f).isSome) < 2 then none
  else
    match merge (t.factors.filterMap body?) with
    | some merged => Term.product? (t.factors.filter (fun f => (body? f).isNone) ++ [merged])
    | none => none

/-! ## Firing -/

/-- Open the squash factors of a product that stands under a squash, if there are any. -/
def openSquashes? (t : Term) : Option Term :=
  if 0 < t.countFactors (fun f => (squashBody? f).isSome) then
    (Term.product? (t.factors.map fun f => (squashBody? f).getD f)).map .squash
  else
    none

/-- What a law makes of a term that needs no fresh name for it. -/
def plain? : Law → Term → Option Term
  | .elimSquash, .squash (.squash x) => some (.squash x)
  | .elimSquash, .squash (.mul l r) => openSquashes? (.mul l r)
  | .elimSquash, .not (.squash x) => some (.not x)
  | .sumAdd, .sum vars (.add a b) => some (.add (.sumOver vars a) (.sumOver vars b))
  | .notAdd, .not (.add a b) => some (.mul (.not a) (.not b))
  | .notMul, .not (.mul a b) => some (.squash (.add (.not a) (.not b)))
  | .notNot, .not (.not x) => some (.squash x)
  | .squashNot, .squash (.not x) => some (.not x)
  | .mulAssoc, .mul a (.mul b c) => some (.mul (.mul a b) c)
  | .addAssoc, .add a (.add b c) => some (.add (.add a b) c)
  | .distribution, .mul (.add a b) c => some (.add (.mul a c) (.mul b c))
  | .distribution, .mul a (.add b c) => some (.add (.mul a b) (.mul a c))
  | .squashCommunity, .mul l r =>
    if (lastFactor l).kind = .squash ∧ r.kind ∉ [.squash, .not, .mul] then some (swapLast l r)
    else none
  | .notCommunity, .mul l r =>
    if (lastFactor l).kind = .not ∧ r.kind ∉ [.not, .mul] then some (swapLast l r) else none
  | .mulSquash, .mul l r =>
    mergeFactors? squashBody? (fun bodies => (Term.product? bodies).map .squash) (.mul l r)
  | .mulNot, .mul l r =>
    mergeFactors? notBody? (fun bodies => (Term.total? bodies).map .not) (.mul l r)
  | _, _ => none

/-- Apply a law at the root of a term. The result is the new term with the supply of names that is
left, or nothing where the law does not fire. -/
def fire? (fresh : FreshNames) : Law → Term → Option (Term × FreshNames)
  | .sumMul, .mul (.sum vars body) r =>
    let (vars, body, fresh) := renameClashing (fun v => r.uses v) vars body fresh
    some (.sumOver vars (.mul body r), fresh)
  | .mulSum, .mul l (.sum vars body) =>
    let (vars, body, fresh) := renameClashing (fun v => l.uses v) vars body fresh
    some (.sumOver vars (.mul l body), fresh)
  | .sumSum, .sum outer (.sum vars body) =>
    let (vars, body, fresh) := renameClashing (fun v => decide (v ∈ outer)) vars body fresh
    some (.sumOver (outer ++ vars) body, fresh)
  | law, t => (law.plain? t).map fun new => (new, fresh)

end Law

end QueryRules
