import QueryRules.NormalForm.Normalize
import QueryRules.Schema

/-!
# Foreign keys

A row of a table with a foreign key has a referenced row. `Term.expandForeignKeys` multiplies
every table atom `S(t)` by the statement that it exists, `||Sum{f}(R(f) * [t.k = f.k'])||`. The
summation is left unsquashed where the referenced columns cover a unique key, because it is zero
or one there. A key with a column that may be null references nothing and is not used.
-/

namespace QueryRules

namespace ForeignKey

/-- A foreign key that can be expanded: it has columns, as many as it references, and none of them
may be null. -/
def isUsable (k : ForeignKey) (facts : Facts) : Bool :=
  !k.columns.isEmpty && k.columns.length == k.refColumns.length
    && k.columns.all (facts.isNotNull k.table ·)

/-- The statement that the row `t` has a referenced row, with the bound variable `referenced`. -/
def existence (k : ForeignKey) (facts : Facts) (t referenced : Tuple) : Term :=
  let eqs := (k.columns.zip k.refColumns).map fun (c, rc) =>
    Term.eq (t.project c) (referenced.project rc)
  let sum := Term.sumOver [referenced] (.product (.table k.refTable referenced :: eqs))
  if facts.isUnique k.refTable k.refColumns then sum else .squash sum

end ForeignKey

namespace Term

/-- Multiply a term by the existence of the rows that each of the keys references from the row
`t`. -/
def referencing (facts : Facts) (t : Tuple) : List ForeignKey → Term → StateM FreshNames Term
  | [], out => pure out
  | k :: ks, out =>
    if k.isUsable facts then do
      let name ← modifyGet FreshNames.pick
      referencing facts t ks (.mul out (k.existence facts t (.var name)))
    else
      referencing facts t ks out

/-- Expand the foreign keys of every table atom, from left to right. -/
def expandKeys (facts : Facts) : Term → StateM FreshNames Term
  | .table n row => referencing facts row (facts.foreignKeysOf n) (.table n row)
  | .pred n args => pure (.pred n args)
  | .eq l r => pure (.eq l r)
  | .add l r => do
    let l ← expandKeys facts l
    let r ← expandKeys facts r
    return .add l r
  | .mul l r => do
    let l ← expandKeys facts l
    let r ← expandKeys facts r
    return .mul l r
  | .not t => do
    let t ← expandKeys facts t
    return .not t
  | .squash t => do
    let t ← expandKeys facts t
    return .squash t
  | .sum vars body => do
    let body ← expandKeys facts body
    return .sumOver vars body

/-- Expand the foreign keys of every table atom. The new bound variables are called `f0, f1, …`,
skipping the names of the term. Without foreign keys nothing changes. -/
def expandForeignKeys (t : Term) (facts : Facts) : Term :=
  if facts.foreignKeys.isEmpty then t
  else ((t.expandKeys facts).run ⟨"f", t.varNames, 0⟩).1

end Term

/-- Expand the foreign keys of a normal form and normalize again. -/
def Disj.expandForeignKeys (d : Disj) (facts : Facts) : Except NormalFormError Disj :=
  (d.toTerm.expandForeignKeys facts).normalize

end QueryRules
