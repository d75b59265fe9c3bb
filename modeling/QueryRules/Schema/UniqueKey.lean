import QueryRules.NormalForm.Normalize
import QueryRules.Schema.Elimination

/-!
# Unique keys

Two laws hold for a table with a unique key.

* Two atoms of the table whose rows agree on the key are one atom (`Conj.mergeKeyed`): `R(x) *
  R(y) * [x.k = y.k]` becomes `R(x)`, with `y` replaced by `x`.
* A conjunction over atoms of one table, all of them bound and with a key that is constant, counts
  at most one row, so it may be squashed (`Conj.squashed`).

The first law is used at every level. The second one is used at the top level only: inside a
squash or a negation only truth matters.
-/

namespace QueryRules

/-- Why a normal form has no canonical form. -/
inductive CanonicalError where
  /-- A normalization on the way failed. -/
  | normalForm (error : NormalFormError)
  /-- Atoms were still merged after the given number of rounds. -/
  | mergingGoesOn (rounds : Nat) (conj : Conj)
  /-- Squashing a conjunction gave a number of conjunctions other than one. -/
  | squashSplit (conj : Conj) (count : Nat)
  deriving DecidableEq

/-- The message of a canonicalization error. -/
def CanonicalError.message : CanonicalError → String
  | .normalForm e => e.message
  | .mergingGoesOn rounds c =>
    "Uk1 invariant violated: no fixed point after " ++ rounds.repr ++ " rounds: " ++ c.text
  | .squashSplit c count =>
    "Uk2 invariant violated: squashing `" ++ c.text ++ "` gave " ++ count.repr
      ++ " conjunctions instead of one"

/-! ## Merging atoms -/

/-- Whether two rows agree on a column, by equivalence of the rows or of the projections. -/
def Congruence.agreeOn (g : Congruence Tuple) (a b : Tuple) (column : String) : Bool :=
  g.same a b || g.same (a.project column) (b.project column)

/-- An atom that another atom makes superfluous: its place among the tables and its variable, and
the variable that stands for both. -/
structure Redundant where
  keep : Tuple
  index : Nat
  gone : Tuple
  deriving DecidableEq

namespace Conj

/-- Whether two table atoms over variables are one by a unique key. -/
def sameByKey (g : Congruence Tuple) (facts : Facts) (a b : TableAtom) : Bool :=
  a.name = b.name && a.row.isVar && b.row.isVar
    && (facts.uniqueKeysOf a.name).any fun uk =>
      !uk.columns.isEmpty && uk.columns.all (g.agreeOn a.row b.row ·)

/-- The first atom of a list, counted from `j` on, that is one with the atom `a` at place `i`. The
atom whose variable is bound goes, the later one if both are. -/
def findTwin? (g : Congruence Tuple) (facts : Facts) (vars : List Tuple) (i : Nat) (a : TableAtom) :
    (j : Nat) → List TableAtom → Option Redundant
  | _, [] => none
  | j, b :: rest =>
    if sameByKey g facts a b then
      if b.row ∈ vars then some ⟨a.row, j, b.row⟩
      else if a.row ∈ vars then some ⟨b.row, i, a.row⟩
      else findTwin? g facts vars i a (j + 1) rest
    else
      findTwin? g facts vars i a (j + 1) rest

/-- The first redundant atom of a list of tables that starts at place `i`. -/
def findRedundantFrom? (g : Congruence Tuple) (facts : Facts) (vars : List Tuple) :
    (i : Nat) → List TableAtom → Option Redundant
  | _, [] => none
  | i, a :: rest =>
    match findTwin? g facts vars i a (i + 1) rest with
    | some r => some r
    | none => findRedundantFrom? g facts vars (i + 1) rest

/-- The first redundant atom of a conjunction. -/
def findRedundant? (c : Conj) (facts : Facts) : Option Redundant :=
  findRedundantFrom? (Congruence.ofPreds c.preds) facts c.vars 0 c.tables

/-- The number of rounds in which atoms are merged. -/
def maxMergeRounds : Nat :=
  256

/-- Drop a redundant atom, replacing its variable. -/
def dropRedundant (c : Conj) (r : Redundant) : Conj :=
  ({ c with tables := c.tables.eraseIdx r.index }.eliminate r.gone r.keep).dropTrivial

/-- Drop redundant atoms until there is none, which has to be seen within the given number of
rounds. -/
def mergeKeyedIn (facts : Facts) : (rounds : Nat) → Conj → Except CanonicalError Conj
  | 0, c => .error (.mergingGoesOn maxMergeRounds c)
  | rounds + 1, c =>
    match c.findRedundant? facts with
    | none => .ok c
    | some r => mergeKeyedIn facts rounds (c.dropRedundant r)

/-- Merge the atoms that are one by a unique key. -/
def mergeKeyed (c : Conj) (facts : Facts) : Except CanonicalError Conj :=
  mergeKeyedIn facts maxMergeRounds c

/-! ## Conjunctions that count at most one row -/

/-- All tables of the conjunction are the same one, exactly its binders are their rows, and some
unique key of the table is constant in every row. -/
def isKeyedByConstant (c : Conj) (facts : Facts) (consts : Constants) : Bool :=
  match c.tables with
  | [] => false
  | a :: rest =>
    let rows := c.tables.map (·.row)
    let g := Congruence.ofPreds c.preds
    rest.all (·.name = a.name)
      && rows.all (fun r => r.isVar && r ∈ c.vars)
      && c.vars.all (· ∈ rows)
      && (facts.uniqueKeysOf a.name).any fun uk =>
        !uk.columns.isEmpty && rows.all fun r =>
          uk.columns.all fun col => (g.classOf (r.project col)).any consts.isConstant

/-- The conjunction that the squashed conjunction normalizes to. -/
def squashed (c : Conj) : Except CanonicalError Conj := do
  let d ← (Term.squash c.toTerm).normalize.mapError .normalForm
  match d with
  | [s] => return s
  | d => throw (.squashSplit c d.length)

/-- Squash a conjunction that counts at most one row by a unique key. -/
def squashKeyed (c : Conj) (facts : Facts) (consts : Constants) : Except CanonicalError Conj :=
  if c.isKeyedByConstant facts consts then c.squashed else .ok c

end Conj

/-- Use the unique keys: merge atoms at every level, and squash the conjunctions of the top level
that count at most one row. -/
def Disj.useUniqueKeys (d : Disj) (facts : Facts) (consts : Constants) :
    Except CanonicalError Disj :=
  if facts.uniqueKeys.isEmpty then .ok d
  else
    d.mapM fun c => do
      let c ← c.descend (·.mergeKeyed facts) c.depth
      c.squashKeyed facts consts

end QueryRules
