import QueryRules.NormalForm

/-!
# Isomorphism of normal forms

Two disjunctions are isomorphic when they agree up to the order of conjunctions, binders and
factors, the orientation of equalities and the names of bound variables. `Disj.isIsomorphic`
searches for a matching: each conjunction of the left side takes an unused one of the right side,
and each binder of a conjunction an unused binder of its partner over which the same tables range.

Binders that are matched are mapped to a common tag on both sides, and atoms are compared after
this mapping. The binder matched last is looked up first, so a binder hides an outer one of the
same name.
-/

namespace QueryRules

/-- Matched binders, each with the tag that stands for it; the latest match first. -/
abbrev Tags := List (Tuple × Tuple)

namespace Tags

/-- The tag of the next match. -/
def next (tags : Tags) : Tuple :=
  .var ("#" ++ tags.length.repr)

mutual

/-- Replace the matched variables of a tuple by their tags. -/
def mapTuple (tags : Tags) : Tuple → Tuple
  | .var n => (tags.lookup (.var n)).getD (.var n)
  | .const c => .const c
  | .attr base n => (mapTuple tags base).project n
  | .call f args => .call f (mapTuples tags args)

/-- Replace the matched variables of a list of tuples by their tags. -/
def mapTuples (tags : Tags) : List Tuple → List Tuple
  | [] => []
  | t :: ts => mapTuple tags t :: mapTuples tags ts

end

/-- Replace the matched variables of a table atom by their tags. -/
def mapTable (tags : Tags) (a : TableAtom) : TableAtom :=
  { a with row := tags.mapTuple a.row }

/-- Replace the matched variables of a predicate atom by their tags, and orient an equality. -/
def mapPred (tags : Tags) : PredAtom → PredAtom
  | .pred n args => .pred n (tags.mapTuples args)
  | .eq l r =>
    let l := tags.mapTuple l
    let r := tags.mapTuple r
    if l.le r then .eq l r else .eq r l

end Tags

/-- Every way to take one element out of a list: the element with the others. -/
def picks {α : Type} : List α → List (α × List α)
  | [] => []
  | a :: as => (a, as) :: (picks as).map fun (b, bs) => (b, a :: bs)

/-- The names of the table atoms over a variable. -/
def Conj.tablesOver (c : Conj) (v : Tuple) : List String :=
  (c.tables.filter (·.row = v)).map (·.name)

/-- Match the binders `vars` of `a` with `unused` binders of `b`, in every way that pairs binders
over which the same tables range, until `accept` is satisfied by the tags of both sides. -/
def Conj.matchBinders (a b : Conj) (accept : Tags → Tags → Bool) :
    (vars unused : List Tuple) → Tags → Tags → Bool
  | [], _, left, right => accept left right
  | v :: vs, unused, left, right =>
    (picks unused).any fun (w, rest) =>
      (a.tablesOver v).isPerm (b.tablesOver w)
        && matchBinders a b accept vs rest ((v, left.next) :: left) ((w, left.next) :: right)

/-- Whether two conjunctions have as many binders, tables and predicates as each other. -/
def Conj.sameCounts (a b : Conj) : Bool :=
  a.vars.length == b.vars.length && a.tables.length == b.tables.length
    && a.preds.length == b.preds.length && a.squash.isSome == b.squash.isSome
    && a.negation.isSome == b.negation.isSome

mutual

/-- Whether the conjunctions of two lists can be paired so that partners match, under the tags of
the binders around them. -/
def Disj.isMatch : (a b : List Conj) → (left right : Tags) → Bool
  | [], b, _, _ => b.isEmpty
  | c :: cs, b, left, right =>
    (picks b).any fun (c', rest) =>
      Conj.isMatch c c' left right && Disj.isMatch cs rest left right

/-- Whether two optional disjunctions match. -/
def Disj.isMatchOption : (a b : Option (List Conj)) → (left right : Tags) → Bool
  | none, none, _, _ => true
  | some a, some b, left, right => a.length == b.length && Disj.isMatch a b left right
  | _, _, _, _ => false

/-- Whether two conjunctions match: some matching of their binders makes the atoms and the nested
disjunctions agree. -/
def Conj.isMatch : (a b : Conj) → (left right : Tags) → Bool
  | ⟨vars, tables, preds, squash, negation⟩, b, left, right =>
    let a : Conj := ⟨vars, tables, preds, squash, negation⟩
    a.sameCounts b
      && Conj.matchBinders a b
        (fun left right =>
          (tables.map left.mapTable).isPerm (b.tables.map right.mapTable)
            && (preds.map left.mapPred).isPerm (b.preds.map right.mapPred)
            && Disj.isMatchOption squash b.squash left right
            && Disj.isMatchOption negation b.negation left right)
        vars b.vars left right

end

/-- Whether two disjunctions agree up to order, orientation of equalities and names of bound
variables. -/
def Disj.isIsomorphic (a b : Disj) : Bool :=
  a.length == b.length && Disj.isMatch a b [] []

end QueryRules
