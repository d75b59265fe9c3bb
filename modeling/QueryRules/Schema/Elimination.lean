import QueryRules.Congruence.Tuples
import QueryRules.NormalForm.Levels
import QueryRules.Schema

/-!
# Elimination of bound variables

A bound variable that the equalities of its conjunction force to be some other tuple is summed
over one value only, so it is replaced by that tuple. `Disj.eliminateConstants` does so where the
other tuple is constant, and `Disj.eliminateUnranged` where no table atom ranges over the
variable. Equalities that have become reflexive and repeated predicates are dropped afterwards.

Every replacement removes a binder, so as many rounds as there are binders are enough.
-/

namespace QueryRules

namespace Conj

/-- Keep every predicate atom that is not a reflexive equality and not among those kept before. -/
def keepProper (kept : List PredAtom) : List PredAtom → List PredAtom
  | [] => kept
  | p :: ps =>
    match p with
    | .eq l r =>
      if l = r ∨ p ∈ kept then keepProper kept ps else keepProper (kept ++ [p]) ps
    | .pred _ _ => if p ∈ kept then keepProper kept ps else keepProper (kept ++ [p]) ps

/-- Replace the predicates of a conjunction; where this leaves no factor, the unit is put in. -/
def withPreds (c : Conj) (preds : List PredAtom) : Conj :=
  if preds.isEmpty && c.onlyPreds then { c with preds := [.unit] } else { c with preds }

/-- Remove reflexive and repeated predicates, keeping at least one factor. -/
def dropTrivial (c : Conj) : Conj :=
  c.withPreds (keepProper [] c.preds)

/-- Remove the binder `v` and replace the variable by `image`. -/
def eliminate (c : Conj) (v image : Tuple) : Conj :=
  { c with vars := c.vars.filter (· ≠ v) }.subst v image

/-- The first binder that `eligible` admits and that has an equivalent tuple which does not
mention it and which `admissible` admits, with the first such tuple. -/
def findForced? (c : Conj) (eligible admissible : Tuple → Bool) : Option (Tuple × Tuple) :=
  let g := Congruence.ofPreds c.preds
  c.vars.findSome? fun v =>
    if eligible v then
      ((g.classOf v).find? fun t => t ≠ v && !t.uses v && admissible t).map fun t => (v, t)
    else
      none

/-- Eliminate binders as long as `find?` gives one, `rounds` times at most. -/
def eliminateAll (find? : Conj → Option (Tuple × Tuple)) : (rounds : Nat) → Conj → Conj
  | 0, c => c
  | rounds + 1, c =>
    match find? c with
    | none => c
    | some (v, image) => eliminateAll find? rounds (c.eliminate v image)

/-- Eliminate binders as long as `find?` gives one, and drop trivial predicates. -/
def settle (find? : Conj → Option (Tuple × Tuple)) (c : Conj) : Conj :=
  (eliminateAll find? c.vars.length c).dropTrivial

end Conj

/-! ## Constants -/

/-- Replace every bound variable that is forced to be a constant, `Sum{x}([x = c] * f(x)) → f(c)`.
-/
def Disj.eliminateConstants (d : Disj) (consts : Constants) : Disj :=
  Id.run (Disj.descend (fun c =>
    pure (c.settle (·.findForced? (fun _ => true) consts.isConstant))) d)

/-! ## Variables that no table ranges over -/

mutual

/-- Whether a table atom of a conjunction, or of a disjunction nested in it that does not rebind the
variable, mentions the variable. -/
def Conj.rangesOver : (c : Conj) → (v : Tuple) → Bool
  | ⟨_, tables, _, squash, negation⟩, v =>
    tables.any (·.row.uses v) || Disj.rangesOverOption squash v || Disj.rangesOverOption negation v

/-- Whether a table atom of an optional disjunction mentions the variable. -/
def Disj.rangesOverOption : (d : Option (List Conj)) → (v : Tuple) → Bool
  | none, _ => false
  | some d, v => Disj.rangesOver d v

/-- Whether a table atom of a conjunction that does not rebind the variable mentions it. -/
def Disj.rangesOver : (d : List Conj) → (v : Tuple) → Bool
  | [], _ => false
  | c :: cs, v => (!decide (v ∈ c.vars) && c.rangesOver v) || Disj.rangesOver cs v

end

/-- Replace every bound variable that no table ranges over and that is forced to be some other
tuple. -/
def Disj.eliminateUnranged (d : Disj) : Disj :=
  Id.run (Disj.descend (fun c =>
    pure (c.settle fun c => c.findForced? (fun v => !c.rangesOver v) (fun _ => true))) d)

end QueryRules
