import QueryRules.NormalForm.Levels

/-!
# Names of bound variables

`Disj.renameBound` gives the bound variables of a disjunction the names `x0, x1, …` in the order in
which they are bound, skipping the names of free variables. It renames twice: first to names that
begin with `#`, which keeps the new names apart from the old ones, and then to the final names.
-/

namespace QueryRules

/-- Rename the binders `olds` of a conjunction one after the other, each to the next name of the
supply. -/
def Conj.renameBinders (c : Conj) : List Tuple → StateM FreshNames Conj
  | [] => pure c
  | old :: olds => do
    let name ← modifyGet FreshNames.pick
    (c.subst old (.var name)).renameBinders olds

/-- Rename every binder of a disjunction, at every level, to the names of a supply. -/
def Disj.renameWith (names : FreshNames) (d : Disj) : Disj :=
  ((Disj.descend (fun c => c.renameBinders c.vars) d).run names).1

/-- The names of the free variables of a disjunction. -/
def Disj.freeNames (d : Disj) : List String :=
  d.toTerm.freeVars.filterMap Tuple.name?

/-- Rename the bound variables to `x0, x1, …` in binding order, skipping free names. -/
def Disj.renameBound (d : Disj) : Disj :=
  Disj.renameWith ⟨"x", d.freeNames, 0⟩ (Disj.renameWith ⟨"#", [], 1⟩ d)

end QueryRules
