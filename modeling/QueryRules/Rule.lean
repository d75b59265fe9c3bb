import QueryRules.Congruence
import QueryRules.Constraint
import QueryRules.Template

/-!
# Rules

A rule says that a query that fits its source template may be replaced by the one its target
template describes, provided that the constraints hold. It is written as source, target and
constraints with bars between them, the constraints separated by semicolons.
-/

namespace QueryRules

/-- Two templates and the constraints under which they are equivalent. -/
structure Rule where
  source : Template
  target : Template
  constraints : List Constraint
  names : Names
  deriving DecidableEq

namespace Rule

/-- The written form. -/
def text (r : Rule) : String :=
  r.source.text r.names ++ "|" ++ r.target.text r.names ++ "|"
    ++ ";".intercalate (r.constraints.map (·.text r.names))

/-- The constraints of a kind. -/
def constraintsOf (r : Rule) (kind : ConstraintKind) : List Constraint :=
  r.constraints.filter fun c => c.kind = kind

/-- The symbol that an attribute list is drawn from, by the first constraint that says so. -/
def sourceOf? (r : Rule) (attrs : Symbol) : Option Symbol :=
  r.constraints.findSome? fun c =>
    match c with
    | .attrsSub a source => if a = attrs then some source else none
    | _ => none

/-- The symbol that a target symbol copies, by the first constraint that says so. -/
def copiedBy? (r : Rule) (target : Symbol) : Option Symbol :=
  r.constraints.findSome? fun c =>
    match c with
    | .eq _ left right => if left.side ≠ right.side ∧ right = target then some left else none
    | _ => none

/-- The pairs of symbols that are equal by a constraint. -/
def equalPairs (r : Rule) : List (Symbol × Symbol) :=
  r.constraints.filterMap fun c =>
    match c with
    | .eq _ left right => some (left, right)
    | _ => none

/-- The symbols that are equal, directly or through others. -/
def classes (r : Rule) : Congruence Symbol :=
  .ofPairs r.equalPairs

end Rule

end QueryRules
