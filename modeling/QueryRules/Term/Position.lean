import QueryRules.Term

/-!
# Positions

A position is the list of child indices from the root of a term to one of its subterms.
-/

namespace QueryRules

/-- Child indices from the root downwards. -/
abbrev Position := List Nat

namespace Term

/-- The subterm at a position. -/
def at? : Term → Position → Option Term
  | t, [] => some t
  | t, i :: rest =>
    match t.child? i with
    | some c => at? c rest
    | none => none

/-- Put `new` in the place of the subterm at a position. A position outside the term changes
nothing. -/
def replaceAt : (t : Term) → (p : Position) → (new : Term) → Term
  | _, [], new => new
  | .add l r, 0 :: p, new => .add (l.replaceAt p new) r
  | .add l r, 1 :: p, new => .add l (r.replaceAt p new)
  | .mul l r, 0 :: p, new => .mul (l.replaceAt p new) r
  | .mul l r, 1 :: p, new => .mul l (r.replaceAt p new)
  | .not t, 0 :: p, new => .not (t.replaceAt p new)
  | .squash t, 0 :: p, new => .squash (t.replaceAt p new)
  | .sum vars body, 0 :: p, new => .sum vars (body.replaceAt p new)
  | t, _ :: _, _ => t

end Term

/-- The written form of a position: the indices in brackets, separated by a comma and a blank. -/
def Position.text (p : Position) : String :=
  "[" ++ ", ".intercalate (p.map Nat.repr) ++ "]"

end QueryRules
