import QueryRules.Catalog

/-!
# Inclusion of assignments

Assignments are compared by the sets of places that they choose.
-/

namespace QueryRules

/-- How two assignments compare by inclusion. -/
inductive Inclusion where
  | same | greater | less | incomparable
  deriving DecidableEq

namespace Inclusion

/-- The name of a result. -/
def name : Inclusion → String
  | .same => "Same"
  | .greater => "GreaterThan"
  | .less => "LessThan"
  | .incomparable => "Incomparable"

/-- The result with the two assignments exchanged. -/
def reverse : Inclusion → Inclusion
  | .greater => .less
  | .less => .greater
  | i => i

end Inclusion

namespace Assignment

/-- Whether all places that the first assignment chooses are chosen by the second. Assignments of
different lengths are not included in each other. -/
def subset : Assignment → Assignment → Bool
  | [], [] => true
  | x :: xs, y :: ys => (!x || y) && subset xs ys
  | _, _ => false

/-- Whether the second assignment chooses the same places and more. -/
def ssubset (a b : Assignment) : Bool :=
  subset a b && !subset b a

/-- Compare two assignments by inclusion. -/
def compare (a b : Assignment) : Inclusion :=
  match subset a b, subset b a with
  | true, true => .same
  | true, false => .less
  | false, true => .greater
  | false, false => .incomparable

end Assignment

end QueryRules
