/-!
# Fresh names

A supply of names made of a fixed stem and a running number. A name that is already taken is
skipped, and the number only grows, so no name is handed out twice.
-/

namespace QueryRules

/-- A supply of names `stem0, stem1, …` that avoids the names in `taken`. -/
structure FreshNames where
  stem : String
  taken : List String
  next : Nat
  deriving DecidableEq

namespace FreshNames

/-- The name with the given number. -/
def name (s : FreshNames) (n : Nat) : String :=
  s.stem ++ n.repr

/-- The least number from `n` on whose name is not taken, looking at `tries` numbers at most. Names
with different numbers differ, so as many tries as there are taken names are enough. -/
def firstFree (s : FreshNames) : (tries n : Nat) → Nat
  | 0, n => n
  | tries + 1, n => if s.name n ∈ s.taken then firstFree s tries (n + 1) else n

/-- The next name, and the supply that goes on after it. -/
def pick (s : FreshNames) : String × FreshNames :=
  let n := s.firstFree s.taken.length s.next
  (s.name n, { s with next := n + 1 })

end FreshNames

end QueryRules
