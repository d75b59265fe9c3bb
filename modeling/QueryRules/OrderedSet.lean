/-!
# Finite sets as increasing lists

A finite set over a type with a comparison is kept as the strictly increasing list of its members,
so that listing a set is listing the value itself.
-/

namespace QueryRules

/-- A finite set, listed in increasing order without repeats. -/
abbrev OrderedSet (α : Type) := List α

namespace OrderedSet

variable {α : Type} [Ord α]

/-- Add a member; a member that compares equal to one already listed is not added again. -/
def insert (a : α) : OrderedSet α → OrderedSet α
  | [] => [a]
  | b :: rest =>
    match compare a b with
    | .lt => a :: b :: rest
    | .eq => b :: rest
    | .gt => b :: insert a rest

/-- Add every element of a list, from left to right. -/
def insertAll (s : OrderedSet α) (as : List α) : OrderedSet α :=
  as.foldl (fun set a => OrderedSet.insert a set) s

/-- The set of the elements of a list. -/
def ofList (as : List α) : OrderedSet α :=
  insertAll [] as

end OrderedSet

end QueryRules
