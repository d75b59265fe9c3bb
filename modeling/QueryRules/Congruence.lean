/-!
# Congruences

An equivalence relation on finitely many values, grown by merging classes. Every value that was
added is listed once, in the order of first addition, and a class is a tree: the place of every
value has a parent, which does not come after it, and a place that is its own parent is the root of
its class. Merging two classes makes the earlier root the parent of the later one, so the root of a
class, its leader, is the member that was added first.

A value that was never added is equivalent to itself only.
-/

namespace QueryRules

/-- An equivalence relation on the values added so far: each of them with the place of its parent.
-/
structure Congruence (α : Type) where
  /-- The values added so far, in the order of first addition. -/
  keys : List α
  parents : List Nat
  nodup : keys.Nodup
  length_eq : parents.length = keys.length
  parent_le : ∀ i : Nat, parents.getD i i ≤ i

namespace Congruence

variable {α : Type} [DecidableEq α]

/-- The relation on no values. -/
def empty : Congruence α :=
  ⟨[], [], .nil, rfl, by simp⟩

/-- Whether a value was added. -/
def contains (g : Congruence α) (a : α) : Bool :=
  decide (a ∈ g.keys)

/-- The place above a place: the place itself where a tree ends. -/
def parent (g : Congruence α) (i : Nat) : Nat :=
  g.parents.getD i i

/-- Climb until a place is its own parent, or for a number of steps. -/
def climb (g : Congruence α) : (steps i : Nat) → Nat
  | 0, i => i
  | steps + 1, i => if g.parent i = i then i else g.climb steps (g.parent i)

/-- The root above a place. Parents come first, so there are fewer steps than values. -/
def root (g : Congruence α) (i : Nat) : Nat :=
  g.climb g.keys.length i

/-- The leader of the class of a value, if the value was added. -/
def leader? (g : Congruence α) (a : α) : Option α :=
  g.keys[g.root (g.keys.idxOf a)]?

/-- Add a value as a class of its own, unless it was added before. -/
def add (g : Congruence α) (a : α) : Congruence α :=
  if h : a ∈ g.keys then g
  else
    { keys := g.keys ++ [a]
      parents := g.parents ++ [g.keys.length]
      nodup := by
        refine List.nodup_append.mpr ⟨g.nodup, by simp, fun k hk b hb heq => h ?_⟩
        rwa [← List.mem_singleton.mp hb, ← heq]
      length_eq := by simp [g.length_eq]
      parent_le := by
        intro i
        have hle := g.parent_le i
        grind [g.length_eq] }

/-- Make the earlier of two places the parent of the later one. -/
def link (g : Congruence α) (i j : Nat) : Congruence α where
  keys := g.keys
  parents := g.parents.set (max i j) (min i j)
  nodup := g.nodup
  length_eq := by rw [List.length_set, g.length_eq]
  parent_le := by
    intro k
    have hle := g.parent_le k
    grind

/-- Merge the classes of two values, which are added first; tells whether they were different. -/
def union (g : Congruence α) (a b : α) : Congruence α × Bool :=
  let g := (g.add a).add b
  let ra := g.root (g.keys.idxOf a)
  let rb := g.root (g.keys.idxOf b)
  if ra = rb then (g, false) else (g.link ra rb, true)

/-- Whether two values are equivalent. -/
def same (g : Congruence α) (a b : α) : Bool :=
  if a = b then true
  else
    match g.leader? a, g.leader? b with
    | some la, some lb => decide (la = lb)
    | _, _ => false

/-- The values equivalent to a given one, in the order of first addition; just the value itself if
it was never added. -/
def classOf (g : Congruence α) (a : α) : List α :=
  match g.leader? a with
  | none => [a]
  | some l => g.keys.filter fun k => g.leader? k = some l

/-- The leaders of all classes, in the order of first addition. -/
def leaders (g : Congruence α) : List α :=
  g.keys.filter fun k => g.leader? k = some k

/-- The least relation that joins the given pairs, merged from left to right. -/
def ofPairs (pairs : List (α × α)) : Congruence α :=
  pairs.foldl (fun g (a, b) => (g.union a b).1) empty

end Congruence

end QueryRules
