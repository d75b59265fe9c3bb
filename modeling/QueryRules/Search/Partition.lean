/-!
# Partitions

A partition of the first `n` numbers is written as the list of block numbers: the first number is
in block 0, and every later one is in a block that occurs before it or in the next new block. The
partitions are visited in the lexicographic order of these lists, from a single block to `n`
blocks.
-/

namespace QueryRules

/-- The block of each number. -/
abbrev Partition :=
  List Nat

namespace Partition

/-- The partition into a single block. -/
def single (n : Nat) : Partition :=
  List.replicate n 0

/-- The next list of blocks for the numbers after some whose largest block is `largest`. The last
number that can go to a later block does so, and those after it go back to block 0. -/
def advance? (largest : Nat) : List Nat → Option (List Nat)
  | [] => none
  | b :: rest =>
    match advance? (max largest b) rest with
    | some rest => some (b :: rest)
    | none => if b ≤ largest then some ((b + 1) :: rest.map fun _ => 0) else none

/-- The next partition. -/
def next? : Partition → Option Partition
  | [] => none
  | b :: rest => (advance? b rest).map (b :: ·)

/-- There are at most so many partitions of `n` numbers: every number is in one of `n` blocks. -/
def bound (n : Nat) : Nat :=
  Nat.pow n n

/-- The partitions from a given one on, `count` of them at most. -/
def visitFrom : (count : Nat) → Partition → List Partition
  | 0, _ => []
  | count + 1, p =>
    match p.next? with
    | some q => p :: visitFrom count q
    | none => [p]

/-- All partitions of `n` numbers in the order in which they are visited. -/
def all (n : Nat) : List Partition :=
  visitFrom (bound n) (single n)

end Partition

end QueryRules
