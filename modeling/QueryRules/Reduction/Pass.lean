import QueryRules.Reduction.Law
import QueryRules.Term.Position

/-!
# Passes

A pass is a list of laws that is run to a fixed point: the term is searched innermost first, the
first law of the list that fires anywhere is applied in its place, and the search starts again at
the root. Five passes in a row bring a term into sum-of-products form:

* pass 0 applies the local laws (squash and negation, distribution, associativity),
* pass 1 hoists and merges summations,
* pass 2 merges the squash factors of a product,
* pass 3 merges the negation factors of a product,
* pass 4 restores the shape after passes 2 and 3.

Each pass has a budget of steps. `Term.reduce?` is one step, `Pass.run` a pass and `Term.reduce`
all five.
-/

namespace QueryRules

/-! ## One step -/

/-- A law that fired at a position, with the whole term and the supply of names after it. -/
structure Firing where
  position : Position
  law : Law
  result : Term
  fresh : FreshNames

/-- The firing seen from the parent of the term it happened in. -/
def Firing.under (i : Nat) (wrap : Term → Term) (f : Firing) : Firing :=
  { f with position := i :: f.position, result := wrap f.result }

/-- The first of `laws` that fires at the root of a term. -/
def Law.firstAt? (fresh : FreshNames) (laws : List Law) (t : Term) : Option Firing :=
  laws.findSome? fun law => (law.fire? fresh t).map fun (new, fresh) => ⟨[], law, new, fresh⟩

/-- One step: the first law that fires, subterms before the term that holds them and left before
right. No law fires at an atom. -/
def Term.reduce? (fresh : FreshNames) (laws : List Law) : Term → Option Firing
  | .add l r =>
    match reduce? fresh laws l with
    | some f => some (f.under 0 (.add · r))
    | none =>
      match reduce? fresh laws r with
      | some f => some (f.under 1 (.add l ·))
      | none => Law.firstAt? fresh laws (.add l r)
  | .mul l r =>
    match reduce? fresh laws l with
    | some f => some (f.under 0 (.mul · r))
    | none =>
      match reduce? fresh laws r with
      | some f => some (f.under 1 (.mul l ·))
      | none => Law.firstAt? fresh laws (.mul l r)
  | .not t =>
    match reduce? fresh laws t with
    | some f => some (f.under 0 .not)
    | none => Law.firstAt? fresh laws (.not t)
  | .squash t =>
    match reduce? fresh laws t with
    | some f => some (f.under 0 .squash)
    | none => Law.firstAt? fresh laws (.squash t)
  | .sum vars body =>
    match reduce? fresh laws body with
    | some f => some (f.under 0 (.sum vars ·))
    | none => Law.firstAt? fresh laws (.sum vars body)
  | .table _ _ | .pred _ _ | .eq _ _ => none

/-! ## Passes -/

/-- A recorded step: a law that fired at a position in a pass. -/
structure Step where
  pass : Nat
  position : Position
  law : Law
  deriving DecidableEq

/-- A pass spent its budget of steps. -/
structure StepLimit where
  pass : Nat
  steps : Nat
  deriving DecidableEq

/-- A term on its way through the passes, with the supply of names and the steps made so far, the
latest first. -/
structure Progress where
  term : Term
  fresh : FreshNames
  steps : List Step

namespace Pass

/-- The laws of the five passes. -/
def all : List (List Law) :=
  [[.elimSquash, .sumMul, .sumAdd, .notAdd, .notMul, .notNot, .squashNot, .mulAssoc, .addAssoc,
      .distribution],
    [.mulSum, .sumSum],
    [.squashCommunity, .mulAssoc, .addAssoc, .mulSquash],
    [.notCommunity, .mulAssoc, .addAssoc, .mulNot],
    [.elimSquash, .squashNot, .mulSum, .sumMul, .sumSum, .sumAdd, .mulAssoc, .addAssoc,
      .distribution, .squashCommunity, .mulSquash, .notCommunity, .mulNot]]

/-- The number of steps a pass may make. -/
def budget : Nat :=
  100000

/-- Step until no law fires. The pass succeeds when it is seen within `budget` searches that no
law fires; nothing is returned otherwise. -/
def run (number : Nat) (laws : List Law) : (budget : Nat) → Progress → Option Progress
  | 0, _ => none
  | budget + 1, p =>
    match p.term.reduce? p.fresh laws with
    | none => some p
    | some f => run number laws budget ⟨f.result, f.fresh, ⟨number, f.position, f.law⟩ :: p.steps⟩

/-- Run a list of passes one after the other, numbering them from `number` on. -/
def runAll (limit number : Nat) : List (List Law) → Progress → Except StepLimit Progress
  | [], p => .ok p
  | laws :: rest, p =>
    match run number laws limit p with
    | some q => runAll limit (number + 1) rest q
    | none => .error ⟨number, limit⟩

end Pass

namespace Term

/-- Run the five passes on a term. The result is the reduced term with the steps made, the latest
first. -/
def reduceRecorded (t : Term) : Except StepLimit Progress :=
  Pass.runAll Pass.budget 0 Pass.all ⟨t, Law.freshFor t, []⟩

/-- Run the five passes on a term. -/
def reduce (t : Term) : Except StepLimit Term :=
  t.reduceRecorded.map (·.term)

/-! ## Single laws and replay -/

/-- Apply a law at the root. -/
def applyLaw? (t : Term) (law : Law) : Option Term :=
  (law.fire? (Law.freshFor t) t).map (·.1)

/-- Apply a law at a position. Fresh names avoid all names of the whole term. -/
def applyLawAt? (t : Term) (p : Position) (law : Law) : Option Term :=
  match t.at? p with
  | none => none
  | some sub => (law.fire? (Law.freshFor t) sub).map fun (new, _) => t.replaceAt p new

end Term

/-- Why recorded steps cannot be replayed. -/
inductive ReplayError where
  /-- The term has no subterm at the position. -/
  | noSubterm (position : Position)
  /-- The law does not fire at the position. -/
  | notApplicable (law : Law) (position : Position)
  deriving DecidableEq

/-- The message of a replay error. -/
def ReplayError.message : ReplayError → String
  | .noSubterm p => "invalid rewrite position " ++ p.text
  | .notApplicable law p => law.name ++ " does not apply at " ++ p.text

namespace Term

/-- Make the given steps on a term, one after the other, drawing on one supply of names. -/
def replayFrom (fresh : FreshNames) : Term → List Step → Except ReplayError Term
  | t, [] => .ok t
  | t, s :: rest =>
    match t.at? s.position with
    | none => .error (.noSubterm s.position)
    | some sub =>
      match s.law.fire? fresh sub with
      | none => .error (.notApplicable s.law s.position)
      | some (new, fresh) => replayFrom fresh (t.replaceAt s.position new) rest

/-- Make the given steps on a term. -/
def replay (t : Term) (steps : List Step) : Except ReplayError Term :=
  t.replayFrom (Law.freshFor t) steps

end Term

end QueryRules
