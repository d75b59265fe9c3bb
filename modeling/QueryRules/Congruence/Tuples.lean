import QueryRules.Congruence
import QueryRules.NormalForm

/-!
# Tuples made equal by equalities

The equality atoms of a conjunction induce a congruence on tuples. It is closed under the
projections that occur: once `x` and `y` are equivalent, every listed projection `x.a` is merged
with `y.a`. The closure works in rounds over the projections listed at the start of a round, and
stops when a round merges nothing or after `Congruence.maxRounds` rounds.
-/

namespace QueryRules

namespace Congruence

/-- The number of rounds after which the closure stops in any case. -/
def maxRounds : Nat :=
  64

/-- The projections among the listed tuples, each with its base and its attribute. -/
def projections (g : Congruence Tuple) : List (Tuple × Tuple × String) :=
  g.keys.filterMap fun
    | .attr base name => some (.attr base name, base, name)
    | _ => none

/-- Merge the projection `proj` of `base` with the same projection of each of the `peers`; tells
whether anything was merged. -/
def mergePeers (proj base : Tuple) (name : String) :
    List Tuple → Congruence Tuple → Congruence Tuple × Bool
  | [], g => (g, false)
  | peer :: peers, g =>
    if peer = base then mergePeers proj base name peers g
    else
      let (g, changed) := g.union proj (peer.project name)
      let (g, more) := mergePeers proj base name peers g
      (g, changed || more)

/-- One round: merge every listed projection with the same projection of the tuples equivalent to
its base. -/
def closeRound : List (Tuple × Tuple × String) → Congruence Tuple → Congruence Tuple × Bool
  | [], g => (g, false)
  | (proj, base, name) :: rest, g =>
    let (g, changed) := mergePeers proj base name (g.classOf base) g
    let (g, more) := closeRound rest g
    (g, changed || more)

/-- Rounds until one merges nothing, `rounds` at most. -/
def close : (rounds : Nat) → Congruence Tuple → Congruence Tuple
  | 0, g => g
  | rounds + 1, g =>
    let (g', changed) := closeRound g.projections g
    if changed then close rounds g' else g'

/-- The two sides of every equality among predicate atoms. -/
def equalities (preds : List PredAtom) : List (Tuple × Tuple) :=
  preds.filterMap fun
    | .eq l r => some (l, r)
    | _ => none

/-- The congruence on tuples that a list of predicate atoms induces. -/
def ofPreds (preds : List PredAtom) : Congruence Tuple :=
  close maxRounds (ofPairs (equalities preds))

end Congruence

end QueryRules
