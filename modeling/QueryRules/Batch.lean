import QueryRules.Search

/-!
# Batches

The search for rules over many pairs of templates. A pair whose templates cannot be read, or at
which the oracle fails, is skipped; any other error ends the batch. The rules are collected in the
order of the pairs.
-/

namespace QueryRules

/-- The settings of a batch. -/
structure BatchSettings where
  /-- The number of workers. -/
  threads : Option Nat := none
  search : Settings := {}
  deriving DecidableEq

/-- Why a batch fails: a pair, counted from zero, and what went wrong there. -/
structure BatchError where
  index : Nat
  cause : SearchError

/-- The message of a batch error. -/
def BatchError.message (e : BatchError) : String :=
  "template pair #" ++ e.index.repr ++ " failed: " ++ e.cause.message

/-- What was counted during a batch. -/
structure BatchReport where
  pairs : Nat
  enumerated : Nat
  skipped : Nat
  timedOut : Nat
  rules : Nat
  oracleCalls : Nat
  deriving DecidableEq

/-- The result of a batch: what was counted, and the written rules. -/
structure Batch where
  report : BatchReport
  rules : List String
  deriving DecidableEq

namespace Batch

/-- A batch of no pairs. -/
def empty : Batch :=
  ⟨⟨0, 0, 0, 0, 0, 0⟩, []⟩

/-- Add the outcome of a pair; none if it was skipped. -/
def add (b : Batch) : Option SearchOutcome → Batch
  | none => { b with report := { b.report with
      pairs := b.report.pairs + 1
      skipped := b.report.skipped + 1 } }
  | some o => {
      report := { b.report with
        pairs := b.report.pairs + 1
        enumerated := b.report.enumerated + 1
        timedOut := b.report.timedOut + (if o.timedOut then 1 else 0)
        rules := b.report.rules + o.rules.length
        oracleCalls := b.report.oracleCalls + o.stats.oracleCalls }
      rules := b.rules ++ o.rules.map Rule.text }

/-- The outcome of a pair; none if it is skipped. -/
def outcome (index : Nat) (r : SearchRun) : Except BatchError (Option SearchOutcome) :=
  match r.result with
  | .ok o => .ok (some o)
  | .error e => if e.isRecoverable then .ok none else .error ⟨index, e⟩

/-- The outcomes of the searches of a batch, the first of which has the given number. -/
def outcomesFrom (index : Nat) : List SearchRun → Except BatchError (List (Option SearchOutcome))
  | [] => .ok []
  | r :: rest => do
    let o ← outcome index r
    return o :: (← outcomesFrom (index + 1) rest)

/-- The batch of some searches. -/
def ofRuns (runs : List SearchRun) : Except BatchError Batch := do
  return (← outcomesFrom 0 runs).foldl add empty

/-- Search the pairs in order. The oracle serves all of them, and its questions are counted
through. -/
def searchFrom (settings : Settings) (oracle : Oracle) (clock : Nat → Nat) (asked : Nat) :
    List TemplatePair → List SearchRun
  | [] => []
  | p :: rest =>
    let r := p.search settings (oracle.after asked) clock
    r :: searchFrom settings oracle clock (asked + r.final.stats.oracleCalls) rest

/-- Search all pairs. -/
def search (pairs : List TemplatePair) (settings : Settings) (oracle : Oracle) (clock : Nat → Nat) :
    Except BatchError Batch :=
  ofRuns (searchFrom settings oracle clock 0 pairs)

end Batch

end QueryRules
