import QueryRules.Rule.Instance
import QueryRules.Search.Choice
import QueryRules.Search.Inclusion
import QueryRules.Search.Oracle
import QueryRules.Search.Settings
import QueryRules.Template.Reader

/-!
# The state of a search

A search remembers the assignments that the oracle answered, counts what it did, and keeps a trace
of the choices at which it looked. It may fail, and what it did before stays known.
-/

namespace QueryRules

/-- What a search takes for granted and finds otherwise. -/
inductive Fault where
  /-- There are contradicting demands on an integrity constraint, given by its text. -/
  | forced (constraint : String)
  /-- There is no stage with this number. -/
  | noStage (number : Nat)
  /-- The catalog has no place where the two source symbols are equal. -/
  | noEqPlace (left right : Symbol)
  /-- The catalog has no place where the target symbol copies the source symbol. -/
  | noCopyPlace (source target : Symbol)
  deriving DecidableEq

/-- The fault in words. -/
def Fault.text : Fault → String
  | .forced constraint => "conflicting forced state for " ++ constraint
  | .noStage number => "no stage " ++ number.repr
  | .noEqPlace left right => "no eq entry " ++ left.text ++ " = " ++ right.text
  | .noCopyPlace source target => "no instantiation entry " ++ source.text ++ " -> " ++ target.text

/-- Why a search fails. -/
inductive SearchError where
  /-- The search is in conflict with what it takes for granted. -/
  | conflict (fault : Fault)
  | normalForm (cause : NormalFormError)
  | canonical (cause : CanonicalError)
  | oracle (cause : OracleError)
  | template (cause : TemplateError)
  | tooManyAttrs (count : Nat)

/-- Templates with so many attribute lists in all are not searched. -/
def attrsLimit : Nat := 10

namespace SearchError

/-- The message of a search error. -/
def message : SearchError → String
  | .conflict fault => "enumeration invariant violated: " ++ fault.text
  | .normalForm cause => cause.message
  | .canonical cause => cause.message
  | .oracle cause => cause.message
  | .template cause => cause.message
  | .tooManyAttrs count =>
    count.repr ++ " attrs symbols exceed the limit of " ++ attrsLimit.repr

/-- Whether a batch may go on after the error: it lies in the pair or in the oracle, not in the
search. -/
def isRecoverable : SearchError → Bool
  | .oracle _ => true
  | .template cause => cause ≠ .overflow
  | .tooManyAttrs _ => true
  | _ => false

end SearchError

/-- What the search knows about a choice, or about all choices below one. -/
inductive Answer where
  | eq | neq | unknown
  /-- The time is up; the search ends. -/
  | timeout
  deriving DecidableEq

/-- What was counted during a search. -/
structure SearchStats where
  oracleCalls : Nat
  cacheHits : Nat
  outputHits : Nat
  tableHits : Nat
  leaves : Nat
  deriving DecidableEq

/-- What happened during a search. -/
inductive Event where
  /-- The tables of both queries were compared under an assignment. -/
  | tablesCompared (flags : Assignment)
  /-- A complete choice was answered. -/
  | leaf (choice : Choice) (answer : Answer)
  /-- The oracle was asked. -/
  | asked (question : Question)

/-- The state of a search. -/
structure SearchState where
  /-- The assignments found to give equal queries, in the order of discovery; none is included in
  a later one. -/
  eqs : List Assignment
  /-- The assignments found to give different queries, in the order of discovery. -/
  neqs : List Assignment
  stats : SearchStats
  /-- What happened, the latest event first. -/
  trace : List Event
  /-- Whether the search has begun to decide constraints on nulls and references. From then on
  those that are undecided count as chosen. -/
  integrityReached : Bool
  timedOut : Bool
  /-- How often the clock was read. -/
  looks : Nat

namespace SearchState

/-- The state at the beginning. -/
def initial : SearchState :=
  ⟨[], [], ⟨0, 0, 0, 0, 0⟩, [], false, false, 0⟩

/-- Count something. -/
def count (s : SearchState) (f : SearchStats → SearchStats) : SearchState :=
  { s with stats := f s.stats }

/-- Record an event. -/
def record (s : SearchState) (e : Event) : SearchState :=
  { s with trace := e :: s.trace }

/-- Whether an assignment includes one that gives equal queries. -/
def isKnownEq (s : SearchState) (flags : Assignment) : Bool :=
  s.eqs.any fun eq => Assignment.subset eq flags

/-- Whether an assignment is included in one that gives different queries. -/
def isKnownNeq (s : SearchState) (flags : Assignment) : Bool :=
  s.neqs.any fun neq => Assignment.subset flags neq

/-- Remember an assignment that gives equal queries, in place of the larger ones. -/
def rememberEq (s : SearchState) (flags : Assignment) : SearchState :=
  let kept := s.eqs.filter fun eq => !Assignment.ssubset flags eq
  { s with eqs := if flags ∈ kept then kept else kept ++ [flags] }

/-- Remember an assignment that gives different queries, in place of the smaller ones. -/
def rememberNeq (s : SearchState) (flags : Assignment) : SearchState :=
  let kept := s.neqs.filter fun neq => !Assignment.ssubset neq flags
  { s with neqs := if flags ∈ kept then kept else kept ++ [flags] }

/-- The questions asked, in order. -/
def questions (s : SearchState) : List Question :=
  s.trace.reverse.filterMap fun e =>
    match e with
    | .asked q => some q
    | _ => none

end SearchState

/-- A part of a search. -/
abbrev Search :=
  ExceptT SearchError (StateM SearchState)

end QueryRules
