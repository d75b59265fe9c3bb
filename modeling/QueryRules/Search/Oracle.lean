import QueryRules.Plan.Equivalence

/-!
# Oracles

An oracle decides whether two queries are equal. It may depend on how many questions were asked
before, so that a run can be scripted; an oracle that is a function of the question alone ignores
the number.
-/

namespace QueryRules

/-- What an oracle says. -/
inductive Verdict where
  | eq | neq | unknown
  deriving DecidableEq

/-- Why an oracle fails. -/
inductive OracleError where
  | backend (cause : String)
  | exhausted (resource : String)
  deriving DecidableEq

/-- The message of an oracle error. -/
def OracleError.message : OracleError → String
  | .backend cause => "oracle backend failed: " ++ cause
  | .exhausted resource => "oracle ran out of resources: " ++ resource

/-- An oracle: the number of the question, counted from zero, and the question. -/
abbrev Oracle :=
  Nat → Question → Except OracleError Verdict

namespace Oracle

/-- The verdict of isomorphism: equal up to the order of factors and summands and the names of
bound variables. It never says that two queries differ. -/
def isomorphismVerdict (q : Question) : Verdict :=
  if q.isIsomorphic then .eq else .unknown

/-- The oracle that tests isomorphism. -/
def isomorphism : Oracle :=
  fun _ q => .ok (isomorphismVerdict q)

/-- The oracle that goes on after `count` questions were asked elsewhere. -/
def after (oracle : Oracle) (count : Nat) : Oracle :=
  fun n => oracle (count + n)

end Oracle

end QueryRules
