/-!
# Settings of a search
-/

namespace QueryRules

/-- The settings of the search for rules between two templates. -/
structure Settings where
  /-- The time that a search may take, in milliseconds. -/
  timeout : Option Nat := none
  /-- Do not check that both queries have the same number of columns. -/
  skipOutputCheck : Bool := false
  /-- Do not check that the tables of one query are among those of the other. -/
  skipTableCheck : Bool := false
  /-- Take every assignment that is reached for a rule. -/
  dryRun : Bool := false
  /-- Bring both queries into canonical form before the oracle is asked. -/
  canonicalize : Bool := true
  deriving DecidableEq

/-- Whether the oracle is left out, which is so as soon as one of the checks is. -/
def Settings.isDryRun (s : Settings) : Bool :=
  s.dryRun || s.skipOutputCheck || s.skipTableCheck

end QueryRules
