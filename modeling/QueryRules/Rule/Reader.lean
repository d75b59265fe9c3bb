import QueryRules.Rule
import QueryRules.Template.Reader

/-!
# Reading rules

A written rule is split at its first two bars. The constraints are split at semicolons, and an
item that consists of blanks only is left out; two semicolons in a row, or one at an end, are not
allowed.
-/

namespace QueryRules

/-- Why a text is no rule. -/
inductive RuleError where
  | malformed (text : String) (cause : ScanError)
  | template (cause : TemplateError)
  | constraint (cause : ConstraintError)
  deriving DecidableEq

/-- The message of a rule error. -/
def RuleError.message : RuleError → String
  | .malformed text cause => "malformed rule `" ++ text ++ "`: " ++ cause.message
  | .template cause => cause.message
  | .constraint cause => cause.message

namespace Rule

/-- What stands before a bar, and the rest after it. -/
def scanPart : Scan String := fun cs => do
  let (_, rest) ← Scan.char '|' (cs.dropWhile (· ≠ '|'))
  return (String.ofList (cs.takeWhile (· ≠ '|')), rest)

/-- Items with semicolons between them, up to the end of the text. -/
def scanItems (cs : List Char) : Except ScanError (List String) := do
  let (items, rest) := Scan.separated (Scan.char ';') (Scan.word (· ≠ ';')) cs
  Scan.finish rest
  return items

/-- The source, the target and the constraints of a written rule. -/
def split (cs : List Char) : Except ScanError (String × String × List String) := do
  let (source, cs) ← scanPart (Text.trim cs)
  let (target, cs) ← scanPart cs
  let items ← scanItems cs
  return (source, target, items)

/-- Read constraints from left to right. -/
def readConstraints (names : Names) : List String → Except ConstraintError (List Constraint)
  | [] => .ok []
  | item :: rest => do
    let c ← Constraint.read names item
    return c :: (← readConstraints names rest)

/-- Read a rule. -/
def read (text : String) : Except RuleError Rule := do
  let (source, target, items) ← (split text.toList).mapError (.malformed text)
  let (source, names) := Template.read source .source Names.empty
  let source ← source.mapError .template
  let (target, names) := Template.read target .target names
  let target ← target.mapError .template
  let items := items.map fun item => String.ofList (Text.trim item.toList)
  let constraints ← (readConstraints names (items.filter (· ≠ ""))).mapError .constraint
  return ⟨source, target, constraints, names⟩

end Rule

end QueryRules
