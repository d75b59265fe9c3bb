/-!
# Numbers

Reading unsigned decimal numbers. A plus sign may stand in front, leading zeros are allowed, and a
number that is too large for its range is refused.
-/

namespace QueryRules.Text

/-- The value of a list of decimal digits. -/
def digitsValue (cs : List Char) : Nat :=
  cs.foldl (fun n c => 10 * n + (c.toNat - '0'.toNat)) 0

/-- Read a non-empty list of decimal digits. -/
def readDigits? (cs : List Char) : Option Nat :=
  if cs.isEmpty then none
  else if cs.all Char.isDigit then some (digitsValue cs)
  else none

/-- Read a number below `limit`. -/
def readNat? (limit : Nat) (cs : List Char) : Option Nat := do
  let digits := match cs with
    | '+' :: rest => rest
    | cs => cs
  let n ← readDigits? digits
  if n < limit then some n else none

end QueryRules.Text
