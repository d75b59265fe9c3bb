import QueryRules.CommandLine.Run

/-!
# The program

Runs the command line with the real files and the real clock.
-/

namespace QueryRules

/-- Read a text file. -/
def readFile? (path : String) : IO (Option String) := do
  try
    return some (← IO.FS.readFile path)
  catch _ =>
    return none

/-- Write a text file. -/
def writeFile? (path content : String) : IO Bool := do
  try
    IO.FS.writeFile path content
    return true
  catch _ =>
    return false

/-- Search a pair with a limit in milliseconds. The search may look at its clock `looks` times
before it counts as timed out; if it is then still early, it starts again with twice as many
looks. -/
partial def searchWithin (start limit looks : Nat) (p : TemplatePair) (settings : Settings) :
    IO SearchRun := do
  let clock := fun look => if look < looks then 0 else limit
  let r ← IO.lazyPure fun _ => p.search settings Oracle.isomorphism clock
  if r.final.timedOut then
    if (← IO.monoMsNow) - start < limit then searchWithin start limit (2 * looks) p settings
    else return r
  else return r

/-- Search a pair, as long as the settings allow. -/
def searchNow (p : TemplatePair) (settings : Settings) : IO SearchRun := do
  match settings.timeout with
  | none => return p.search settings Oracle.isomorphism fun _ => 0
  | some limit => searchWithin (← IO.monoMsNow) limit 64 p settings

/-- The files and the clock of the machine. -/
def machine : Host IO where
  read := readFile?
  write := writeFile?
  search := searchNow

end QueryRules

/-- Run the command line. -/
def main (args : List String) : IO UInt32 := do
  let output ← QueryRules.CommandLine.run QueryRules.machine args
  IO.print output.stdout
  IO.eprint output.stderr
  return UInt32.ofNat output.code
