import QueryRules.CommandLine
import QueryRules.Json.Reader
import QueryRules.Json.Settings

/-!
# Running a command

Settings and pairs are read from JSON files, the searches are run, and the rules are written to
the standard output or to a file. What a command needs from its surroundings is a `Host`: reading
and writing files, and searching a pair, which may depend on a clock.
-/

namespace QueryRules

/-- What a command may use. -/
structure Host (m : Type → Type) where
  /-- Read a text file; nothing if it cannot be read. -/
  read : String → m (Option String)
  /-- Write a text file; tells whether it was written. -/
  write : String → String → m Bool
  /-- Search the rules between two templates. -/
  search : TemplatePair → Settings → m SearchRun

/-- What a command prints, and its exit code. -/
structure Output where
  code : Nat
  stdout : String
  stderr : String
  deriving DecidableEq

namespace Output

/-- Lines of text, each with its end. -/
def lines (ls : List String) : String :=
  String.join (ls.map (· ++ "\n"))

/-- Put four blanks in front of every line. -/
def indent (text : String) : String :=
  "\n".intercalate ((text.splitOn "\n").map ("    " ++ ·))

/-- The place of a cause in a list of several, in front of its first line. -/
def numbered (i : Nat) (text : String) : String :=
  let mark := i.repr ++ ": "
  let front := String.ofList (List.replicate (7 - mark.length) ' ') ++ mark
  front ++ ("\n" ++ String.ofList (List.replicate 7 ' ')).intercalate (text.splitOn "\n")

/-- The text of an error and of what caused it, the nearest cause first. -/
def errorText (error : String) : List String → String
  | [] => error
  | [cause] => error ++ "\n\nCaused by:\n" ++ indent cause
  | causes =>
    error ++ "\n\nCaused by:\n" ++ "\n".intercalate (causes.mapIdx numbered)

/-- A failure. -/
def failure (error : String) (causes : List String) : Output :=
  ⟨1, "", "Error: " ++ errorText error causes ++ "\n"⟩

/-- The end of a command in which a running number gets too large. -/
def overflow : Output :=
  ⟨101, "", TemplateError.overflow.message ++ "\n"⟩

end Output

namespace CommandLine

variable {m : Type → Type} [Monad m] {α : Type}

/-- The name and version of the program. -/
def versionLine : String :=
  "equirule 0.1.0"

/-- How the program is used. -/
def usage : List String :=
  ["Usage: equirule [-v] enumerate --source TEMPLATE --target TEMPLATE",
    "                [--timeout-ms N] [--dry-run] [--config FILE]",
    "       equirule [-v] batch --input FILE [--out FILE] [--threads N] [--config FILE]"]

/-- Read a JSON file. The error tells whether the file could not be read or has the wrong content.
-/
def readJson (h : Host m) (decode : Json → Option α) (path : String) : m (Except Output α) := do
  match ← h.read path with
  | none => return .error (.failure ("failed to read " ++ path) [])
  | some text =>
    match (Json.parse? text).bind decode with
    | some a => return .ok a
    | none => return .error (.failure ("failed to parse " ++ path) [])

/-- Read settings from a file if there is one. -/
def readConfig (h : Host m) (decode : Json → Option α) (default : α) :
    Option String → m (Except Output α)
  | none => return .ok default
  | some path => readJson h decode path

/-- The output of a search of one pair. -/
def enumerateOutput (p : TemplatePair) (r : SearchRun) : Output :=
  match r.result with
  | .error (.template .overflow) => .overflow
  | .error e =>
    .failure ("failed to enumerate `" ++ p.source ++ "` vs `" ++ p.target ++ "`") [e.message]
  | .ok o =>
    let status := if o.timedOut then "timeout" else "ok"
    ⟨0, Output.lines (o.rules.map Rule.text), status ++ " " ++ o.rules.length.repr ++ " rule(s), "
      ++ o.stats.oracleCalls.repr ++ " oracle call(s), " ++ o.stats.cacheHits.repr
      ++ " cache hit(s)\n"⟩

/-- Search one pair. Options of the command line win over settings from a file. -/
def runEnumerate (h : Host m) (args : EnumerateArgs) : m Output := do
  match ← readConfig h Settings.ofJson? {} args.config with
  | .error output => return output
  | .ok settings =>
    let settings := { settings with
      timeout := args.timeout <|> settings.timeout
      dryRun := settings.dryRun || args.dryRun }
    let p : TemplatePair := ⟨args.source, args.target⟩
    return enumerateOutput p (← h.search p settings)

/-- The last line of a batch. -/
def reportLine (r : BatchReport) : String :=
  "ok " ++ r.pairs.repr ++ " pair(s): " ++ r.enumerated.repr ++ " enumerated, " ++ r.skipped.repr
    ++ " skipped, " ++ r.timedOut.repr ++ " timed out, " ++ r.rules.repr ++ " rule(s)\n"

/-- Write the rules of a batch to a file, or else to the standard output. -/
def writeBatch (h : Host m) (out : Option String) (b : Batch) : m Output := do
  let text := Output.lines b.rules
  match out with
  | none => return ⟨0, text, reportLine b.report⟩
  | some path =>
    if ← h.write path text then return ⟨0, "", "wrote " ++ path ++ "\n" ++ reportLine b.report⟩
    else return .failure ("failed to write " ++ path) []

/-- Search many pairs. -/
def runBatch (h : Host m) (args : BatchArgs) : m Output := do
  match ← readConfig h BatchSettings.ofJson? {} args.config with
  | .error output => return output
  | .ok settings =>
    match ← readJson h (Json.list? TemplatePair.ofJson?) args.input with
    | .error output => return output
    | .ok pairs =>
      let runs ← pairs.mapM fun p => h.search p settings.search
      match Batch.ofRuns runs with
      | .error ⟨_, .template .overflow⟩ => return .overflow
      | .error e => return .failure "batch enumeration failed" [e.message, e.cause.message]
      | .ok b => writeBatch h args.out b

/-- Run a command line. -/
def run (h : Host m) (args : List String) : m Output :=
  match read args with
  | .enumerate args => runEnumerate h args
  | .batch args => runBatch h args
  | .help => return ⟨0, Output.lines usage, ""⟩
  | .version => return ⟨0, versionLine ++ "\n", ""⟩
  | .misuse => return ⟨2, "", Output.lines usage⟩

end CommandLine

end QueryRules
