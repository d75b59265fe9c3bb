import QueryRules.Text.Number

/-!
# The command line

The two commands and their options. An option is written `--name value` or `--name=value` and may
be given once; a flag takes no value. A value that starts with a dash must be attached by an
equals sign, unless it is a dash alone. The verbosity flag `-v` may stand anywhere and be
repeated. There are no other arguments; `--` may end the list.
-/

namespace QueryRules

/-- Search the rules between two templates. -/
structure EnumerateArgs where
  source : String
  target : String
  timeout : Option Nat
  dryRun : Bool
  config : Option String
  deriving DecidableEq

/-- Search the rules of many pairs of templates. -/
structure BatchArgs where
  input : String
  out : Option String
  threads : Option Nat
  config : Option String
  deriving DecidableEq

/-- What the command line asks for. -/
inductive Invocation where
  | enumerate (args : EnumerateArgs)
  | batch (args : BatchArgs)
  | help
  | version
  /-- The arguments make no sense. -/
  | misuse
  deriving DecidableEq

namespace CommandLine

/-! ## Options -/

/-- What an option takes. -/
inductive OptionType where
  | flag | text | path | number
  deriving DecidableEq

/-- An option of a command. -/
structure OptionSpec where
  name : String
  type : OptionType

/-- Numbers have 64 bits. -/
def number? (value : String) : Option Nat :=
  Text.readNat? 18446744073709551616 value.toList

/-- Whether a value is allowed. -/
def OptionType.accepts (type : OptionType) (value : String) : Bool :=
  match type with
  | .flag => false
  | .text => true
  | .path => value ≠ ""
  | .number => (number? value).isSome

/-- The form of an argument. -/
inductive Argument where
  /-- Two dashes and nothing else. -/
  | ending
  /-- Two dashes, a name, and perhaps a value after an equals sign. -/
  | long (name : String) (value : Option String)
  /-- A dash and letters. -/
  | short (letters : List Char)
  /-- Anything else. -/
  | plain
  deriving DecidableEq

/-- The form of an argument. -/
def Argument.ofString (arg : String) : Argument :=
  match arg.toList with
  | ['-', '-'] => .ending
  | '-' :: '-' :: rest =>
    let name := String.ofList (rest.takeWhile (· ≠ '='))
    match rest.dropWhile (· ≠ '=') with
    | [] => .long name none
    | _ :: value => .long name (some (String.ofList value))
  | '-' :: c :: rest => .short (c :: rest)
  | _ => .plain

/-- Why reading arguments stops early. -/
inductive Stop where
  | help | misuse
  deriving DecidableEq

/-- Read letters after a dash: `v` is for verbosity and `h` asks for help. -/
def readLetters : List Char → Except Stop Unit
  | [] => .ok ()
  | 'v' :: rest => readLetters rest
  | 'h' :: _ => .error .help
  | _ => .error .misuse

/-- Add a value of an option, unless it was given before. -/
def give (given : List (String × String)) (spec : OptionSpec) (value : String) :
    Except Stop (List (String × String)) :=
  if (given.lookup spec.name).isSome || !spec.type.accepts value then .error .misuse
  else .ok (given ++ [(spec.name, value)])

/-- Read the options of a command from left to right. The result holds the values of the options
that are given; that of a flag is empty. -/
def readOptions (specs : List OptionSpec) (given : List (String × String)) :
    List String → Except Stop (List (String × String))
  | [] => .ok given
  | arg :: rest =>
    match Argument.ofString arg with
    | .plain => .error .misuse
    | .ending => if rest.isEmpty then .ok given else .error .misuse
    | .short letters =>
      match readLetters letters with
      | .ok _ => readOptions specs given rest
      | .error e => .error e
    | .long "verbose" none => readOptions specs given rest
    | .long "help" none => .error .help
    | .long name value =>
      match specs.find? (·.name = name), value with
      | none, _ => .error .misuse
      | some spec, some value =>
        match give given spec value with
        | .ok given => readOptions specs given rest
        | .error e => .error e
      | some spec, none =>
        if spec.type = .flag then
          if (given.lookup name).isSome then .error .misuse
          else readOptions specs (given ++ [(name, "")]) rest
        else
          match rest with
          | [] => .error .misuse
          | value :: rest =>
            if Argument.ofString value = .plain then
              match give given spec value with
              | .ok given => readOptions specs given rest
              | .error e => .error e
            else .error .misuse

/-! ## Commands -/

/-- The options of the command that searches one pair. -/
def enumerateOptions : List OptionSpec :=
  [⟨"source", .text⟩, ⟨"target", .text⟩, ⟨"timeout-ms", .number⟩, ⟨"dry-run", .flag⟩,
    ⟨"config", .path⟩]

/-- The options of the command that searches many pairs. -/
def batchOptions : List OptionSpec :=
  [⟨"input", .path⟩, ⟨"out", .path⟩, ⟨"threads", .number⟩, ⟨"config", .path⟩]

/-- The invocation of a command with the given options; a required one may be missing. -/
def invocation (make : List (String × String) → Option Invocation) :
    Except Stop (List (String × String)) → Invocation
  | .error .help => .help
  | .error .misuse => .misuse
  | .ok given => (make given).getD .misuse

/-- The command that searches one pair. -/
def enumerate? (given : List (String × String)) : Option Invocation := do
  let source ← given.lookup "source"
  let target ← given.lookup "target"
  return .enumerate {
    source, target
    timeout := (given.lookup "timeout-ms").bind number?
    dryRun := (given.lookup "dry-run").isSome
    config := given.lookup "config" }

/-- The command that searches many pairs. -/
def batch? (given : List (String × String)) : Option Invocation := do
  let input ← given.lookup "input"
  return .batch {
    input
    out := given.lookup "out"
    threads := (given.lookup "threads").bind number?
    config := given.lookup "config" }

/-- Read letters after a dash in front of the command. Only there the version can be asked for. -/
def readFrontLetters : List Char → Option Invocation
  | [] => none
  | 'v' :: rest => readFrontLetters rest
  | 'h' :: _ => some .help
  | 'V' :: _ => some .version
  | _ => some .misuse

/-- What comes after the word `help`: nothing, or the name of a command. -/
def helpOn : List String → Invocation
  | [] => .help
  | ["enumerate"] => .help
  | ["batch"] => .help
  | ["help"] => .help
  | _ => .misuse

/-- Read a command line. -/
def read : List String → Invocation
  | [] => .misuse
  | arg :: rest =>
    match Argument.ofString arg with
    | .ending => .misuse
    | .long "verbose" none => read rest
    | .long "help" none => .help
    | .long "version" none => .version
    | .long _ _ => .misuse
    | .short letters => (readFrontLetters letters).getD (read rest)
    | .plain =>
      match arg with
      | "enumerate" => invocation enumerate? (readOptions enumerateOptions [] rest)
      | "batch" => invocation batch? (readOptions batchOptions [] rest)
      | "help" => helpOn rest
      | _ => .misuse

end CommandLine

end QueryRules
