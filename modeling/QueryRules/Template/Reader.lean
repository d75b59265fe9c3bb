import QueryRules.Template
import QueryRules.Text.Scan

/-!
# Reading templates

A written template is read in two steps. The first yields a *sketch*: operator names with the
symbol names and operands that are written down. The second binds a new symbol for every hole,
from the operands to the root.

Names may be left out as a whole, and then the symbols get fresh ones; operands may be left out as
a whole, and then they are tables.
-/

namespace QueryRules

/-- Why a text is no template. -/
inductive TemplateError where
  | malformed (text : String) (cause : ScanError)
  | unknownOperator (name : String)
  | operandCount (name : String) (expected found : Nat)
  | symbolCount (name : String) (expected found : Nat)
  | naming (cause : NamingError)
  /-- A running number would get more than 32 bits. This is no fault of the text, and nothing can go
  on after it. -/
  | overflow
  deriving DecidableEq

/-- The message of a template error. -/
def TemplateError.message : TemplateError → String
  | .malformed text cause => "malformed fragment `" ++ text ++ "`: " ++ cause.message
  | .unknownOperator name => "unknown template operator `" ++ name ++ "`"
  | .operandCount name expected found =>
    "`" ++ name ++ "` takes " ++ expected.repr ++ " operands, found " ++ found.repr
  | .symbolCount name expected found =>
    "`" ++ name ++ "` binds " ++ expected.repr ++ " symbols, found " ++ found.repr ++ " names"
  | .naming cause => cause.message
  | .overflow => "attempt to add with overflow"

/-! ## Sketches -/

/-- A written operator: its name, the names of its symbols, and its operands. -/
inductive Sketch where
  | node (op : String) (names : List String) (operands : List Sketch)
  deriving Inhabited

namespace Sketch

/-- The name of an operator: letters, and perhaps a star. -/
def scanOperator : Scan String := fun cs => do
  let (name, cs) ← Scan.word Char.isAlpha cs
  match Scan.optional (Scan.char '*') cs with
  | (some _, cs) => return (name ++ "*", cs)
  | (none, cs) => return (name, cs)

/-- What stands between two names of symbols: some spaces, or one comma. -/
def scanGap : Scan Unit := fun cs =>
  match Scan.word Text.isSpace cs with
  | .ok (_, rest) => .ok ((), rest)
  | .error _ => Scan.char ',' cs

/-- The names of symbols between angle brackets. -/
def scanNames : Scan (List String) :=
  Scan.bracketed '<' '>' scanGap (Scan.word Scan.isNameChar)

/-- A sketch whose operators nest at most as deeply as the number says. -/
def scan : Nat → Scan Sketch
  | 0, cs => .error ⟨.word, cs⟩
  | depth + 1, cs => do
    let (op, cs) ← scanOperator cs
    let (names, cs) := Scan.optional scanNames cs
    let (operands, cs) := Scan.optional (Scan.bracketed '(' ')' (Scan.spaced ',') (scan depth)) cs
    return (.node op (names.getD []) (operands.getD []), cs)

/-- Read a whole text as a sketch. A level of nesting takes at least one character. -/
def ofText (text : List Char) : Except ScanError Sketch :=
  Scan.whole (scan (text.length + 1)) text

end Sketch

/-! ## Binding symbols -/

/-- The names known so far and the number of symbols bound so far. -/
structure Binding where
  names : Names
  bound : Nat

/-- A step of binding, which may fail. The names given before it fails stay. -/
abbrev Bind :=
  ExceptT TemplateError (StateM Binding)

namespace Template

/-- Bind a new symbol, with the given name or a fresh one. -/
def bindSymbol (side : Side) (kind : SymbolKind) (name : Option String) : Bind Symbol := do
  let b ← get
  let s : Symbol := ⟨side, kind, b.bound⟩
  match name with
  | none =>
    match b.names.assign s with
    | some (_, names) => set (⟨names, b.bound + 1⟩ : Binding)
    | none => throw .overflow
  | some name =>
    let (result, names) := b.names.set s name
    set (⟨names, b.bound + 1⟩ : Binding)
    match result with
    | .ok _ => pure ()
    | .error e => throw (.naming e)
  return s

/-- Bind symbols of the given kinds from left to right. The names are used as far as they go. -/
def bindSymbols (side : Side) : List SymbolKind → List String → Bind (List Symbol)
  | [], _ => return []
  | kind :: kinds, names => do
    let s ← bindSymbol side kind names.head?
    let rest ← bindSymbols side kinds names.tail
    return s :: rest

/-- An operator with its symbols and operands. -/
def assemble? : Operator → List Symbol → List Template → Option Template
  | .input, [table], [] => some (.input table)
  | .proj dedup, [attrs], [p] => some (.proj dedup attrs p)
  | .filter, [pred, attrs], [p] => some (.filter pred attrs p)
  | .inSub, [attrs], [p, q] => some (.inSub attrs p q)
  | .join kind, [leftAttrs, rightAttrs], [l, r] => some (.join kind leftAttrs rightAttrs l r)
  | .union dedup, [], [l, r] => some (.union dedup l r)
  | _, _, _ => none

/-- Tables with fresh names. -/
def bindHoles (side : Side) : Nat → Bind (List Template)
  | 0 => return []
  | n + 1 => do
    let s ← bindSymbol side .table none
    let rest ← bindHoles side n
    return .input s :: rest

mutual

/-- Bind the symbols of a sketch, those of the operands first. -/
def bind (side : Side) : Sketch → Bind Template
  | .node name names operands => do
    match Operator.ofName? name with
    | none => throw (.unknownOperator name)
    | some op =>
      let inputs ←
        if operands.isEmpty then bindHoles side op.arity
        else if operands.length = op.arity then bindAll side operands
        else throw (.operandCount name op.arity operands.length)
      let kinds := op.symbolKinds
      if !names.isEmpty && names.length ≠ kinds.length then
        throw (.symbolCount name kinds.length names.length)
      let symbols ← bindSymbols side kinds names
      match assemble? op symbols inputs with
      | some t => return t
      | none => throw (.unknownOperator name)

/-- Bind the symbols of sketches from left to right. -/
def bindAll (side : Side) : List Sketch → Bind (List Template)
  | [] => return []
  | s :: rest => do
    let t ← bind side s
    let ts ← bindAll side rest
    return t :: ts

end

/-- Read a template of the given side. Its symbols are named in the table of names, which is also
returned if reading fails. -/
def read (text : String) (side : Side) (names : Names) : Except TemplateError Template × Names :=
  match Sketch.ofText text.toList with
  | .error e => (.error (.malformed text e), names)
  | .ok sketch =>
    let (result, b) := (bind side sketch).run ⟨names, 0⟩
    (result, b.names)

end Template

end QueryRules
