import QueryRules.Json
import QueryRules.NormalForm
import QueryRules.Schema

/-!
# Terms and facts as JSON

A variant is an object with one field, named for the variant; a record is an object with one field
for each component. Decoding ignores fields it does not know. Conjunctions and disjunctions pass
through their checked constructors, so a value that is well-formed JSON may still be refused.

Values nest, so decoders count down a number; the depth of the JSON value is enough.
-/

namespace QueryRules

mutual

/-- How deeply a JSON value is nested. -/
def Json.depth : Json → Nat
  | .arr items => Json.depthItems items + 1
  | .obj fields => Json.depthFields fields + 1
  | _ => 0

/-- How deeply the items of an array are nested. -/
def Json.depthItems : List Json → Nat
  | [] => 0
  | j :: js => max j.depth (Json.depthItems js)

/-- How deeply the fields of an object are nested. -/
def Json.depthFields : List (String × Json) → Nat
  | [] => 0
  | (_, j) :: fs => max j.depth (Json.depthFields fs)

end

/-! ## Tuples -/

mutual

/-- A tuple expression as JSON. -/
def Tuple.toJson : Tuple → Json
  | .var n => .variant "Base" (.str n)
  | .const c => .variant "Const" (.str c)
  | .attr base n => .variant "Proj" (.obj [("base", base.toJson), ("attr", .str n)])
  | .call f args => .variant "Func" (.obj [("name", .str f), ("args", .arr (Tuple.toJsons args))])

/-- A list of tuple expressions as JSON. -/
def Tuple.toJsons : List Tuple → List Json
  | [] => []
  | t :: ts => t.toJson :: Tuple.toJsons ts

end

/-- Decode a tuple expression that nests at most as deeply as the number says. -/
def Tuple.decode : Nat → Json → Option Tuple
  | 0, _ => none
  | n + 1, j =>
    match j.variant? with
    | some ("Base", v) => v.str?.map .var
    | some ("Const", v) => v.str?.map .const
    | some ("Proj", v) => do
      let base ← v.field? "base"
      let base ← Tuple.decode n base
      let name ← (← v.field? "attr").str?
      return .attr base name
    | some ("Func", v) => do
      let name ← (← v.field? "name").str?
      let args ← (← v.field? "args").list? (Tuple.decode n)
      return .call name args
    | _ => none

/-- Decode a tuple expression. -/
def Tuple.ofJson? (j : Json) : Option Tuple :=
  Tuple.decode (j.depth + 1) j

/-- Decode a list of tuple expressions. -/
def Tuple.listOfJson? (j : Json) : Option (List Tuple) :=
  j.list? Tuple.ofJson?

/-! ## Terms -/

/-- A term as JSON. -/
def Term.toJson : Term → Json
  | .table n row => .variant "Table" (.obj [("name", .str n), ("var", row.toJson)])
  | .pred n args => .variant "Pred" (.obj [("name", .str n), ("args", .arr (Tuple.toJsons args))])
  | .eq l r => .variant "EqPred" (.obj [("left", l.toJson), ("right", r.toJson)])
  | .add l r => .variant "Add" (.arr [l.toJson, r.toJson])
  | .mul l r => .variant "Mul" (.arr [l.toJson, r.toJson])
  | .not t => .variant "Not" t.toJson
  | .squash t => .variant "Squash" t.toJson
  | .sum vars body =>
    .variant "Sum" (.obj [("vars", .arr (Tuple.toJsons vars)), ("body", body.toJson)])

/-- Decode a term that nests at most as deeply as the number says. -/
def Term.decode : Nat → Json → Option Term
  | 0, _ => none
  | n + 1, j =>
    match j.variant? with
    | some ("Table", v) => do
      let name ← (← v.field? "name").str?
      let row ← Tuple.ofJson? (← v.field? "var")
      return .table name row
    | some ("Pred", v) => do
      let name ← (← v.field? "name").str?
      let args ← Tuple.listOfJson? (← v.field? "args")
      return .pred name args
    | some ("EqPred", v) => do
      let left ← Tuple.ofJson? (← v.field? "left")
      let right ← Tuple.ofJson? (← v.field? "right")
      return .eq left right
    | some ("Add", .arr [l, r]) => do
      let l ← Term.decode n l
      let r ← Term.decode n r
      return .add l r
    | some ("Mul", .arr [l, r]) => do
      let l ← Term.decode n l
      let r ← Term.decode n r
      return .mul l r
    | some ("Not", t) => (Term.decode n t).map .not
    | some ("Squash", t) => (Term.decode n t).map .squash
    | some ("Sum", v) => do
      let vars ← Tuple.listOfJson? (← v.field? "vars")
      let body ← v.field? "body"
      let body ← Term.decode n body
      return .sum vars body
    | _ => none

/-- Decode a term. -/
def Term.ofJson? (j : Json) : Option Term :=
  Term.decode (j.depth + 1) j

/-! ## Normal forms -/

mutual

/-- A conjunction as JSON. -/
def Conj.toJson : Conj → Json
  | ⟨vars, tables, preds, squash, negation⟩ =>
    .obj [("vars", .arr (Tuple.toJsons vars)),
      ("tables", .arr (tables.map (·.toTerm.toJson))),
      ("predicates", .arr (preds.map (·.toTerm.toJson))),
      ("squash", Disj.toJsonOption squash),
      ("negation", Disj.toJsonOption negation)]

/-- An optional disjunction as JSON. -/
def Disj.toJsonOption : Option (List Conj) → Json
  | none => .null
  | some d => .obj [("conjunctions", .arr (Disj.toJsons d))]

/-- The conjunctions of a disjunction as JSON. -/
def Disj.toJsons : List Conj → List Json
  | [] => []
  | c :: cs => c.toJson :: Disj.toJsons cs

end

/-- A disjunction as JSON. -/
def Disj.toJson (d : Disj) : Json :=
  .obj [("conjunctions", .arr (Disj.toJsons d))]

/-- Why a JSON value is no normal form. -/
inductive DecodeError where
  /-- The value does not have the shape of the encoding. -/
  | malformed
  /-- A checked constructor refused a part of the value. -/
  | invalid (error : NormalFormError)

namespace DecodeError

/-- A missing value is malformed. -/
def require {α : Type} : Option α → Except DecodeError α
  | some a => .ok a
  | none => .error .malformed

/-- A field that has to be there. -/
def requireField (j : Json) (name : String) : Except DecodeError Json :=
  require (j.field? name)

end DecodeError

open DecodeError in
mutual

/-- Decode a conjunction that nests at most as deeply as the number says. Fields are decoded in the
order of their names. -/
def Conj.decode : Nat → Json → Except DecodeError Conj
  | 0, _ => .error .malformed
  | n + 1, j => do
    let negation ← Disj.decodeOption n (j.field? "negation")
    let preds ← require ((← requireField j "predicates").list? Term.ofJson?)
    let squash ← Disj.decodeOption n (j.field? "squash")
    let tables ← require ((← requireField j "tables").list? Term.ofJson?)
    let vars ← require (Tuple.listOfJson? (← requireField j "vars"))
    (Conj.ofTerms vars tables preds squash negation).mapError .invalid

/-- Decode an optional disjunction; a missing field and null are none. -/
def Disj.decodeOption : Nat → Option Json → Except DecodeError (Option Disj)
  | 0, _ => .error .malformed
  | _ + 1, none => .ok none
  | _ + 1, some .null => .ok none
  | n + 1, some j => (Disj.decode n j).map some

/-- Decode a disjunction that nests at most as deeply as the number says. -/
def Disj.decode : Nat → Json → Except DecodeError Disj
  | 0, _ => .error .malformed
  | n + 1, j => do
    let items ← require (← requireField j "conjunctions").arr?
    let cs ← items.mapM (Conj.decode n)
    (Disj.ofConjs cs).mapError .invalid

end

/-- Decode a disjunction. -/
def Disj.ofJson (j : Json) : Except DecodeError Disj :=
  Disj.decode (2 * j.depth + 2) j

/-- Decode an optional disjunction. -/
def Disj.optionOfJson (j : Option Json) : Except DecodeError (Option Disj) :=
  match j with
  | none => .ok none
  | some .null => .ok none
  | some j => (Disj.ofJson j).map some

/-! ## Facts -/

/-- A unique key as JSON. -/
def UniqueKey.toJson (k : UniqueKey) : Json :=
  .obj [("table", .str k.table), ("columns", .strs k.columns)]

/-- A foreign key as JSON. -/
def ForeignKey.toJson (k : ForeignKey) : Json :=
  .obj [("table", .str k.table), ("columns", .strs k.columns), ("ref_table", .str k.refTable),
    ("ref_columns", .strs k.refColumns)]

/-- A column that is never null as JSON. -/
def NotNullColumn.toJson (c : NotNullColumn) : Json :=
  .obj [("table", .str c.table), ("column", .str c.column)]

/-- Facts as JSON. -/
def Facts.toJson (f : Facts) : Json :=
  .obj [("unique_keys", .arr (f.uniqueKeys.map UniqueKey.toJson)),
    ("foreign_keys", .arr (f.foreignKeys.map ForeignKey.toJson)),
    ("not_null", .arr (f.notNull.map NotNullColumn.toJson))]

/-- Decode a unique key. -/
def UniqueKey.ofJson? (j : Json) : Option UniqueKey := do
  let table ← (← j.field? "table").str?
  let columns ← (← j.field? "columns").list? Json.str?
  return ⟨table, columns⟩

/-- Decode a foreign key. -/
def ForeignKey.ofJson? (j : Json) : Option ForeignKey := do
  let table ← (← j.field? "table").str?
  let columns ← (← j.field? "columns").list? Json.str?
  let refTable ← (← j.field? "ref_table").str?
  let refColumns ← (← j.field? "ref_columns").list? Json.str?
  return ⟨table, columns, refTable, refColumns⟩

/-- Decode a column that is never null. -/
def NotNullColumn.ofJson? (j : Json) : Option NotNullColumn := do
  let table ← (← j.field? "table").str?
  let column ← (← j.field? "column").str?
  return ⟨table, column⟩

/-- Decode facts. -/
def Facts.ofJson? (j : Json) : Option Facts := do
  let uniqueKeys ← (← j.field? "unique_keys").list? UniqueKey.ofJson?
  let foreignKeys ← (← j.field? "foreign_keys").list? ForeignKey.ofJson?
  let notNull ← (← j.field? "not_null").list? NotNullColumn.ofJson?
  return ⟨uniqueKeys, foreignKeys, notNull⟩

/-- Constants as JSON. -/
def Constants.toJson (c : Constants) : Json :=
  .obj [("vars", .arr (Tuple.toJsons c.tuples))]

/-- Decode a recorded reduction step. -/
def Step.ofJson? (j : Json) : Option Step := do
  let pass ← (← j.field? "pass").nat64?
  let position ← (← j.field? "pos").list? Json.nat32?
  let law ← Law.ofName? (← (← j.field? "rule").str?)
  return ⟨pass, position, law⟩

end QueryRules
