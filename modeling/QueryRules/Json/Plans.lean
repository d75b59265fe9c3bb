import QueryRules.Json.Terms
import QueryRules.Plan

/-!
# Plans as JSON
-/

namespace QueryRules

/-! ## Scalars and conditions -/

mutual

/-- A scalar expression as JSON. -/
def Scalar.toJson : Scalar → Json
  | .column q c => .variant "Column" (.obj [("qualifier", .str q), ("column", .str c)])
  | .literal t => .variant "Literal" (.str t)
  | .call f args => .variant "Call" (.obj [("name", .str f), ("args", .arr (Scalar.toJsons args))])

/-- A list of scalar expressions as JSON. -/
def Scalar.toJsons : List Scalar → List Json
  | [] => []
  | s :: ss => s.toJson :: Scalar.toJsons ss

end

/-- Decode a scalar expression that nests at most as deeply as the number says. -/
def Scalar.decode : Nat → Json → Option Scalar
  | 0, _ => none
  | n + 1, j =>
    match j.variant? with
    | some ("Column", v) => do
      let qualifier ← (← v.field? "qualifier").str?
      let column ← (← v.field? "column").str?
      return .column qualifier column
    | some ("Literal", v) => v.str?.map .literal
    | some ("Call", v) => do
      let name ← (← v.field? "name").str?
      let args ← (← v.field? "args").list? (Scalar.decode n)
      return .call name args
    | _ => none

/-- Decode a scalar expression. -/
def Scalar.ofJson? (j : Json) : Option Scalar :=
  Scalar.decode (j.depth + 1) j

mutual

/-- A condition as JSON. -/
def Condition.toJson : Condition → Json
  | .eq l r => .variant "Eq" (.arr [l.toJson, r.toJson])
  | .call f args => .variant "Call" (.obj [("name", .str f), ("args", .arr (Scalar.toJsons args))])
  | .all parts => .variant "And" (.arr (Condition.toJsons parts))

/-- A list of conditions as JSON. -/
def Condition.toJsons : List Condition → List Json
  | [] => []
  | c :: cs => c.toJson :: Condition.toJsons cs

end

/-- Decode a condition that nests at most as deeply as the number says. -/
def Condition.decode : Nat → Json → Option Condition
  | 0, _ => none
  | n + 1, j =>
    match j.variant? with
    | some ("Eq", .arr [l, r]) => do
      let l ← Scalar.ofJson? l
      let r ← Scalar.ofJson? r
      return .eq l r
    | some ("Call", v) => do
      let name ← (← v.field? "name").str?
      let args ← (← v.field? "args").list? Scalar.ofJson?
      return .call name args
    | some ("And", v) => (v.list? (Condition.decode n)).map .all
    | _ => none

/-- Decode a condition. -/
def Condition.ofJson? (j : Json) : Option Condition :=
  Condition.decode (j.depth + 1) j

/-! ## Plans -/

/-- An item of a projection as JSON. -/
def Item.toJson (i : Item) : Json :=
  .obj [("expr", i.expr.toJson), ("name", .str i.name)]

/-- Decode an item of a projection. -/
def Item.ofJson? (j : Json) : Option Item := do
  let expr ← Scalar.ofJson? (← j.field? "expr")
  let name ← (← j.field? "name").str?
  return ⟨expr, name⟩

/-- A plan as JSON. -/
def Plan.toJson : Plan → Json
  | .input table aliasName columns =>
    .variant "Input" (.obj [("table", .str table), ("alias", .str aliasName),
      ("columns", .strs columns)])
  | .proj p items distinct aliasName =>
    .variant "Proj" (.obj [("input", p.toJson), ("items", .arr (items.map Item.toJson)),
      ("distinct", .bool distinct), ("alias", .str aliasName)])
  | .filter p condition =>
    .variant "Filter" (.obj [("input", p.toJson), ("predicate", condition.toJson)])
  | .inSub p lhs subquery =>
    .variant "InSubFilter" (.obj [("input", p.toJson), ("lhs", .arr (Scalar.toJsons lhs)),
      ("subquery", subquery.toJson)])
  | .exists p subquery =>
    .variant "ExistsFilter" (.obj [("input", p.toJson), ("subquery", subquery.toJson)])
  | .join kind left right condition =>
    .variant "Join" (.obj [("kind", .str kind.name), ("left", left.toJson),
      ("right", right.toJson), ("condition", .ofOption Condition.toJson condition)])
  | .setOp kind distinct left right =>
    .variant "SetOp" (.obj [("kind", .str kind.name), ("distinct", .bool distinct),
      ("left", left.toJson), ("right", right.toJson)])
  | .sort p => .variant "Sort" (.obj [("input", p.toJson)])
  | .limit p count => .variant "Limit" (.obj [("input", p.toJson), ("count", .nat count)])
  | .agg p groupBy items aliasName =>
    .variant "Agg" (.obj [("input", p.toJson), ("group_by", .arr (Scalar.toJsons groupBy)),
      ("items", .arr (items.map Item.toJson)), ("alias", .str aliasName)])

/-- Decode the kind of a join. -/
def JoinKind.ofJson? (j : Json) : Option JoinKind := do
  let name ← j.str?
  JoinKind.all.find? (·.name = name)

/-- Decode the kind of a set operation. -/
def SetOpKind.ofJson? (j : Json) : Option SetOpKind := do
  let name ← j.str?
  SetOpKind.all.find? (·.name = name)

/-- Decode a plan that nests at most as deeply as the number says. -/
def Plan.decode : Nat → Json → Option Plan
  | 0, _ => none
  | n + 1, j =>
    match j.variant? with
    | some ("Input", v) => do
      let table ← (← v.field? "table").str?
      let aliasName ← (← v.field? "alias").str?
      let columns ← (← v.field? "columns").list? Json.str?
      return .input table aliasName columns
    | some ("Proj", v) => do
      let p ← Plan.decode n (← v.field? "input")
      let items ← (← v.field? "items").list? Item.ofJson?
      let distinct ← (← v.field? "distinct").bool?
      let aliasName ← (← v.field? "alias").str?
      return .proj p items distinct aliasName
    | some ("Filter", v) => do
      let p ← Plan.decode n (← v.field? "input")
      let condition ← Condition.ofJson? (← v.field? "predicate")
      return .filter p condition
    | some ("InSubFilter", v) => do
      let p ← Plan.decode n (← v.field? "input")
      let lhs ← (← v.field? "lhs").list? Scalar.ofJson?
      let subquery ← Plan.decode n (← v.field? "subquery")
      return .inSub p lhs subquery
    | some ("ExistsFilter", v) => do
      let p ← Plan.decode n (← v.field? "input")
      let subquery ← Plan.decode n (← v.field? "subquery")
      return .exists p subquery
    | some ("Join", v) => do
      let kind ← JoinKind.ofJson? (← v.field? "kind")
      let left ← Plan.decode n (← v.field? "left")
      let right ← Plan.decode n (← v.field? "right")
      let condition ← ((v.field? "condition").getD .null).option? Condition.ofJson?
      return .join kind left right condition
    | some ("SetOp", v) => do
      let kind ← SetOpKind.ofJson? (← v.field? "kind")
      let distinct ← (← v.field? "distinct").bool?
      let left ← Plan.decode n (← v.field? "left")
      let right ← Plan.decode n (← v.field? "right")
      return .setOp kind distinct left right
    | some ("Sort", v) => do
      let p ← Plan.decode n (← v.field? "input")
      return .sort p
    | some ("Limit", v) => do
      let p ← Plan.decode n (← v.field? "input")
      let count ← (← v.field? "count").nat64?
      return .limit p count
    | some ("Agg", v) => do
      let p ← Plan.decode n (← v.field? "input")
      let groupBy ← (← v.field? "group_by").list? Scalar.ofJson?
      let items ← (← v.field? "items").list? Item.ofJson?
      let aliasName ← (← v.field? "alias").str?
      return .agg p groupBy items aliasName
    | _ => none

/-- Decode a plan. -/
def Plan.ofJson? (j : Json) : Option Plan :=
  Plan.decode (j.depth + 1) j

end QueryRules
