/-!
# Relational plans

A plan is a tree of relational operators. A column reference is qualified by the alias of the node
that produces the column: a table input, a projection or an aggregation.
-/

namespace QueryRules

/-! ## Scalars -/

/-- A scalar expression of a plan. -/
inductive Scalar where
  | column (qualifier column : String)
  | literal (text : String)
  | call (name : String) (args : List Scalar)
  deriving Inhabited

namespace Scalar

/-- A column reference. -/
def isColumn : Scalar → Bool
  | .column .. => true
  | _ => false

mutual

/-- The column references from left to right. -/
def columns : Scalar → List (String × String)
  | .column q c => [(q, c)]
  | .literal _ => []
  | .call _ args => columnsAll args

/-- The column references of a list of scalars. -/
def columnsAll : List Scalar → List (String × String)
  | [] => []
  | s :: ss => columns s ++ columnsAll ss

end

mutual

/-- The written form in which `col` writes a column reference. -/
def textWith (col : String → String → String) : Scalar → String
  | .column q c => col q c
  | .literal t => t
  | .call f args => f ++ "(" ++ textAllWith col args ++ ")"

/-- A list of scalars, separated by a comma and a blank. -/
def textAllWith (col : String → String → String) : List Scalar → String
  | [] => ""
  | [s] => textWith col s
  | s :: t :: rest => textWith col s ++ ", " ++ textAllWith col (t :: rest)

end

/-- A column reference is written `qualifier.column`. -/
def columnText (qualifier column : String) : String :=
  qualifier ++ "." ++ column

/-- The written form. -/
def text : Scalar → String :=
  textWith columnText

end Scalar

/-! ## Conditions -/

/-- A condition of a filter or a join. -/
inductive Condition where
  | eq (left right : Scalar)
  | call (name : String) (args : List Scalar)
  | all (parts : List Condition)
  deriving Inhabited

namespace Condition

mutual

/-- The conjuncts of a condition, nested conjunctions opened. -/
def conjuncts : Condition → List Condition
  | .eq l r => [.eq l r]
  | .call f args => [.call f args]
  | .all parts => conjunctsAll parts

/-- The conjuncts of a list of conditions. -/
def conjunctsAll : List Condition → List Condition
  | [] => []
  | c :: cs => conjuncts c ++ conjunctsAll cs

end

mutual

/-- The column references from left to right. -/
def columns : Condition → List (String × String)
  | .eq l r => l.columns ++ r.columns
  | .call _ args => Scalar.columnsAll args
  | .all parts => columnsAll parts

/-- The column references of a list of conditions. -/
def columnsAll : List Condition → List (String × String)
  | [] => []
  | c :: cs => columns c ++ columnsAll cs

end

mutual

/-- The written form in which `col` writes a column reference. -/
def textWith (col : String → String → String) : Condition → String
  | .eq l r => l.textWith col ++ " = " ++ r.textWith col
  | .call f args => (Scalar.call f args).textWith col
  | .all parts => textAllWith col parts

/-- A list of conditions, separated by `AND`. -/
def textAllWith (col : String → String → String) : List Condition → String
  | [] => ""
  | [c] => textWith col c
  | c :: d :: rest => textWith col c ++ " AND " ++ textAllWith col (d :: rest)

end

/-- The written form. -/
def text : Condition → String :=
  textWith Scalar.columnText

/-- The written form with a question mark for every column reference. -/
def template : Condition → String :=
  textWith fun _ _ => "?"

end Condition

/-! ## Plans -/

/-- The kind of a join. -/
inductive JoinKind where
  | inner | left | right | full | cross
  deriving DecidableEq

/-- The name of a kind of join. -/
def JoinKind.name : JoinKind → String
  | .inner => "Inner"
  | .left => "Left"
  | .right => "Right"
  | .full => "Full"
  | .cross => "Cross"

/-- All kinds of join. -/
def JoinKind.all : List JoinKind :=
  [.inner, .left, .right, .full, .cross]

/-- The kind of a set operation. -/
inductive SetOpKind where
  | union | intersect | except
  deriving DecidableEq

/-- The name of a kind of set operation. -/
def SetOpKind.name : SetOpKind → String
  | .union => "Union"
  | .intersect => "Intersect"
  | .except => "Except"

/-- All kinds of set operation. -/
def SetOpKind.all : List SetOpKind :=
  [.union, .intersect, .except]

/-- An output column of a projection: an expression and its name. -/
structure Item where
  expr : Scalar
  name : String
  deriving Inhabited

/-- A relational plan. -/
inductive Plan where
  | input (table aliasName : String) (columns : List String)
  | proj (input : Plan) (items : List Item) (distinct : Bool) (aliasName : String)
  | filter (input : Plan) (condition : Condition)
  | inSub (input : Plan) (lhs : List Scalar) (subquery : Plan)
  | exists (input subquery : Plan)
  | join (kind : JoinKind) (left right : Plan) (condition : Option Condition)
  | setOp (kind : SetOpKind) (distinct : Bool) (left right : Plan)
  | sort (input : Plan)
  | limit (input : Plan) (count : Nat)
  | agg (input : Plan) (groupBy : List Scalar) (items : List Item) (aliasName : String)
  deriving Inhabited

namespace Plan

/-- The name of the operator at the root; a star marks deduplication. -/
def operator : Plan → String
  | .input .. => "Input"
  | .proj _ _ distinct _ => if distinct then "Proj*" else "Proj"
  | .filter .. => "Filter"
  | .inSub .. => "InSubFilter"
  | .exists .. => "ExistsFilter"
  | .join kind .. => kind.name ++ "Join"
  | .setOp kind distinct .. => kind.name ++ (if distinct then "*" else "")
  | .sort .. => "Sort"
  | .limit .. => "Limit"
  | .agg .. => "Agg"

/-- The names of the output columns. A set operation takes those of its left side. -/
def outputColumns : Plan → List String
  | .input _ _ columns => columns
  | .proj _ items _ _ => items.map (·.name)
  | .agg _ _ items _ => items.map (·.name)
  | .filter p _ => p.outputColumns
  | .inSub p _ _ => p.outputColumns
  | .exists p _ => p.outputColumns
  | .sort p => p.outputColumns
  | .limit p _ => p.outputColumns
  | .join _ left right _ => left.outputColumns ++ right.outputColumns
  | .setOp _ _ left _ => left.outputColumns

/-- The alias of the node that owns the first output column. -/
def outputOwner : Plan → String
  | .input _ aliasName _ => aliasName
  | .proj _ _ _ aliasName => aliasName
  | .agg _ _ _ aliasName => aliasName
  | .filter p _ => p.outputOwner
  | .inSub p _ _ => p.outputOwner
  | .exists p _ => p.outputOwner
  | .sort p => p.outputOwner
  | .limit p _ => p.outputOwner
  | .join _ left _ _ => left.outputOwner
  | .setOp _ _ left _ => left.outputOwner

/-- Whether the result is deduplicated at the root. -/
def isDedup : Plan → Bool
  | .proj _ _ distinct _ => distinct
  | .setOp _ distinct _ _ => distinct
  | .sort p => p.isDedup
  | .limit p _ => p.isDedup
  | _ => false

/-- The items of a projection: expression and name, separated by a comma and a blank. -/
def itemsText (items : List Item) : String :=
  ", ".intercalate (items.map fun i => i.expr.text ++ " AS " ++ i.name)

/-- The written form of a plan. -/
def text : Plan → String
  | .input table aliasName _ => "Input[" ++ table ++ " AS " ++ aliasName ++ "]"
  | .proj p items distinct aliasName =>
    (if distinct then "Proj*" else "Proj") ++ "[" ++ itemsText items ++ "; " ++ aliasName ++ "]("
      ++ p.text ++ ")"
  | .filter p condition => "Filter[" ++ condition.text ++ "](" ++ p.text ++ ")"
  | .inSub p lhs subquery =>
    "InSubFilter[" ++ Scalar.textAllWith Scalar.columnText lhs ++ "](" ++ p.text ++ ", "
      ++ subquery.text ++ ")"
  | .exists p subquery => "ExistsFilter(" ++ p.text ++ ", " ++ subquery.text ++ ")"
  | .join kind left right condition =>
    let shown := match condition with
      | some c => "[" ++ c.text ++ "]"
      | none => ""
    kind.name ++ "Join" ++ shown ++ "(" ++ left.text ++ ", " ++ right.text ++ ")"
  | .setOp kind distinct left right =>
    kind.name ++ (if distinct then "*" else "") ++ "(" ++ left.text ++ ", " ++ right.text ++ ")"
  | .sort p => "Sort(" ++ p.text ++ ")"
  | .limit p count => "Limit[" ++ count.repr ++ "](" ++ p.text ++ ")"
  | .agg p _ _ aliasName => "Agg[" ++ aliasName ++ "](" ++ p.text ++ ")"

end Plan

end QueryRules
