import QueryRules.OrderedSet
import QueryRules.Tuple

/-!
# Schema facts

What is known about the tables that a term mentions: unique keys, foreign keys and columns that
are never null; and which tuples have the same value in every row of a query's result.
-/

namespace QueryRules

/-- No two rows of `table` agree on all of `columns`. -/
structure UniqueKey where
  table : String
  columns : List String
  deriving DecidableEq

/-- The `columns` of a row of `table` are the `refColumns` of some row of `refTable`. -/
structure ForeignKey where
  table : String
  columns : List String
  refTable : String
  refColumns : List String
  deriving DecidableEq

/-- The `column` of `table` is never null. -/
structure NotNullColumn where
  table : String
  column : String
  deriving DecidableEq

/-- Integrity facts about tables. -/
structure Facts where
  uniqueKeys : List UniqueKey
  foreignKeys : List ForeignKey
  notNull : List NotNullColumn
  deriving DecidableEq

namespace Facts

/-- No facts. -/
def none : Facts :=
  ⟨[], [], []⟩

/-- Whether there are no facts. -/
def isEmpty (f : Facts) : Bool :=
  f.uniqueKeys.isEmpty && f.foreignKeys.isEmpty && f.notNull.isEmpty

/-- The unique keys of a table. -/
def uniqueKeysOf (f : Facts) (table : String) : List UniqueKey :=
  f.uniqueKeys.filter (·.table = table)

/-- The foreign keys of a table. -/
def foreignKeysOf (f : Facts) (table : String) : List ForeignKey :=
  f.foreignKeys.filter (·.table = table)

/-- Whether some unique key of a table is contained in `columns`. -/
def isUnique (f : Facts) (table : String) (columns : List String) : Bool :=
  (f.uniqueKeysOf table).any fun uk => uk.columns.all (· ∈ columns)

/-- Whether a column is declared to be never null. -/
def isNotNull (f : Facts) (table column : String) : Bool :=
  f.notNull.any fun nn => nn.table = table && nn.column = column

end Facts

/-- The tuples that count as constants beside the literals: the free variables of a query. -/
structure Constants where
  tuples : OrderedSet Tuple
  deriving DecidableEq

namespace Constants

/-- The constants of a list of tuples. -/
def ofList (ts : List Tuple) : Constants :=
  ⟨.ofList ts⟩

mutual

/-- A tuple is constant when it is a literal, a listed variable, or a projection or function of
constants. -/
def isConstant (c : Constants) : Tuple → Bool
  | .const _ => true
  | .var n => decide (.var n ∈ c.tuples)
  | .attr base _ => isConstant c base
  | .call _ args => areConstant c args

/-- Whether all tuples of a list are constant. -/
def areConstant (c : Constants) : List Tuple → Bool
  | [] => true
  | t :: ts => isConstant c t && areConstant c ts

end

end Constants

end QueryRules
