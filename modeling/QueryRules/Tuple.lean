/-!
# Tuple expressions

A tuple expression names a row: a row variable (bound by a summation or free at the root of a
query), a literal, an attribute of another tuple, or an uninterpreted function of tuples.

Projection is null-strict: every attribute of the null tuple is null, so `Tuple.project` folds on
`Tuple.null`. The constructor `Tuple.attr` does not fold; values read from outside may hold an
unfolded projection of null, and they keep it until a substitution passes over it.
-/

namespace QueryRules

/-- A tuple expression. -/
inductive Tuple where
  | var (name : String)
  | const (text : String)
  | attr (base : Tuple) (name : String)
  | call (name : String) (args : List Tuple)
  deriving Inhabited

namespace Tuple

/-! ## Equality -/

mutual

/-- Structural equality of two tuple expressions is decidable. -/
def decEq : (a b : Tuple) → Decidable (a = b)
  | .var m, .var n =>
    if h : m = n then isTrue (by rw [h]) else isFalse (by simpa using h)
  | .const m, .const n =>
    if h : m = n then isTrue (by rw [h]) else isFalse (by simpa using h)
  | .attr a m, .attr b n =>
    match decEq a b with
    | isTrue hb =>
      if h : m = n then isTrue (by rw [hb, h]) else isFalse (by simp [h])
    | isFalse hb => isFalse (by simp [hb])
  | .call m as, .call n bs =>
    match decEqList as bs with
    | isTrue hb =>
      if h : m = n then isTrue (by rw [hb, h]) else isFalse (by simp [h])
    | isFalse hb => isFalse (by simp [hb])
  | .var _, .const _ => isFalse (by simp)
  | .var _, .attr _ _ => isFalse (by simp)
  | .var _, .call _ _ => isFalse (by simp)
  | .const _, .var _ => isFalse (by simp)
  | .const _, .attr _ _ => isFalse (by simp)
  | .const _, .call _ _ => isFalse (by simp)
  | .attr _ _, .var _ => isFalse (by simp)
  | .attr _ _, .const _ => isFalse (by simp)
  | .attr _ _, .call _ _ => isFalse (by simp)
  | .call _ _, .var _ => isFalse (by simp)
  | .call _ _, .const _ => isFalse (by simp)
  | .call _ _, .attr _ _ => isFalse (by simp)

/-- Structural equality of two argument lists is decidable. -/
def decEqList : (as bs : List Tuple) → Decidable (as = bs)
  | [], [] => isTrue rfl
  | [], _ :: _ => isFalse (by simp)
  | _ :: _, [] => isFalse (by simp)
  | a :: as, b :: bs =>
    match decEq a b, decEqList as bs with
    | isTrue ha, isTrue hs => isTrue (by rw [ha, hs])
    | isFalse ha, _ => isFalse (by simp [ha])
    | isTrue _, isFalse hs => isFalse (by simp [hs])

end

instance : DecidableEq Tuple := decEq

/-! ## Order

The order is structural: row variables come before literals, literals before projections and
projections before function applications; within one shape the parts are compared from left to
right, strings by code point and argument lists lexicographically. -/

mutual

/-- The structural order of tuple expressions. -/
def compare : Tuple → Tuple → Ordering
  | .var m, .var n => Ord.compare m n
  | .var _, _ => .lt
  | .const _, .var _ => .gt
  | .const m, .const n => Ord.compare m n
  | .const _, _ => .lt
  | .attr a m, .attr b n => (compare a b).then (Ord.compare m n)
  | .attr _ _, .call _ _ => .lt
  | .attr _ _, _ => .gt
  | .call m as, .call n bs => (Ord.compare m n).then (compareList as bs)
  | .call _ _, _ => .gt

/-- The lexicographic order of argument lists. -/
def compareList : List Tuple → List Tuple → Ordering
  | [], [] => .eq
  | [], _ :: _ => .lt
  | _ :: _, [] => .gt
  | a :: as, b :: bs => (compare a b).then (compareList as bs)

end

instance : Ord Tuple := ⟨compare⟩

/-- `a.le b` holds when `a` does not come after `b` in the structural order. -/
def le (a b : Tuple) : Bool :=
  (compare a b).isLE

/-! ## Null and projection -/

/-- The null literal. -/
def null : Tuple :=
  .const "null"

/-- The attribute `name` of a tuple; every attribute of null is null. -/
def project (t : Tuple) (name : String) : Tuple :=
  if t = null then t else .attr t name

/-! ## Inspection -/

/-- A row variable. -/
def isVar : Tuple → Bool
  | .var _ => true
  | _ => false

/-- A literal. -/
def isConst : Tuple → Bool
  | .const _ => true
  | _ => false

/-- The name of a row variable. -/
def name? : Tuple → Option String
  | .var name => some name
  | _ => none

/-- The tuple at the start of a projection chain: `x` for `x.a.b`. -/
def root : Tuple → Tuple
  | .attr base _ => base.root
  | t => t

mutual

/-- Whether `v` occurs in a tuple expression, as the whole or as a part of it. -/
def uses : (t v : Tuple) → Bool
  | .var n, v => decide (.var n = v)
  | .const c, v => decide (.const c = v)
  | .attr base n, v => decide (.attr base n = v) || base.uses v
  | .call f args, v => decide (.call f args = v) || anyUses args v

/-- Whether `v` occurs in some element of an argument list. -/
def anyUses : (ts : List Tuple) → (v : Tuple) → Bool
  | [], _ => false
  | t :: ts, v => t.uses v || anyUses ts v

end

mutual

/-- Replace every occurrence of `source` by `image`. The largest occurrence is replaced first, and
projections are rebuilt with `Tuple.project`, so they fold where null is substituted into them. -/
def subst : (t source image : Tuple) → Tuple
  | .var n, source, image => if .var n = source then image else .var n
  | .const c, source, image => if .const c = source then image else .const c
  | .attr base n, source, image =>
    if .attr base n = source then image else (base.subst source image).project n
  | .call f args, source, image =>
    if .call f args = source then image else .call f (substAll args source image)

/-- Replace every occurrence of `source` by `image` in each element of a list. -/
def substAll : (ts : List Tuple) → (source image : Tuple) → List Tuple
  | [], _, _ => []
  | t :: ts, source, image => t.subst source image :: substAll ts source image

end

mutual

/-- The row variables of a tuple expression from left to right, appended to those already `seen`;
each variable is listed once. -/
def collectVars (seen : List Tuple) : Tuple → List Tuple
  | .var n => if .var n ∈ seen then seen else seen ++ [.var n]
  | .const _ => seen
  | .attr base _ => collectVars seen base
  | .call _ args => collectVarsAll seen args

/-- The row variables of a list of tuple expressions, appended to those already `seen`. -/
def collectVarsAll (seen : List Tuple) : List Tuple → List Tuple
  | [] => seen
  | a :: as => collectVarsAll (collectVars seen a) as

end

/-- The row variables of a tuple expression in the order of their first occurrence. -/
def vars (t : Tuple) : List Tuple :=
  t.collectVars []

/-! ## Text -/

mutual

/-- The written form: `x`, a literal's text, `x.a`, `f(x, y)`. -/
def text : Tuple → String
  | .var n => n
  | .const c => c
  | .attr base n => text base ++ "." ++ n
  | .call f args => f ++ "(" ++ textAll args ++ ")"

/-- A list of tuple expressions, separated by a comma and a blank. -/
def textAll : List Tuple → String
  | [] => ""
  | [a] => text a
  | a :: b :: rest => text a ++ ", " ++ textAll (b :: rest)

end

end Tuple

end QueryRules
