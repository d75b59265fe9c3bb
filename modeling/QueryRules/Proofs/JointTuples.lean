import QueryRules.Proofs.ColumnScopes

/-!
# QueryRules — joints of subqueries and unions

`IN` and `UNION` hand joints down to the plans below them, and a projection compares its items with
the joints. A table, or a union that is not below another union, takes no notice of them. Then the
left-hand side of `IN` is not compared with anything, and a row of the subquery stays free.

This module says of every `IN` and of every outermost `UNION` of a plan with a term whether its
joints are compared, and of every `IN` whether its subquery keeps its rows to itself.
-/

namespace QueryRules

open List

namespace Plan

/-- All nodes of a plan. -/
def subplans : Plan → List Plan
  | .input table aliasName columns => [.input table aliasName columns]
  | .proj p items distinct aliasName => .proj p items distinct aliasName :: p.subplans
  | .filter p condition => .filter p condition :: p.subplans
  | .inSub p lhs q => .inSub p lhs q :: (p.subplans ++ q.subplans)
  | .exists p q => .exists p q :: (p.subplans ++ q.subplans)
  | .join kind l r condition => .join kind l r condition :: (l.subplans ++ r.subplans)
  | .setOp kind distinct l r => .setOp kind distinct l r :: (l.subplans ++ r.subplans)
  | .sort p => .sort p :: p.subplans
  | .limit p count => .limit p count :: p.subplans
  | .agg p groupBy items aliasName => .agg p groupBy items aliasName :: p.subplans

/-- The aliases of the relations that a plan adds to the query at hand. -/
def relations (p : Plan) (underUnion : Bool) (handed : Option Nat) : List String :=
  ((p.binds underUnion handed).filter (·.2)).map (·.1)

/-- Whether a relation that no projection of the plan closes is mentioned in its term: a table, or
the joint of a union that is compared in one of the branches. -/
def isExposed : Plan → (underUnion : Bool) → Bool
  | .input .., _ => true
  | .proj .., _ => false
  | .filter p _, _ => p.isExposed false
  | .inSub p _ q, _ | .exists p q, _ => p.isExposed false || q.isExposed false
  | .join _ l r _, _ => l.isExposed false || r.isExposed false
  | .setOp _ _ l r, underUnion =>
    l.isExposed true || r.isExposed true ||
      (!underUnion && !l.outputColumns.isEmpty && (l.tiesJoints true || r.tiesJoints true))
  | .sort p, underUnion | .limit p _, underUnion => p.isExposed underUnion
  | .agg .., _ => false

end Plan

namespace Denote

variable {p q : Plan} {u v : Bool} {w w' w₁ : Walk} {t : Term} {opened : List Tuple} {x : String}

/-! ## The walk comes to every node -/

/-- A walk has one result. -/
theorem Walks.unique {t₁ t₂ : Term} {w₁ w₂ : Walk} (h₁ : Walks p u w t₁ w₁)
    (h₂ : Walks p u w t₂ w₂) : t₁ = t₂ ∧ w₁ = w₂ :=
  (runs_of_walks h₁).unique (runs_of_walks h₂)

/-- `Reaches p u w q v w'`: the walk `w` through `p` comes to its node `q` as the walk `w'`. The
flags say whether the plans are below a union. -/
inductive Reaches : Plan → Bool → Walk → Plan → Bool → Walk → Prop
  | here {p : Plan} {u : Bool} {w : Walk} : Reaches p u w p u w
  | proj {p q : Plan} {items : List Item} {distinct u v : Bool} {aliasName : String}
      {w w₁ w' : Walk} {joints : List Tuple}
      (hjoints : Runs (jointsFor items aliasName) w joints w₁)
      (h : Reaches p false w₁.enter q v w') :
      Reaches (.proj p items distinct aliasName) u w q v w'
  | filter {p q : Plan} {c : Condition} {u v : Bool} {w w' : Walk} (h : Reaches p false w q v w') :
      Reaches (.filter p c) u w q v w'
  | inSubInput {p s q : Plan} {lhs : List Scalar} {u v : Bool} {w w' : Walk}
      (h : Reaches p false w q v w') : Reaches (.inSub p lhs s) u w q v w'
  | inSubQuery {p s q : Plan} {lhs : List Scalar} {u v : Bool} {w w₁ w' : Walk} {outer : Term}
      {joints : List Tuple} (hp : Walks p false w outer w₁)
      (hlhs : tuplesOf w₁.owners lhs = .ok joints)
      (h : Reaches s false (w₁.handing (some joints)) q v w') : Reaches (.inSub p lhs s) u w q v w'
  | existsInput {p s q : Plan} {u v : Bool} {w w' : Walk} (h : Reaches p false w q v w') :
      Reaches (.exists p s) u w q v w'
  | existsQuery {p s q : Plan} {u v : Bool} {w w₁ w' : Walk} {outer : Term}
      (hp : Walks p false w outer w₁) (h : Reaches s false (w₁.handing (some [])) q v w') :
      Reaches (.exists p s) u w q v w'
  | joinLeft {kind : JoinKind} {l r q : Plan} {c : Option Condition} {u v : Bool} {w w' : Walk}
      (h : Reaches l false w q v w') : Reaches (.join kind l r c) u w q v w'
  | joinRight {kind : JoinKind} {l r q : Plan} {c : Option Condition} {u v : Bool} {w w₁ w' : Walk}
      {lhs : Term} (hl : Walks l false w lhs w₁) (h : Reaches r false w₁ q v w') :
      Reaches (.join kind l r c) u w q v w'
  | innerUnionLeft {kind : SetOpKind} {distinct : Bool} {l r q : Plan} {v : Bool} {w w' : Walk}
      (h : Reaches l true w q v w') : Reaches (.setOp kind distinct l r) true w q v w'
  | innerUnionRight {kind : SetOpKind} {distinct : Bool} {l r q : Plan} {v : Bool}
      {w w₁ w' : Walk} {lhs : Term} (hl : Walks l true w lhs w₁) (h : Reaches r true w₁ q v w') :
      Reaches (.setOp kind distinct l r) true w q v w'
  | outerUnionLeft {kind : SetOpKind} {distinct : Bool} {l r q : Plan} {v : Bool} {w w₁ w' : Walk}
      {joint : Tuple} (hjoint : Runs (newRow l.outputOwner) w joint w₁)
      (h : Reaches l true (w₁.handing (some (l.outputColumns.map joint.project))) q v w') :
      Reaches (.setOp kind distinct l r) false w q v w'
  | outerUnionRight {kind : SetOpKind} {distinct : Bool} {l r q : Plan} {v : Bool}
      {w w₁ w₂ w' : Walk} {joint : Tuple} {lhs : Term}
      (hjoint : Runs (newRow l.outputOwner) w joint w₁)
      (hl : Walks l true (w₁.handing (some (l.outputColumns.map joint.project))) lhs w₂)
      (h : Reaches r true w₂ q v w') : Reaches (.setOp kind distinct l r) false w q v w'
  | sort {p q : Plan} {u v : Bool} {w w' : Walk} (h : Reaches p u w q v w') :
      Reaches (.sort p) u w q v w'
  | limit {p q : Plan} {n : Nat} {u v : Bool} {w w' : Walk} (h : Reaches p u w q v w') :
      Reaches (.limit p n) u w q v w'

/-- A node is the root, or it is reached below the root. -/
theorem reaches_node {below : List Plan} (hq : q ∈ p :: below)
    (hbelow : q ∈ below → ∃ v w₁, Reaches p u w q v w₁) : ∃ v w₁, Reaches p u w q v w₁ := by
  rcases mem_cons.mp hq with rfl | hq
  · exact ⟨u, w, .here⟩
  · exact hbelow hq

theorem reaches_join {kind : JoinKind} {l r : Plan} {c : Option Condition} {lhs : Term}
    (hl : Walks l false w lhs w₁) (ihl : q ∈ l.subplans → ∃ v w', Reaches l false w q v w')
    (ihr : q ∈ r.subplans → ∃ v w', Reaches r false w₁ q v w')
    (hq : q ∈ (Plan.join kind l r c).subplans) :
    ∃ v w', Reaches (.join kind l r c) u w q v w' := by
  refine reaches_node hq fun hq => ?_
  rcases mem_append.mp hq with hq | hq
  · obtain ⟨v, w', hreach⟩ := ihl hq
    exact ⟨v, w', .joinLeft hreach⟩
  · obtain ⟨v, w', hreach⟩ := ihr hq
    exact ⟨v, w', .joinRight hl hreach⟩

/-- **The walk comes to every node.** -/
theorem Walks.reaches (h : Walks p u w t w') (hq : q ∈ p.subplans) :
    ∃ v w₁, Reaches p u w q v w₁ := by
  induction h with
  | input hrow => exact reaches_node hq fun hq => by cases hq
  | proj hjoints hp heqs ih =>
    refine reaches_node hq fun hq => ?_
    obtain ⟨v, w₁, hreach⟩ := ih hq
    exact ⟨v, w₁, .proj hjoints hreach⟩
  | filter hp hcond ih =>
    refine reaches_node hq fun hq => ?_
    obtain ⟨v, w₁, hreach⟩ := ih hq
    exact ⟨v, w₁, .filter hreach⟩
  | inSub hne hp hlhs hsub ihp ihq =>
    refine reaches_node hq fun hq => ?_
    rcases mem_append.mp hq with hq | hq
    · obtain ⟨v, w₁, hreach⟩ := ihp hq
      exact ⟨v, w₁, .inSubInput hreach⟩
    · obtain ⟨v, w₁, hreach⟩ := ihq hq
      exact ⟨v, w₁, .inSubQuery hp hlhs hreach⟩
  | «exists» hp hsub ihp ihq =>
    refine reaches_node hq fun hq => ?_
    rcases mem_append.mp hq with hq | hq
    · obtain ⟨v, w₁, hreach⟩ := ihp hq
      exact ⟨v, w₁, .existsInput hreach⟩
    · obtain ⟨v, w₁, hreach⟩ := ihq hq
      exact ⟨v, w₁, .existsQuery hp hreach⟩
  | crossJoin hkind hl hr ihl ihr | innerJoin hkind hl hr hcond ihl ihr
  -- The three kinds of joins walk the same way.
  | leftJoin hl hr hcond hcopy ihl ihr => exact reaches_join hl ihl ihr hq
  | innerUnion hl hr ihl ihr =>
    refine reaches_node hq fun hq => ?_
    rcases mem_append.mp hq with hq | hq
    · obtain ⟨v, w₁, hreach⟩ := ihl hq
      exact ⟨v, w₁, .innerUnionLeft hreach⟩
    · obtain ⟨v, w₁, hreach⟩ := ihr hq
      exact ⟨v, w₁, .innerUnionRight hl hreach⟩
  | outerUnion hjoint hl hr ihl ihr =>
    refine reaches_node hq fun hq => ?_
    rcases mem_append.mp hq with hq | hq
    · obtain ⟨v, w₁, hreach⟩ := ihl hq
      exact ⟨v, w₁, .outerUnionLeft hjoint hreach⟩
    · obtain ⟨v, w₁, hreach⟩ := ihr hq
      exact ⟨v, w₁, .outerUnionRight hjoint hl hreach⟩
  | sort hp ih =>
    refine reaches_node hq fun hq => ?_
    obtain ⟨v, w₁, hreach⟩ := ih hq
    exact ⟨v, w₁, .sort hreach⟩
  | limit hp ih =>
    refine reaches_node hq fun hq => ?_
    obtain ⟨v, w₁, hreach⟩ := ih hq
    exact ⟨v, w₁, .limit hreach⟩

/-- **A node that is reached is walked through**, from a walk that is sound. -/
theorem Reaches.walks (h : Reaches p u w q v w') (hs : w.Sound opened) (hp : Walks p u w t w₁) :
    ∃ opened' t' w₁', w'.Sound opened' ∧ Walks q v w' t' w₁' := by
  induction h generalizing opened t w₁ with
  | here => exact ⟨opened, t, w₁, hs, hp⟩
  | proj hjoints h ih =>
    cases hp with
    | proj hjoints' hp heqs =>
      -- A walk is determined, so both walks made the same joints.
      obtain ⟨rfl, rfl⟩ := hjoints.unique hjoints'
      exact ih (hs.of_extends (.jointsFor hjoints)).enter hp
  | filter h ih =>
    cases hp with
    | filter hp hcond => exact ih hs hp
  | inSubInput h ih =>
    cases hp with
    | inSub hne hp hlhs hq => exact ih hs hp
  | inSubQuery hp' hlhs' h ih =>
    cases hp with
    | inSub hne hp hlhs hq =>
      obtain ⟨rfl, rfl⟩ := hp'.unique hp
      obtain rfl := Except.ok.inj (hlhs'.symm.trans hlhs)
      exact ih ((hp.sound hs).handing_tuplesOf hlhs) hq
  | existsInput h ih =>
    cases hp with
    | «exists» hp hq => exact ih hs hp
  | existsQuery hp' h ih =>
    cases hp with
    | «exists» hp hq =>
      obtain ⟨rfl, rfl⟩ := hp'.unique hp
      exact ih ((hp.sound hs).handing (by simp)) hq
  | joinLeft h ih =>
    cases hp with
    | crossJoin hkind hl hr => exact ih hs hl
    | innerJoin hkind hl hr hcond | leftJoin hl hr hcond hcopy => exact ih hs hl
  | joinRight hl' h ih =>
    cases hp with
    | crossJoin hkind hl hr | innerJoin hkind hl hr hcond | leftJoin hl hr hcond hcopy =>
      obtain ⟨rfl, rfl⟩ := hl'.unique hl
      exact ih (hl.sound hs) hr
  | innerUnionLeft h ih =>
    cases hp with
    | innerUnion hl hr => exact ih hs hl
  | innerUnionRight hl' h ih =>
    cases hp with
    | innerUnion hl hr =>
      obtain ⟨rfl, rfl⟩ := hl'.unique hl
      exact ih (hl.sound hs) hr
  | outerUnionLeft hjoint' h ih =>
    cases hp with
    | outerUnion hjoint hl hr =>
      obtain ⟨rfl, rfl⟩ := hjoint'.unique hjoint
      exact ih (hs.handing_newRow hjoint _) hl
  | outerUnionRight hjoint' hl' h ih =>
    cases hp with
    | outerUnion hjoint hl hr =>
      obtain ⟨rfl, rfl⟩ := hjoint'.unique hjoint
      obtain ⟨rfl, rfl⟩ := hl'.unique hl
      have hs₁ := hs.handing_newRow hjoint
      exact ih (hl.sound (hs₁ _)) hr
  | sort h ih =>
    cases hp with
    | sort hp => exact ih hs hp
  | limit h ih =>
    cases hp with
    | limit hp => exact ih hs hp

/-! ## Joints that are ignored -/

/-- A new row does not depend on the joints that are handed on. -/
theorem newRow_handing {owner : String} {row : Tuple} (h : Runs (newRow owner) w row w₁)
    (joints : Option (List Tuple)) :
    Runs (newRow owner) (w.handing joints) row (w₁.handing joints) := by
  unfold newRow at h ⊢
  rw [runs_get_bind] at h ⊢
  dsimp only at h ⊢
  split at h
  · next hroot =>
    cases h
    split
    · rfl
    · next hnot => exact absurd hroot hnot
  · next hroot =>
    cases h
    split
    · next hnot => exact absurd hnot hroot
    · rfl

theorem copyRows_handing {olds : List Tuple} {cond rhs : Term}
    {r : List Tuple × List Term × Term × Term} (h : Runs (copyRows olds cond rhs) w r w₁)
    (joints : Option (List Tuple)) :
    Runs (copyRows olds cond rhs) (w.handing joints) r (w₁.handing joints) := by
  induction olds generalizing cond rhs w r with
  | nil =>
    obtain ⟨rfl, rfl⟩ := runs_pure.mp h
    rfl
  | cons old olds ih =>
    obtain ⟨new, w₂, hnew, h⟩ := runs_bind.mp h
    obtain ⟨s, w₃, hrest, h⟩ := runs_bind.mp h
    obtain ⟨rfl, rfl⟩ := runs_pure.mp h
    cases hnew
    exact runs_bind.mpr ⟨_, _, rfl, runs_bind.mpr ⟨s, _, ih hrest, rfl⟩⟩

theorem leftJoinTerm_handing {cond lhs rhs : Term} {olds : List Tuple}
    (h : Runs (leftJoinTerm cond lhs rhs olds) w t w₁) (joints : Option (List Tuple)) :
    Runs (leftJoinTerm cond lhs rhs olds) (w.handing joints) t (w₁.handing joints) := by
  unfold leftJoinTerm at h ⊢
  obtain ⟨r, w₂, hcopy, h⟩ := runs_bind.mp h
  obtain ⟨rfl, rfl⟩ := runs_pure.mp h
  exact runs_bind.mpr ⟨r, _, copyRows_handing hcopy joints, rfl⟩

/-- **Joints that reach no projection make no difference.** -/
theorem Walks.ignores (h : Walks p u w t w') (hties : p.tiesJoints u = false)
    (joints : Option (List Tuple)) : Walks p u (w.handing joints) t (w'.handing joints) := by
  induction h with
  | input hrow => exact .input (newRow_handing hrow joints)
  | proj hjoints hp heqs ih => cases hties
  | filter hp hcond ih => exact .filter (ih hties) hcond
  | inSub hne hp hlhs hq ihp ihq => exact (Walks.inSub hne (ihp hties) hlhs hq :)
  | «exists» hp hq ihp ihq => exact (Walks.exists (ihp hties) hq :)
  | crossJoin hkind hl hr ihl ihr =>
    obtain ⟨hl', hr'⟩ := Bool.or_eq_false_iff.mp hties
    exact .crossJoin hkind (ihl hl') (ihr hr')
  | innerJoin hkind hl hr hcond ihl ihr =>
    obtain ⟨hl', hr'⟩ := Bool.or_eq_false_iff.mp hties
    exact .innerJoin hkind (ihl hl') (ihr hr') hcond
  | leftJoin hl hr hcond hcopy ihl ihr =>
    obtain ⟨hl', hr'⟩ := Bool.or_eq_false_iff.mp hties
    exact .leftJoin (ihl hl') (ihr hr') hcond (leftJoinTerm_handing hcopy joints)
  | innerUnion hl hr ihl ihr =>
    obtain ⟨hl', hr'⟩ := Bool.or_eq_false_iff.mp hties
    exact .innerUnion (ihl hl') (ihr hr')
  | outerUnion hjoint hl hr ihl ihr =>
    exact (Walks.outerUnion (newRow_handing hjoint joints) hl hr :)
  | sort hp ih => exact .sort (ih hties)
  | limit hp ih => exact .limit (ih hties)

/-! ## Rows of a subquery that escape -/

/-- A row that is given out was not met before. -/
theorem not_mem_metRows {owner : String} {row : Tuple} (hs : w.Sound opened)
    (h : Runs (newRow owner) w row w₁) : row ∉ w.metRows := by
  intro hmet
  rcases newRow_cases h with ⟨hroot, hfirst, rfl, -⟩ | ⟨-, rfl, -⟩
  · exact hfirst (hs.first hroot hmet)
  · rcases hs.named _ (mem_append_right _ hmet) with hroot | ⟨k, hk, heq⟩
    · exact numberedRow_ne_rootRow _ hroot
    · have := numberedRow_inj heq
      omega

/-- A row that is new in a later part of a walk is new in the whole walk. -/
theorem exists_new_parts {a b : Bool} {w w₁ : Walk} {lhs rhs : Term}
    (hmet : ∀ {row}, row ∈ w.metRows → row ∈ w₁.metRows)
    (hl : a = true → ∃ x, lhs.Free x ∧ .var x ∉ w.metRows)
    (hr : b = true → ∃ x, rhs.Free x ∧ .var x ∉ w₁.metRows) (h : (a || b) = true) :
    ∃ x, (lhs.Free x ∨ rhs.Free x) ∧ .var x ∉ w.metRows := by
  rcases Bool.or_eq_true_iff.mp h with h | h
  · obtain ⟨x, hx, hnew⟩ := hl h
    exact ⟨x, .inl hx, hnew⟩
  · obtain ⟨x, hx, hnew⟩ := hr h
    exact ⟨x, .inr hx, fun hmem => hnew (hmet hmem)⟩

/-- **A relation that no projection closes leaves a new row free.** -/
theorem Walks.exists_new (h : Walks p u w t w') (hs : w.Sound opened)
    (hexposed : p.isExposed u = true) : ∃ x, t.Free x ∧ .var x ∉ w.metRows := by
  induction h generalizing opened with
  | input hrow =>
    have hs₁ := hs.of_extends (.newRow hrow)
    obtain ⟨x, rfl⟩ := Tuple.exists_eq_var (hs₁.isVar (Walk.newRow_mem hrow).1)
    exact ⟨x, by simp [Term.Free, Tuple.uses], not_mem_metRows hs hrow⟩
  | proj hjoints hp heqs ih => cases hexposed
  | filter hp hcond ih =>
    obtain ⟨x, hx, hnew⟩ := ih hs hexposed
    exact ⟨x, .inr hx, hnew⟩
  | inSub hne hp hlhs hq ihp ihq =>
    have hext := hp.extends hs
    exact exists_new_parts hext.mem_metRows (ihp hs)
      (ihq ((hs.of_extends hext).handing_tuplesOf hlhs)) hexposed
  | «exists» hp hq ihp ihq =>
    have hext := hp.extends hs
    exact exists_new_parts hext.mem_metRows (ihp hs)
      (ihq ((hs.of_extends hext).handing (by simp))) hexposed
  | crossJoin hkind hl hr ihl ihr =>
    have hext := hl.extends hs
    exact exists_new_parts hext.mem_metRows (ihl hs) (ihr (hs.of_extends hext)) hexposed
  | innerJoin hkind hl hr hcond ihl ihr =>
    have hext := hl.extends hs
    obtain ⟨x, hx, hnew⟩ :=
      exists_new_parts hext.mem_metRows (ihl hs) (ihr (hs.of_extends hext)) hexposed
    exact ⟨x, hx.imp_left .inr, hnew⟩
  | leftJoin hl hr hcond hcopy ihl ihr =>
    have hext := hl.extends hs
    have hs₂ := hr.sound (hs.of_extends hext)
    obtain ⟨-, -, hfree⟩ := leftJoinTerm_spec (fun row hrow =>
      hs₂.isVar (mem_of_mem_drop hrow)) hcopy
    obtain ⟨x, hx, hnew⟩ :=
      exists_new_parts hext.mem_metRows (ihl hs) (ihr (hs.of_extends hext)) hexposed
    exact ⟨x, (hfree x).mpr (.inl (hx.imp_left .inr)), hnew⟩
  | innerUnion hl hr ihl ihr =>
    have hext := hl.extends hs
    simp only [Plan.isExposed, Bool.not_true, Bool.false_and, Bool.or_false] at hexposed
    obtain ⟨x, hx, hnew⟩ :=
      exists_new_parts hext.mem_metRows (ihl hs) (ihr (hs.of_extends hext)) hexposed
    exact ⟨x, free_dedup.mpr hx, hnew⟩
  | @outerUnion distinct l r w w₁ w₂ w₃ joint tl tr hjoint hl hr ihl ihr =>
    have hnewRow := Walk.Extends.newRow hjoint
    have hs₁ := hs.of_extends hnewRow
    have hs₂ := hs₁.handing_project (Walk.newRow_mem hjoint).2 l.outputColumns
    have hext := hl.extends hs₂
    simp only [Plan.isExposed, Bool.not_false, Bool.true_and] at hexposed
    rcases Bool.or_eq_true_iff.mp hexposed with hexposed | hties
    · obtain ⟨x, hx, hnew⟩ :=
        exists_new_parts hext.mem_metRows (ihl hs₂) (ihr (hs₂.of_extends hext)) hexposed
      exact ⟨x, free_dedup.mpr hx, fun hmet => hnew (hnewRow.mem_metRows hmet)⟩
    · -- The joint is new and a branch compares its first column.
      simp only [Bool.and_eq_true, Bool.or_eq_true] at hties
      obtain ⟨hcolumns, hties⟩ := hties
      obtain ⟨x, rfl⟩ := Tuple.exists_eq_var (hs₁.isVar (Walk.newRow_mem hjoint).1)
      refine ⟨x, free_dedup.mpr ?_, not_mem_metRows hs hjoint⟩
      cases hc : l.outputColumns with
      | nil =>
        rw [hc] at hcolumns
        cases hcolumns
      | cons column columns =>
        have hmem : (Tuple.var x).project column ∈ l.outputColumns.map (Tuple.var x).project :=
          mem_map.mpr ⟨column, hc ▸ mem_cons_self, rfl⟩
        have huses : ((Tuple.var x).project column).uses (.var x) = true := by
          rw [Tuple.uses_project_var]
          simp [Tuple.uses]
        rcases hties with hties | hties
        · exact .inl ((hl.equates hs₂ hties rfl hmem).free huses)
        · exact .inr ((hr.equates (hs₂.of_extends hext) hties hext.joints hmem).free huses)
  | sort hp ih | limit hp ih => exact ih hs hexposed

end Denote

/-! ## Subqueries that keep their rows -/

namespace Plan

variable {known opens : List (String × Bool)}

/-- Aliases of open queries hide nothing. -/
theorem hiddenAmong_append (hopens : ∀ b ∈ opens, b.2 = true) (refs : List (String × String)) :
    hiddenAmong (known ++ opens) refs = hiddenAmong known refs := by
  refine filter_congr fun ref _ => ?_
  have hnot : opens.lookup ref.1 ≠ some false := by
    intro h
    obtain ⟨before, after, heq, -⟩ := lookup_eq_some_iff.mp h
    have hfalse := hopens (ref.1, false) (by simp [heq])
    cases hfalse
  rw [lookup_append]
  cases known.lookup ref.1 with
  | none => simp [hnot]
  | some b => rfl

/-- Owners that are marked as open hide nothing. -/
theorem hidden_append (p : Plan) (u : Bool) (handed : Option Nat)
    (hopens : ∀ b ∈ opens, b.2 = true) :
    p.hidden u handed (known ++ opens) = p.hidden u handed known := by
  induction p generalizing u handed known with
  | input table aliasName columns => rfl
  | proj p items distinct aliasName ih =>
    simp only [hidden, ← append_assoc, ih, hiddenAmong_append hopens]
  | filter p c ih => simp only [hidden, ← append_assoc, ih, hiddenAmong_append hopens]
  | inSub p lhs q ihp ihq =>
    simp only [hidden, ← append_assoc, ihp, ihq, hiddenAmong_append hopens]
  | «exists» p q ihp ihq => simp only [hidden, ← append_assoc, ihp, ihq]
  | join kind l r c ihl ihr =>
    simp only [hidden, ← append_assoc, ihl, ihr, hiddenAmong_append hopens]
  | setOp kind distinct l r ihl ihr =>
    cases u with
    | true => simp only [hidden, ← append_assoc, ihl, ihr]
    | false => simp only [hidden, ← append_assoc, ← cons_append, ihl, ihr]
  | sort p ih | limit p n ih => exact ih u handed
  | agg p groupBy items aliasName ih => rfl

end Plan

namespace Walk

variable {w : Walk} {opened : List Tuple}

/-- Counting all rows met so far as open keeps a walk sound. -/
theorem Sound.rebase (hs : w.Sound opened) : w.Sound w.metRows where
  named row hrow := hs.named row (by
    simp only [mem_append] at hrow ⊢
    tauto)
  root hroot := mem_append_left _ hroot
  first := hs.first
  owned := hs.owned
  joints := hs.joints

theorem open_of_mem_marks {b : String × Bool} (hb : b ∈ w.marks w.metRows) : b.2 = true := by
  obtain ⟨o, ho, rfl⟩ := mem_map.mp hb
  exact decide_eq_true (mem_append_left _ (mem_map.mpr ⟨o, ho, rfl⟩))

end Walk

namespace Denote

variable {p q : Plan} {u : Bool} {w w' : Walk} {t : Term} {opened : List Tuple}

/-- A plan without relations of its own adds no row to the query at hand. -/
theorem Walks.mem_of_relations (h : Walks q u w t w') (hs : w.Sound opened)
    (hrelations : q.relations u w.handed = []) {row : Tuple} (hrow : row ∈ w'.scope.rows) :
    row ∈ w.metRows := by
  have hext := h.extends hs
  obtain ⟨news, howners, -⟩ := hext.owners
  obtain ⟨o, ho, rfl⟩ := mem_map.mp ((hs.of_extends hext).owned row hrow)
  rw [howners] at ho
  rcases mem_append.mp ho with hnew | hold
  · -- A new alias with an open row would be a relation of the plan.
    have hmarks := hs.marks_of_extends hext howners
    rw [h.marks hs] at hmarks
    have hmark : (o.1, true) ∈ q.binds u w.handed := by
      rw [append_cancel_right hmarks]
      exact mem_map.mpr ⟨o, hnew, by rw [decide_eq_true (mem_append_right _ hrow)]⟩
    have hrelation : o.1 ∈ q.relations u w.handed :=
      mem_map.mpr ⟨_, mem_filter.mpr ⟨hmark, rfl⟩, rfl⟩
    rw [hrelations] at hrelation
    cases hrelation
  · exact mem_map.mpr ⟨o, hold, rfl⟩

/-- **A plan without relations of its own has new free variables exactly if a reference is hidden.**
-/
theorem Walks.only_old_iff (h : Walks q u w t w') (hs : w.Sound opened)
    (hrelations : q.relations u w.handed = []) :
    (∀ x, t.Free x → .var x ∈ w.metRows) ↔ q.hidden u w.handed [] = [] := by
  -- All that is known before the plan counts as open.
  have hknown : q.hidden u w.handed ([] ++ w.marks w.metRows) = q.hidden u w.handed [] :=
    q.hidden_append u w.handed fun b hb => Walk.open_of_mem_marks hb
  rw [← hknown]
  constructor
  · intro hold
    by_contra hidden
    obtain ⟨x, hx, hclosed⟩ := h.exists_closed hs.rebase hidden
    exact hclosed.2 (mem_append_left _ (hold x hx))
  · intro hidden x hx
    have hjoints : w.JointsOpen w.metRows := by
      intro js hjs y hy
      obtain ⟨side, hside, huses⟩ := anyUses_iff.mp hy
      exact mem_append_left _ (hs.joints js hjs side hside y huses)
    rcases mem_append.mp (h.mem_open hs.rebase (fun _ => hjoints) hidden hx) with hmem | hmem
    · exact hmem
    · exact h.mem_of_relations hs hrelations hmem

/-! ## The joints of `IN` and of `UNION` -/

/-- What the walk through `IN` does, and what becomes of its joints. -/
structure SubqueryJoints (p : Plan) (lhs : List Scalar) (q : Plan) (u : Bool) (w w₁ w₂ : Walk)
    (joints : List Tuple) (outer inner : Term) : Prop where
  input : Runs (ofPlan p false) w outer w₁
  sides : tuplesOf w₁.owners lhs = .ok joints
  subquery : Runs (ofPlan q false) (w₁.handing (some joints)) inner w₂
  term : Runs (ofPlan (.inSub p lhs q) u) w (.mul outer (.squash inner))
    (w₂.handing w₁.scope.joints)
  compared : q.tiesJoints false = true → ∀ e ∈ lhs, ∃ side,
    tupleOf w₁.owners e = .ok side ∧ inner.Equates side
  ignored : q.tiesJoints false = false → ∀ others,
    Runs (ofPlan q false) (w₁.handing others) inner (w₂.handing others)
  keeps : q.relations false (some lhs.length) = [] →
    ((∀ x, inner.Free x → .var x ∈ w₁.metRows) ↔ q.hidden false (some lhs.length) [] = [])
  escapes : q.isExposed false = true → ∃ x, inner.Free x ∧ .var x ∉ w₁.metRows

/-- What the walk through a union that is not below another one does, and what becomes of its
joints. -/
structure UnionJoints (kind : SetOpKind) (distinct : Bool) (l r : Plan) (w w₁ w₂ w₃ : Walk)
    (joint : Tuple) (tl tr : Term) : Prop where
  row : Runs (newRow l.outputOwner) w joint w₁
  left : Runs (ofPlan l true) (w₁.handing (some (l.outputColumns.map joint.project))) tl w₂
  right : Runs (ofPlan r true) w₂ tr w₃
  term : Runs (ofPlan (.setOp kind distinct l r) false) w (dedup distinct (.add tl tr))
    (w₃.handing w₁.scope.joints)
  comparedLeft : l.tiesJoints true = true → ∀ c ∈ l.outputColumns, tl.Equates (joint.project c)
  comparedRight : r.tiesJoints true = true → ∀ c ∈ l.outputColumns, tr.Equates (joint.project c)
  ignoredLeft : l.tiesJoints true = false → ∀ others,
    Runs (ofPlan l true) (w₁.handing others) tl (w₂.handing others)
  ignoredRight : r.tiesJoints true = false → ∀ others,
    Runs (ofPlan r true) (w₂.handing others) tr (w₃.handing others)

theorem exists_tupleOf {owners : List (String × Tuple)} {ss : List Scalar} {ts : List Tuple}
    (h : tuplesOf owners ss = .ok ts) {e : Scalar} (he : e ∈ ss) :
    ∃ side ∈ ts, tupleOf owners e = .ok side := by
  induction ss generalizing ts with
  | nil => cases he
  | cons s ss ih =>
    rw [tuplesOf, bind_eq_ok] at h
    obtain ⟨t, ht, h⟩ := h
    obtain ⟨rest, hrest, h⟩ := bind_eq_ok.mp h
    cases h
    rcases mem_cons.mp he with rfl | he
    · exact ⟨t, mem_cons_self, ht⟩
    · obtain ⟨side, hside, htuple⟩ := ih hrest he
      exact ⟨side, mem_cons_of_mem _ hside, htuple⟩

/-- The joints of a subquery are the tuples of its left side. -/
theorem Walks.subqueryJoints {lhs : List Scalar} (h : Walks (.inSub p lhs q) u w t w')
    (hs : w.Sound opened) :
    ∃ w₁ w₂ joints outer inner, SubqueryJoints p lhs q u w w₁ w₂ joints outer inner := by
  cases h with
  | @inSub p q lhs u w w₁ w₂ outer inner joints hne hp hlhs hq =>
    have hs₁ := (hp.sound hs).handing_tuplesOf hlhs
    have hhanded : (w₁.handing (some joints)).handed = some lhs.length := by
      rw [Walk.handed_handing, length_tuplesOf hlhs]
    refine ⟨w₁, w₂, joints, outer, inner, runs_of_walks hp, hlhs, runs_of_walks hq,
      runs_of_walks (.inSub hne hp hlhs hq), ?_, ?_, ?_, ?_⟩
    · intro hties e he
      obtain ⟨side, hside, htuple⟩ := exists_tupleOf hlhs he
      exact ⟨side, htuple, hq.equates hs₁ hties rfl hside⟩
    · intro hties others
      exact runs_of_walks (hq.ignores hties others)
    · intro hrelations
      rw [← hhanded] at hrelations ⊢
      exact hq.only_old_iff hs₁ hrelations
    · intro hexposed
      exact hq.exists_new hs₁ hexposed

/-- Both branches of a union are joined to one tuple. -/
theorem Walks.unionJoints {kind : SetOpKind} {distinct : Bool} {l r : Plan}
    (h : Walks (.setOp kind distinct l r) false w t w') (hs : w.Sound opened) :
    ∃ w₁ w₂ w₃ joint tl tr, UnionJoints kind distinct l r w w₁ w₂ w₃ joint tl tr := by
  cases h with
  | @outerUnion distinct l r w w₁ w₂ w₃ joint tl tr hjoint hl hr =>
    have hs₁ := hs.handing_newRow hjoint
      l.outputColumns
    have hext := hl.extends hs₁
    refine ⟨w₁, w₂, w₃, joint, tl, tr, hjoint, runs_of_walks hl, runs_of_walks hr,
      runs_of_walks (.outerUnion hjoint hl hr), ?_, ?_, ?_, ?_⟩
    · intro hties c hc
      exact hl.equates hs₁ hties rfl (mem_map.mpr ⟨c, hc, rfl⟩)
    · intro hties c hc
      exact hr.equates (hs₁.of_extends hext) hties hext.joints (mem_map.mpr ⟨c, hc, rfl⟩)
    · intro hties others
      exact runs_of_walks (hl.ignores hties others)
    · intro hties others
      exact runs_of_walks (hr.ignores hties others)

end Denote

/-- **What becomes of the joints.** The walk through a plan that has a term comes to each of its
nodes. At every `IN` the left-hand side is compared if joints reach a projection of the subquery,
and has no influence on the term if they do not; the subquery keeps its rows to itself if it adds no
relation to the query at hand and no reference in it is hidden, and not if a relation of it is
exposed. At every outermost `UNION` each branch compares the joint, or takes no notice of it,
likewise. -/
theorem Plan.joints_of_denote {p : Plan} {d : Denotation} (h : p.denote = .ok d) :
    (∀ node ∈ p.subplans, ∃ u w, Denote.Reaches p false .start node u w) ∧
      (∀ i lhs q u w, Denote.Reaches p false .start (.inSub i lhs q) u w →
        ∃ w₁ w₂ joints outer inner,
          Denote.SubqueryJoints i lhs q u w w₁ w₂ joints outer inner) ∧
      ∀ kind distinct l r w, Denote.Reaches p false .start (.setOp kind distinct l r) false w →
        ∃ w₁ w₂ w₃ joint tl tr, Denote.UnionJoints kind distinct l r w w₁ w₂ w₃ joint tl tr := by
  obtain ⟨w', hwalk, -⟩ := p.walks_of_denote h
  refine ⟨fun node hnode => hwalk.reaches hnode, ?_, ?_⟩
  · intro i lhs q u w hreach
    obtain ⟨opened, t, w₁, hs, hnode⟩ := hreach.walks Walk.sound_start hwalk
    exact hnode.subqueryJoints hs
  · intro kind distinct l r w hreach
    obtain ⟨opened, t, w₁, hs, hnode⟩ := hreach.walks Walk.sound_start hwalk
    exact hnode.unionJoints hs

/-- `R r WHERE r.a IN (SELECT s.a FROM S s)`. -/
def Plan.tied : Plan :=
  .inSub (.input "R" "r" ["a"]) [.column "r" "a"]
    (.proj (.input "S" "s" ["a"]) [⟨.column "s" "a", "a"⟩] false "v")

/-- A subquery that is a projection compares the left-hand side and keeps its row to itself. -/
theorem Plan.joints_of_denote_tied :
    ∃ d, Plan.tied.denote = .ok d ∧ ∃ w₁ inner side,
      d.term = .mul (.table "R" Denote.rootRow) (.squash inner) ∧
      Denote.tupleOf (Walk.owners w₁) (.column "r" "a") = .ok side ∧ inner.Equates side ∧
      ∀ x, inner.Free x → .var x ∈ w₁.metRows := by
  refine ⟨_, rfl, ?_⟩
  have hall := Plan.joints_of_denote (p := Plan.tied) rfl
  obtain ⟨w₁, w₂, joints, outer, inner, hjoints⟩ := hall.2.1 _ _ _ _ _ .here
  obtain ⟨side, htuple, hequates⟩ := hjoints.compared rfl _ mem_cons_self
  have hkeeps := (hjoints.keeps rfl).mpr rfl
  have houter : Denote.Runs (Denote.ofPlan (.input "R" "r" ["a"]) false) .start
    (.table "R" Denote.rootRow) _ := rfl
  obtain ⟨rfl, rfl⟩ := houter.unique hjoints.input
  have hterm : Denote.Runs (Denote.ofPlan Plan.tied false) .start _ _ := rfl
  obtain ⟨heq, -⟩ := hterm.unique hjoints.term
  exact ⟨_, inner, side, heq, htuple, hequates, hkeeps⟩

/-- `R r WHERE r.a IN (S s)`. -/
def Plan.untied : Plan :=
  .inSub (.input "R" "r" ["a"]) [.column "r" "a"] (.input "S" "s" ["a"])

/-- A subquery that is a table takes no notice of the left-hand side, and its row escapes. -/
theorem Plan.denote_untied :
    ∃ d, Plan.untied.denote = .ok d ∧
      d.term = .mul (.table "R" Denote.rootRow) (.squash (.table "S" (Denote.numberedRow 0))) ∧
      d.freeVars = [Denote.rootRow, Denote.numberedRow 0] :=
  ⟨_, rfl, rfl, rfl⟩

end QueryRules
