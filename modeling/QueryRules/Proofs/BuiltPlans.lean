import Mathlib.Algebra.GroupWithZero.Nat
import QueryRules.Proofs.Freshness
import QueryRules.Proofs.Inventions

/-!
# QueryRules — the plans of a rule are well-scoped

A plan refers to columns by alias. What an operator may refer to is what its operand lets through:
the inputs and projections below it that are not hidden by another projection. This module proves
that building the plan of a template succeeds and that every reference of the plan is of this kind.
-/

namespace QueryRules

open List Template

/-! ## Scopes -/

namespace Plan

/-- The aliases of a plan, those of the operands first. -/
def aliases : Plan → List String
  | .input _ aliasName _ => [aliasName]
  | .proj p _ _ aliasName => p.aliases ++ [aliasName]
  | .agg p _ _ aliasName => p.aliases ++ [aliasName]
  | .filter p _ => p.aliases
  | .sort p => p.aliases
  | .limit p _ => p.aliases
  | .inSub p _ subquery => p.aliases ++ subquery.aliases
  | .exists p subquery => p.aliases ++ subquery.aliases
  | .join _ left right _ => left.aliases ++ right.aliases
  | .setOp _ _ left right => left.aliases ++ right.aliases

/-- The inputs and projections that can be referred to above a plan, by alias and output columns. A
projection or an aggregation hides what is below it; a subquery and the right side of a set
operation are not in scope. -/
def visible : Plan → List (String × List String)
  | .input _ aliasName columns => [(aliasName, columns)]
  | .proj _ items _ aliasName => [(aliasName, items.map (·.name))]
  | .agg .. => []
  | .filter p _ => p.visible
  | .sort p => p.visible
  | .limit p _ => p.visible
  | .inSub p _ _ => p.visible
  | .exists p _ => p.visible
  | .join _ left right _ => left.visible ++ right.visible
  | .setOp _ _ left _ => left.visible

/-- The tables that a plan reads, with their columns. -/
def inputs : Plan → List (String × List String)
  | .input table _ columns => [(table, columns)]
  | .proj p _ _ _ => p.inputs
  | .agg p _ _ _ => p.inputs
  | .filter p _ => p.inputs
  | .sort p => p.inputs
  | .limit p _ => p.inputs
  | .inSub p _ subquery => p.inputs ++ subquery.inputs
  | .exists p subquery => p.inputs ++ subquery.inputs
  | .join _ left right _ => left.inputs ++ right.inputs
  | .setOp _ _ left right => left.inputs ++ right.inputs

/-- A column reference can be made above a plan. -/
def Offers (p : Plan) (ref : String × String) : Prop :=
  ∃ columns, (ref.1, columns) ∈ p.visible ∧ ref.2 ∈ columns

/-- The references of a join condition: those of an equality are made from the two sides. -/
def JoinScoped (left right : Plan) : Option Condition → Prop
  | none => True
  | some (.eq l r) => (∀ ref ∈ l.columns, left.Offers ref) ∧ ∀ ref ∈ r.columns, right.Offers ref
  | some condition => ∀ ref ∈ condition.columns, left.Offers ref ∨ right.Offers ref

/-- Every column reference of a plan can be made above the operand that it is made from. -/
def WellScoped : Plan → Prop
  | .input .. => True
  | .proj p items _ _ => p.WellScoped ∧ ∀ item ∈ items, ∀ ref ∈ item.expr.columns, p.Offers ref
  | .agg p groupBy items _ => p.WellScoped ∧ (∀ ref ∈ Scalar.columnsAll groupBy, p.Offers ref) ∧
      ∀ item ∈ items, ∀ ref ∈ item.expr.columns, p.Offers ref
  | .filter p condition => p.WellScoped ∧ ∀ ref ∈ condition.columns, p.Offers ref
  | .sort p => p.WellScoped
  | .limit p _ => p.WellScoped
  | .inSub p lhs subquery => p.WellScoped ∧ subquery.WellScoped ∧
      ∀ ref ∈ Scalar.columnsAll lhs, p.Offers ref
  | .exists p subquery => p.WellScoped ∧ subquery.WellScoped
  | .join _ left right condition => left.WellScoped ∧ right.WellScoped ∧
      JoinScoped left right condition
  | .setOp _ _ left right => left.WellScoped ∧ right.WellScoped

theorem Offers.mono {p q : Plan} {ref : String × String} (h : p.Offers ref)
    (hsub : p.visible ⊆ q.visible) : q.Offers ref := by
  obtain ⟨columns, hmem, hc⟩ := h
  exact ⟨columns, hsub hmem, hc⟩

end Plan

namespace Instance

variable {inst : Instance} {r : Rule} {a b s t v : Symbol} {stands : Symbol → Symbol}

/-! ## Runs of building -/

section Runs

variable {α β : Type}

/-- A run of a building step that succeeds. -/
def Builds (m : Build α) (n : Nat) (a : α) (n' : Nat) : Prop :=
  m.run n = .ok (a, n')

theorem builds_pure (a : α) (n : Nat) : Builds (pure a) n a n :=
  rfl

theorem builds_bind {m : Build α} {f : α → Build β} {a : α} {b : β} {n n₁ n₂ : Nat}
    (hm : Builds m n a n₁) (hf : Builds (f a) n₁ b n₂) : Builds (m >>= f) n b n₂ := by
  unfold Builds at hm ⊢
  rw [StateT.run_bind, hm]
  exact hf

theorem builds_lift {x : Except InstanceError α} {a : α} (hx : x = .ok a) (n : Nat) :
    Builds (liftM x) n a n := by
  rw [hx]
  rfl

theorem builds_nextProjection (n : Nat) : Builds nextProjection n ("q" ++ n.repr) (n + 1) :=
  rfl

end Runs

/-! ## Aliases and inputs -/

/-- How the aliases and inputs of a plan are laid out, for the tables that are below it. -/
structure Layout (inst : Instance) (tables : List Symbol) (n n' : Nat) (plan : Plan)
    (aliases : List (Symbol × String)) : Prop where
  le : n ≤ n'
  keys : aliases.map Prod.fst = tables
  names : ∀ z ∈ plan.aliases,
    (∃ s ∈ tables, z = inst.tableAlias s) ∨ ∃ k, n ≤ k ∧ k < n' ∧ z = "q" ++ k.repr
  distinct : plan.aliases.Nodup
  inputs : ∀ z ∈ plan.inputs, ∃ i, z = (relationName i, inst.relations.getD i [])
  covers : ∀ s ∈ tables, ∃ i, inst.tables.lookup s = some i ∧
    (relationName i, inst.relations.getD i []) ∈ plan.inputs

/-- Different tables have different aliases. -/
theorem tableAlias_inj (hs : s ∈ inst.tables.map Prod.fst)
    (heq : inst.tableAlias s = inst.tableAlias t) : s = t := by
  have hidx := FreshNames.append_repr_inj heq
  exact (idxOf_inj hs).mp hidx

theorem tableAlias_ne_projection (s : Symbol) (k : Nat) : inst.tableAlias s ≠ "q" ++ k.repr := by
  intro heq
  have hlist := congrArg String.toList heq
  unfold tableAlias at hlist
  rw [String.toList_append, String.toList_append] at hlist
  cases (List.cons.inj hlist).1

/-- Two plans side by side: the second one numbers its projections after the first. -/
theorem Layout.append {tables tables' : List Symbol} {n₀ n₁ n₂ : Nat} {p q plan : Plan}
    {aliases aliases' : List (Symbol × String)} (hp : inst.Layout tables n₀ n₁ p aliases)
    (hq : inst.Layout tables' n₁ n₂ q aliases')
    (hknown : ∀ s ∈ tables, s ∈ inst.tables.map Prod.fst) (hdisjoint : tables.Disjoint tables')
    (haliases : plan.aliases = p.aliases ++ q.aliases)
    (hinputs : plan.inputs = p.inputs ++ q.inputs) :
    inst.Layout (tables ++ tables') n₀ n₂ plan (aliases ++ aliases') := by
  have hle := hp.le
  have hle' := hq.le
  refine ⟨Nat.le_trans hle hle', ?_, ?_, ?_, ?_, ?_⟩
  · rw [map_append, hp.keys, hq.keys]
  · intro z hz
    rw [haliases] at hz
    rcases mem_append.mp hz with hz | hz
    · rcases hp.names z hz with ⟨s, hs, heq⟩ | ⟨k, hk, hk', heq⟩
      · exact .inl ⟨s, mem_append_left _ hs, heq⟩
      · exact .inr ⟨k, hk, by omega, heq⟩
    · rcases hq.names z hz with ⟨s, hs, heq⟩ | ⟨k, hk, hk', heq⟩
      · exact .inl ⟨s, mem_append_right _ hs, heq⟩
      · exact .inr ⟨k, by omega, hk', heq⟩
  · rw [haliases]
    refine hp.distinct.append hq.distinct fun z hz hz' => ?_
    -- A common alias is that of a common table, or has a number on both sides of `n₁`.
    rcases hp.names z hz with ⟨s, hs, heq⟩ | ⟨k, hk, hk', heq⟩ <;>
      rcases hq.names z hz' with ⟨s', hs', heq'⟩ | ⟨k', hk₁, hk₂, heq'⟩
    · obtain rfl := tableAlias_inj (hknown s hs) (heq.symm.trans heq')
      exact hdisjoint hs hs'
    · exact tableAlias_ne_projection s k' (heq.symm.trans heq')
    · exact tableAlias_ne_projection s' k (heq'.symm.trans heq)
    · have := FreshNames.append_repr_inj (heq.symm.trans heq')
      omega
  · intro z hz
    rw [hinputs] at hz
    exact (mem_append.mp hz).elim (hp.inputs z) (hq.inputs z)
  · intro s hs
    rw [hinputs]
    rcases mem_append.mp hs with hs | hs
    · obtain ⟨i, hi, hmem⟩ := hp.covers s hs
      exact ⟨i, hi, mem_append_left _ hmem⟩
    · obtain ⟨i, hi, hmem⟩ := hq.covers s hs
      exact ⟨i, hi, mem_append_right _ hmem⟩

/-- A projection above a plan hides all aliases behind its own. -/
theorem Layout.proj {tables : List Symbol} {n n' : Nat} {p : Plan}
    {aliases : List (Symbol × String)} (hp : inst.Layout tables n n' p aliases)
    (items : List Item) (dedup : Bool) :
    inst.Layout tables n (n' + 1) (.proj p items dedup ("q" ++ n'.repr))
      (aliases.map fun z => (z.1, "q" ++ n'.repr)) := by
  have hle := hp.le
  refine ⟨by omega, ?_, ?_, ?_, hp.inputs, hp.covers⟩
  · rw [map_map]
    exact hp.keys
  · intro z hz
    rcases mem_append.mp hz with hz | hz
    · rcases hp.names z hz with h | ⟨k, hk, hk', heq⟩
      · exact .inl h
      · exact .inr ⟨k, hk, by omega, heq⟩
    · exact .inr ⟨n', hle, Nat.lt_succ_self _, mem_singleton.mp hz⟩
  · refine hp.distinct.append (nodup_singleton _) fun z hz hz' => ?_
    rw [mem_singleton.mp hz'] at hz
    rcases hp.names _ hz with ⟨s, -, heq⟩ | ⟨k, -, hk, heq⟩
    · exact tableAlias_ne_projection s n' heq.symm
    · have := FreshNames.append_repr_inj heq
      omega

/-! ## What is in scope -/

/-- The column at the root of an attribute list is offered by a plan, through the alias that is kept
for its table. A projection keeps this, since the table at the end of a chain of sources does not
depend on where the chain is entered. -/
def Sees (inst : Instance) (r : Rule) (aliases : List (Symbol × String)) (plan : Plan)
    (attrs : Symbol) : Prop :=
  ∃ root table column aliasName, r.Rooted attrs root table ∧
    inst.columns.lookup root = some (some column) ∧ aliases.lookup table = some aliasName ∧
    plan.Offers (aliasName, column)

section Sees

variable {aliases aliases' : List (Symbol × String)} {p q plan : Plan} {attrs : Symbol}

theorem Sees.append_left (h : inst.Sees r aliases p a) (hsub : p.visible ⊆ plan.visible) :
    inst.Sees r (aliases ++ aliases') plan a := by
  obtain ⟨root, table, column, aliasName, hroot, hcolumn, halias, hoffers⟩ := h
  refine ⟨root, table, column, aliasName, hroot, hcolumn, ?_, hoffers.mono hsub⟩
  rw [lookup_append, halias]
  rfl

/-- What the right plan shows is still seen beside a left plan with other aliases. -/
theorem Sees.append_right (h : inst.Sees r aliases' q a) (hsub : q.visible ⊆ plan.visible)
    (hdisjoint : (aliases.map Prod.fst).Disjoint (aliases'.map Prod.fst)) :
    inst.Sees r (aliases ++ aliases') plan a := by
  obtain ⟨root, table, column, aliasName, hroot, hcolumn, halias, hoffers⟩ := h
  refine ⟨root, table, column, aliasName, hroot, hcolumn, ?_, hoffers.mono hsub⟩
  have hnone : aliases.lookup table = none := by
    refine lookup_eq_none_iff.mpr fun z hz => ?_
    have hne : table ≠ z.1 := by
      intro heq
      have hleft : table ∈ aliases.map Prod.fst := heq ▸ mem_map_of_mem hz
      exact hdisjoint hleft (mem_map_of_mem (mem_of_lookup halias))
    simpa using hne
  rw [lookup_append, hnone]
  exact halias

theorem lookup_map_const (aliasName : String) (h : aliases.lookup s = some aliasName)
    (name : String) : (aliases.map fun z => (z.1, name)).lookup s = some name := by
  obtain ⟨before, after, rfl, hbefore⟩ := lookup_eq_some_iff.mp h
  refine lookup_eq_some_iff.mpr ⟨before.map fun z => (z.1, name), after.map fun z => (z.1, name),
    by rw [map_append, map_cons], fun z hz => ?_⟩
  obtain ⟨z', hz', rfl⟩ := mem_map.mp hz
  exact hbefore z' hz'

/-- Seeing what an attribute list is made of, a plan can refer to it. -/
theorem Sees.columnRef (h : inst.Sees r aliases p a) (hr : r.Grounded) (hinst : inst.Finished r)
    (hresolve : inst.resolve attrs = .ok a) (ha : a ∈ r.source.symbols) :
    ∃ aliasName column, inst.columnRef attrs aliases = .ok (.column aliasName column) ∧
      p.Offers (aliasName, column) := by
  obtain ⟨root, table, column, aliasName, hroot, hcolumn, halias, hoffers⟩ := h
  exact ⟨aliasName, column, hinst.columnRef_eq hr hresolve ha hroot hcolumn halias, hoffers⟩

end Sees

/-! ## Parts of templates -/

/-- What building a part of a template relies on; `stands` says which source symbols stand for its
symbols. Symbols of the source stand for themselves, symbols of the target for what they copy. -/
structure Standing (inst : Instance) (r : Rule) (stands : Symbol → Symbol) (t : Template) :
    Prop where
  kinds : t.WellKinded
  resolve : ∀ s ∈ t.symbols, inst.resolve s = .ok (stands s)
  standing : ∀ s ∈ t.symbols, stands s ∈ r.source.symbolsOf s.kind
  distinct : ((t.symbolsOf .table).map stands).Nodup
  /-- An attribute list comes from something that its operand exposes. -/
  chained : ∀ z ∈ t.viable, ∃ v ∈ z.2, Relation.TransGen r.Draws (stands z.1) (stands v)

theorem Standing.mono {t p : Template} (h : inst.Standing r stands t) (hkinds : p.WellKinded)
    (hsymbols : p.symbols.Sublist t.symbols) (hviable : p.viable ⊆ t.viable) :
    inst.Standing r stands p where
  kinds := hkinds
  resolve s hs := h.resolve s (hsymbols.subset hs)
  standing s hs := h.standing s (hsymbols.subset hs)
  distinct := h.distinct.sublist ((hsymbols.filter _).map stands)
  chained z hz := h.chained z (hviable hz)

/-- The number of output columns that an exposed symbol stands for. -/
def widthOf (inst : Instance) (stands : Symbol → Symbol) (s : Symbol) : Nat :=
  if s.kind = .table then (inst.relationColumns (stands s)).length else 1

/-- What building a part of a template makes. -/
structure Built (inst : Instance) (r : Rule) (stands : Symbol → Symbol) (t : Template) (n n' : Nat)
    (plan : Plan) (aliases : List (Symbol × String)) : Prop where
  layout : inst.Layout ((t.symbolsOf .table).map stands) n n' plan aliases
  wellScoped : plan.WellScoped
  seen : ∀ v ∈ t.exposed, ∀ a, Relation.TransGen r.Draws a (stands v) →
    inst.Sees r aliases plan a
  width : plan.outputColumns.length = (t.exposed.map (inst.widthOf stands)).sum

/-- A part of a template can be built, whatever is made of it then. -/
def Buildable (inst : Instance) (r : Rule) (stands : Symbol → Symbol) (t : Template) (n : Nat) :
    Prop :=
  ∃ plan aliases n', Builds (inst.build t) n (plan, aliases) n' ∧
    inst.Built r stands t n n' plan aliases

/-! ## Building -/

section Building

variable (hr : r.Grounded) (hinst : inst.Finished r)

theorem filter_table_append {below own : List Symbol} (hown : ∀ s ∈ own, s.kind ≠ .table) :
    (below ++ own).filter (fun s => s.kind = .table) = below.filter fun s => s.kind = .table := by
  have hnil : own.filter (fun s => s.kind = .table) = [] :=
    filter_eq_nil_iff.mpr fun s hs => by simpa using hown s hs
  rw [filter_append, hnil, append_nil]

include hr hinst in
/-- An input is built as a scan. -/
theorem exists_build_input (table : Symbol) (h : inst.Standing r stands (.input table)) (n : Nat) :
    inst.Buildable r stands (.input table) n := by
  have hkind : table.kind = .table := h.kinds
  have hmem : table ∈ (input table).symbols := mem_singleton_self table
  have hstands : stands table ∈ r.source.symbolsOf .table := hkind ▸ h.standing table hmem
  have htables : (input table).symbolsOf .table = [table] := by
    simp [symbolsOf, symbols, hkind]
  obtain ⟨i, hlookup, hcolumns⟩ := hinst.exists_relation hr hstands
  refine ⟨.input (relationName i) (inst.tableAlias (stands table)) (inst.relations.getD i []),
    [(stands table, inst.tableAlias (stands table))], n, ?_, ⟨?_, trivial, ?_, ?_⟩⟩
  · unfold build
    refine builds_bind (builds_lift (h.resolve table hmem) n) ?_
    simp only [hlookup]
    exact builds_pure _ n
  · rw [htables]
    refine ⟨Nat.le_refl n, rfl, ?_, nodup_singleton _, ?_, ?_⟩
    · intro z hz
      exact .inl ⟨_, mem_singleton_self _, mem_singleton.mp hz⟩
    · intro z hz
      exact ⟨i, mem_singleton.mp hz⟩
    · intro s hs
      rw [mem_singleton.mp hs]
      exact ⟨i, hlookup, mem_singleton_self _⟩
  · intro v hv a hchain
    rw [mem_singleton.mp hv] at hchain
    -- What is drawn from the table in the end has its root among the columns of the relation.
    have hstandsKind : (stands table).kind = .table :=
      kind_of_mem_symbolsOf hstands
    obtain ⟨root, hroot⟩ := Rule.exists_rooted_of_transGen hchain hstandsKind
    obtain ⟨column, hcolumn, hown⟩ := hinst.owned hroot.draws hstandsKind
    rw [hcolumns] at hcolumn
    refine ⟨root, _, column, _, hroot, hown, ?_, _, mem_singleton_self _, hcolumn⟩
    exact lookup_cons_self
  · show _ = List.sum [inst.widthOf stands table]
    unfold widthOf
    rw [if_pos hkind, hcolumns]
    rfl

include hr hinst in
/-- An attribute list of an operator can be referred to above the operand. -/
theorem Built.exists_columnRef {t p : Template} {n n' : Nat} {plan : Plan}
    {aliases : List (Symbol × String)} (hp : inst.Built r stands p n n' plan aliases)
    (h : inst.Standing r stands t) {attrs : Symbol} (hattrs : attrs ∈ t.symbols)
    (hviable : (attrs, p.exposed) ∈ t.viable) :
    ∃ aliasName column, inst.columnRef attrs aliases = .ok (.column aliasName column) ∧
      plan.Offers (aliasName, column) := by
  obtain ⟨v, hv, hchain⟩ := h.chained _ hviable
  exact (hp.seen v hv _ hchain).columnRef hr hinst (h.resolve attrs hattrs)
    (mem_of_mem_filter (h.standing attrs hattrs))

include hr hinst in
/-- A projection is built over whatever was built below it. -/
theorem exists_build_proj (dedup : Bool) {attrs : Symbol} {p : Template}
    (h : inst.Standing r stands (.proj dedup attrs p)) {n : Nat}
    (hp : inst.Buildable r stands p n) : inst.Buildable r stands (.proj dedup attrs p) n := by
  obtain ⟨plan, aliases, n', hbuilds, hp⟩ := hp
  have hattrs : attrs ∈ (proj dedup attrs p).symbols :=
    mem_append_right _ (mem_singleton_self _)
  have hviable : (attrs, p.exposed) ∈ (proj dedup attrs p).viable :=
    mem_append_right _ (mem_singleton_self _)
  obtain ⟨v, hv, hchain⟩ := h.chained _ hviable
  obtain ⟨root, table, column, aliasName, hroot, hcolumn, halias, hoffers⟩ := hp.seen v hv _ hchain
  have href := hinst.columnRef_eq hr (h.resolve attrs hattrs)
    (mem_of_mem_filter (h.standing attrs hattrs)) hroot hcolumn halias
  have htables : (proj dedup attrs p).symbolsOf .table = p.symbolsOf .table := by
    refine filter_table_append fun s hs => ?_
    rw [mem_singleton.mp hs, h.kinds.2]
    decide
  refine ⟨.proj plan [⟨.column aliasName column, column⟩] dedup ("q" ++ n'.repr),
    aliases.map fun z => (z.1, "q" ++ n'.repr), n' + 1, ?_, ⟨?_, ?_, ?_, ?_⟩⟩
  · unfold build
    refine builds_bind hbuilds (builds_bind (builds_lift href n') ?_)
    exact builds_bind (builds_nextProjection n') (builds_pure _ _)
  · rw [htables]
    exact hp.layout.proj [⟨.column aliasName column, column⟩] dedup
  · refine ⟨hp.wellScoped, fun item hitem ref href => ?_⟩
    rw [mem_singleton.mp hitem] at href
    rw [mem_singleton.mp href]
    exact hoffers
  · -- Whatever is drawn from the projection has the root of its attribute list.
    intro v hv a hchain
    rw [mem_singleton.mp hv] at hchain
    refine ⟨root, table, column, _, hroot.of_chain hchain.to_reflTransGen, hcolumn,
      lookup_map_const aliasName halias _, _, mem_singleton_self _, mem_singleton_self _⟩
  · show 1 = List.sum [inst.widthOf stands attrs]
    unfold widthOf
    rw [if_neg (by rw [h.kinds.2]; decide)]
    rfl

include hr hinst in
/-- A filter is built with a predicate over columns that are visible. -/
theorem exists_build_filter {pred attrs : Symbol} {p : Template}
    (h : inst.Standing r stands (.filter pred attrs p)) {n : Nat}
    (hp : inst.Buildable r stands p n) : inst.Buildable r stands (.filter pred attrs p) n := by
  obtain ⟨plan, aliases, n', hbuilds, hp⟩ := hp
  obtain ⟨-, hpredKind, hattrsKind⟩ := h.kinds
  have hpred : pred ∈ (filter pred attrs p).symbols :=
    mem_append_right _ mem_cons_self
  have hattrs : attrs ∈ (filter pred attrs p).symbols :=
    mem_append_right _ (mem_cons_of_mem _ mem_cons_self)
  obtain ⟨aliasName, column, href, hoffers⟩ := hp.exists_columnRef hr hinst h hattrs
    (mem_append_right _ (mem_singleton_self _))
  obtain ⟨name, hname⟩ := hinst.exists_pred hr (hpredKind ▸ h.standing pred hpred)
  have htables : (filter pred attrs p).symbolsOf .table = p.symbolsOf .table := by
    refine filter_table_append fun s hs => ?_
    rcases mem_cons.mp hs with rfl | hs
    · rw [hpredKind]
      decide
    · rw [mem_singleton.mp hs, hattrsKind]
      decide
  refine ⟨.filter plan (.call name [.column aliasName column]), aliases, n', ?_,
    ⟨?_, ⟨hp.wellScoped, fun ref hmem => ?_⟩, hp.seen, hp.width⟩⟩
  · unfold build
    refine builds_bind hbuilds (builds_bind (builds_lift href n')
      (builds_bind (builds_lift (h.resolve pred hpred) n') ?_))
    simp only [hname]
    exact builds_pure _ n'
  · rw [htables]
    exact ⟨hp.layout.le, hp.layout.keys, hp.layout.names, hp.layout.distinct, hp.layout.inputs,
      hp.layout.covers⟩
  · rw [mem_singleton.mp hmem]
    exact hoffers

section Pair

variable {t left right : Template} {n n₁ n₂ : Nat} {p q plan : Plan}
  {aliases aliases' : List (Symbol × String)}

include hinst in
/-- Two operands side by side. No table is below both. -/
theorem Built.append (h : inst.Standing r stands t)
    (htables : t.symbolsOf .table = left.symbolsOf .table ++ right.symbolsOf .table)
    (hl : inst.Built r stands left n n₁ p aliases)
    (hright : inst.Built r stands right n₁ n₂ q aliases')
    (haliases : plan.aliases = p.aliases ++ q.aliases)
    (hinputs : plan.inputs = p.inputs ++ q.inputs) :
    inst.Layout ((t.symbolsOf .table).map stands) n n₂ plan (aliases ++ aliases') := by
  have hdistinct := h.distinct
  rw [htables, map_append] at hdistinct ⊢
  refine hl.layout.append hright.layout (fun s hs => ?_)
    (disjoint_of_nodup_append hdistinct) haliases hinputs
  obtain ⟨table, htable, rfl⟩ := mem_map.mp hs
  have hmem : table ∈ t.symbolsOf .table := htables ▸ mem_append_left _ htable
  obtain ⟨hsymbol, hkind⟩ := mem_filter.mp hmem
  rw [hinst.tableKeys, ← of_decide_eq_true hkind]
  exact h.standing table hsymbol

include hr hinst in
/-- A subquery is built after the left plan, with the numbers that come next. -/
theorem exists_build_inSub {attrs : Symbol} (h : inst.Standing r stands (.inSub attrs left right))
    (hl : inst.Buildable r stands left n) (hright : ∀ n, inst.Buildable r stands right n) :
    inst.Buildable r stands (.inSub attrs left right) n := by
  obtain ⟨p, aliases, n₁, hbuilds, hl⟩ := hl
  obtain ⟨q, aliases', n₂, hbuilds', hright⟩ := hright n₁
  obtain ⟨aliasName, column, href, hoffers⟩ := hl.exists_columnRef hr hinst h
    (mem_append_right _ (mem_singleton_self attrs))
    (mem_append_right _ (mem_singleton_self _))
  have htables : (inSub attrs left right).symbolsOf .table =
      left.symbolsOf .table ++ right.symbolsOf .table := by
    refine (filter_table_append fun s hs => ?_).trans (filter_append _ _)
    rw [mem_singleton.mp hs, h.kinds.2.2]
    decide
  refine ⟨.inSub p [.column aliasName column] q, aliases ++ aliases', n₂, ?_,
    ⟨hl.append hinst h htables hright rfl rfl, ⟨hl.wellScoped, hright.wellScoped, ?_⟩,
      fun v hv a hchain => (hl.seen v hv a hchain).append_left fun _ hz => hz, hl.width⟩⟩
  · unfold build
    exact builds_bind hbuilds (builds_bind hbuilds' (builds_bind (builds_lift href n₂)
      (builds_pure _ n₂)))
  · intro ref hmem
    rw [mem_singleton.mp hmem]
    exact hoffers

include hr hinst in
/-- The two sides of a join are numbered apart, so each keeps the columns it shows. -/
theorem exists_build_join (kind : TemplateJoin) {leftAttrs rightAttrs : Symbol}
    (h : inst.Standing r stands (.join kind leftAttrs rightAttrs left right))
    (hl : inst.Buildable r stands left n) (hright : ∀ n, inst.Buildable r stands right n) :
    inst.Buildable r stands (.join kind leftAttrs rightAttrs left right) n := by
  obtain ⟨p, aliases, n₁, hbuilds, hl⟩ := hl
  obtain ⟨q, aliases', n₂, hbuilds', hright⟩ := hright n₁
  obtain ⟨-, -, hleftKind, hrightKind⟩ := h.kinds
  have hleftAttrs : leftAttrs ∈ (join kind leftAttrs rightAttrs left right).symbols :=
    mem_append_right _ mem_cons_self
  obtain ⟨aliasName, column, href, hoffers⟩ := hl.exists_columnRef hr hinst h hleftAttrs
    (mem_append_right _ mem_cons_self)
  obtain ⟨aliasName', column', href', hoffers'⟩ := hright.exists_columnRef hr hinst h
    (mem_append_right _ (mem_cons_of_mem _ (mem_singleton_self rightAttrs)))
    (mem_append_right _ (mem_cons_of_mem _ (mem_singleton_self _)))
  have htables : (join kind leftAttrs rightAttrs left right).symbolsOf .table =
      left.symbolsOf .table ++ right.symbolsOf .table := by
    refine (filter_table_append fun s hs => ?_).trans (filter_append _ _)
    rcases mem_cons.mp hs with rfl | hs
    · rw [hleftKind]
      decide
    · rw [mem_singleton.mp hs, hrightKind]
      decide
  -- Scopes and widths do not depend on the kind of the join, so it stays unnamed.
  obtain ⟨joinKind, hbuild⟩ : ∃ joinKind,
      Builds (inst.build (.join kind leftAttrs rightAttrs left right)) n
        (.join joinKind p q (some (.eq (.column aliasName column) (.column aliasName' column'))),
          aliases ++ aliases') n₂ := by
    unfold build
    exact ⟨_, builds_bind hbuilds (builds_bind hbuilds' (builds_bind (builds_lift href n₂)
      (builds_bind (builds_lift href' n₂) rfl)))⟩
  refine ⟨_, _, n₂, hbuild, ⟨hl.append hinst h htables hright rfl rfl,
    ⟨hl.wellScoped, hright.wellScoped, ?_, ?_⟩, ?_, ?_⟩⟩
  · intro ref hmem
    rw [mem_singleton.mp hmem]
    exact hoffers
  · intro ref hmem
    rw [mem_singleton.mp hmem]
    exact hoffers'
  · intro v hv a hchain
    rcases mem_append.mp hv with hv | hv
    · exact (hl.seen v hv a hchain).append_left (subset_append_left _ _)
    · -- Aliases of the left side come first, and hide none of the right side.
      refine (hright.seen v hv a hchain).append_right (subset_append_right _ _) ?_
      have hdistinct := h.distinct
      rw [htables, map_append] at hdistinct
      rw [hl.layout.keys, hright.layout.keys]
      exact disjoint_of_nodup_append hdistinct
  · show (p.outputColumns ++ q.outputColumns).length = ((left.exposed ++ right.exposed).map _).sum
    rw [length_append, map_append, sum_append, hl.width, hright.width]

include hinst in
theorem exists_build_union (dedup : Bool) (h : inst.Standing r stands (.union dedup left right))
    (hl : inst.Buildable r stands left n) (hright : ∀ n, inst.Buildable r stands right n) :
    inst.Buildable r stands (.union dedup left right) n := by
  obtain ⟨p, aliases, n₁, hbuilds, hl⟩ := hl
  obtain ⟨q, aliases', n₂, hbuilds', hright⟩ := hright n₁
  have htables : (union dedup left right).symbolsOf .table =
      left.symbolsOf .table ++ right.symbolsOf .table := filter_append _ _
  refine ⟨.setOp .union dedup p q, aliases ++ aliases', n₂, ?_,
    ⟨hl.append hinst h htables hright rfl rfl, ⟨hl.wellScoped, hright.wellScoped⟩,
      fun v hv a hchain => (hl.seen v hv a hchain).append_left fun _ hz => hz, hl.width⟩⟩
  unfold build
  exact builds_bind hbuilds (builds_bind hbuilds' (builds_pure _ n₂))

end Pair

include hr hinst in
/-- **Building a template succeeds**, whatever the number of the next projection is. -/
theorem exists_build {t : Template} (h : inst.Standing r stands t) (n : Nat) :
    inst.Buildable r stands t n := by
  -- The second operand numbers its projections from where the first one has stopped.
  induction t generalizing n with
  | input table => exact exists_build_input hr hinst table h n
  | proj dedup attrs p ih =>
    have hp := h.mono h.kinds.1 (sublist_append_left _ _) (subset_append_left _ _)
    exact exists_build_proj hr hinst dedup h (ih hp n)
  | filter pred attrs p ih =>
    have hp := h.mono h.kinds.1 (sublist_append_left _ _) (subset_append_left _ _)
    exact exists_build_filter hr hinst h (ih hp n)
  | inSub attrs p q ihp ihq =>
    have hp := h.mono h.kinds.1 ((sublist_append_left _ _).trans (sublist_append_left _ _))
      (List.Subset.trans (subset_append_left _ _) (subset_append_left _ _))
    have hq := h.mono h.kinds.2.1
      ((sublist_append_right _ _).trans (sublist_append_left _ _))
      (List.Subset.trans (subset_append_right _ _) (subset_append_left _ _))
    exact exists_build_inSub hr hinst h (ihp hp n) (ihq hq)
  | join kind leftAttrs rightAttrs left right ihl ihr =>
    have hl := h.mono h.kinds.1 ((sublist_append_left _ _).trans (sublist_append_left _ _))
      (List.Subset.trans (subset_append_left _ _) (subset_append_left _ _))
    have hright := h.mono h.kinds.2.1
      ((sublist_append_right _ _).trans (sublist_append_left _ _))
      (List.Subset.trans (subset_append_right _ _) (subset_append_left _ _))
    exact exists_build_join hr hinst kind h (ihl hl n) (ihr hright)
  | union dedup left right ihl ihr =>
    have hl := h.mono h.kinds.1 (sublist_append_left _ _) (subset_append_left _ _)
    have hright := h.mono h.kinds.2 (sublist_append_right _ _) (subset_append_right _ _)
    exact exists_build_union hinst dedup h (ihl hl n) (ihr hright)

end Building

end Instance

end QueryRules
