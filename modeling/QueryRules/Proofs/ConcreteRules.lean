import QueryRules.Proofs.BuiltPlans
import QueryRules.Proofs.RuleViews

/-!
# QueryRules — leaves can be made concrete

Every assignment that a search comes to gives a rule that can be made concrete, and the two plans
and the facts fit together: aliases are distinct, references are in scope, and the facts are about
tables and columns that the plans read.
-/

namespace QueryRules

open List

/-! ## Facts about a schema -/

/-- The facts are about columns that there are. -/
structure Facts.About (has : String → String → Prop) (f : Facts) : Prop where
  uniqueKeys : ∀ k ∈ f.uniqueKeys, k.columns ≠ [] ∧ ∀ c ∈ k.columns, has k.table c
  notNull : ∀ k ∈ f.notNull, has k.table k.column
  foreignKeys : ∀ k ∈ f.foreignKeys, k.columns ≠ [] ∧ k.refColumns ≠ [] ∧
    (∀ c ∈ k.columns, has k.table c) ∧ ∀ c ∈ k.refColumns, has k.refTable c

namespace ConcreteRule

/-- The tables that the two plans read, with their columns. -/
def tables (c : ConcreteRule) : List (String × List String) :=
  c.source.inputs ++ c.target.inputs

/-- A table that the plans read has a column. -/
def HasColumn (c : ConcreteRule) (table column : String) : Prop :=
  ∃ columns, (table, columns) ∈ c.tables ∧ column ∈ columns

/-- The plans and the facts of a concrete rule fit together. -/
structure WellFormed (c : ConcreteRule) : Prop where
  source_aliases : c.source.aliases.Nodup
  target_aliases : c.target.aliases.Nodup
  source_wellScoped : c.source.WellScoped
  target_wellScoped : c.target.WellScoped
  /-- A table has the same columns wherever it is read. -/
  schema : ∀ z ∈ c.tables, ∀ z' ∈ c.tables, z.1 = z'.1 → z.2 = z'.2
  facts : c.facts.About c.HasColumn

end ConcreteRule

/-- The source symbol that a target symbol copies. -/
def Rule.original (r : Rule) (target : Symbol) : Symbol :=
  (r.copiedBy? target).getD target

theorem Rule.original_eq {r : Rule} {a b : Symbol} (h : r.copiedBy? b = some a) :
    r.original b = a := by
  unfold original
  rw [h, Option.getD_some]

namespace Instance

variable {inst : Instance} {r : Rule}

theorem mem_addNew {α : Type} [DecidableEq α] {xs : List α} {x y : α} :
    y ∈ addNew xs x ↔ y ∈ xs ∨ y = x := by
  unfold addNew
  split
  · next hx =>
    refine ⟨.inl, ?_⟩
    rintro (hy | rfl)
    · exact hy
    · exact hx
  · rw [mem_append, mem_singleton]

/-- A constraint adds facts about columns that exist. -/
theorem about_addFact {has : String → String → Prop} {f : Facts} {e : Constraint}
    (hcolumns : ∀ z ∈ Choice.columnsOf e, ∃ table column, inst.relationOf? z.1 = some table ∧
      inst.ownColumn? z.2 = some column ∧ has table column)
    (hf : f.About has) : (inst.addFact f e).About has := by
  cases e with
  | attrsSub | eq => exact hf
  | unique t a =>
    obtain ⟨table, column, htable, hcolumn, hhas⟩ := hcolumns (t, a) mem_cons_self
    simp only [addFact, htable, hcolumn]
    refine ⟨fun k hk => ?_, hf.notNull, hf.foreignKeys⟩
    rcases mem_addNew.mp hk with hk | rfl
    · exact hf.uniqueKeys k hk
    · refine ⟨cons_ne_nil _ _, fun c hc => ?_⟩
      rw [mem_singleton.mp hc]
      exact hhas
  | notNull t a =>
    obtain ⟨table, column, htable, hcolumn, hhas⟩ := hcolumns (t, a) mem_cons_self
    simp only [addFact, htable, hcolumn]
    refine ⟨hf.uniqueKeys, fun k hk => ?_, hf.foreignKeys⟩
    rcases mem_addNew.mp hk with hk | rfl
    · exact hf.notNull k hk
    · exact hhas
  | reference t a t' a' =>
    obtain ⟨table, column, htable, hcolumn, hhas⟩ := hcolumns (t, a) mem_cons_self
    obtain ⟨table', column', htable', hcolumn', hhas'⟩ :=
      hcolumns (t', a') (mem_cons_of_mem _ mem_cons_self)
    simp only [addFact, htable, hcolumn, htable', hcolumn']
    refine ⟨hf.uniqueKeys, hf.notNull, fun k hk => ?_⟩
    rcases mem_addNew.mp hk with hk | rfl
    · exact hf.foreignKeys k hk
    · refine ⟨cons_ne_nil _ _, cons_ne_nil _ _, fun c hc => ?_, fun c hc => ?_⟩
      · rw [mem_singleton.mp hc]
        exact hhas
      · rw [mem_singleton.mp hc]
        exact hhas'

/-- What is known of all columns of integrity constraints holds of the facts. -/
theorem about_facts {has : String → String → Prop}
    (hcolumns : ∀ e ∈ inst.rule.constraints, ∀ z ∈ Choice.columnsOf e, ∃ table column,
      inst.relationOf? z.1 = some table ∧ inst.ownColumn? z.2 = some column ∧ has table column) :
    inst.facts.About has := by
  have hnone : Facts.none.About has :=
    ⟨fun _ hk => absurd hk not_mem_nil, fun _ hk => absurd hk not_mem_nil,
      fun _ hk => absurd hk not_mem_nil⟩
  unfold facts
  refine List.foldlRecOn _ _ hnone fun f hf e he => about_addFact (hcolumns e he) hf

/-! ## Both templates -/

section Standing

variable (hr : r.Grounded) (hinst : inst.Finished r)

include hr in
/-- Symbols of the source stand for themselves. -/
theorem standing_source : inst.Standing r id r.source where
  kinds := hr.source.kinds
  resolve s hs := by
    unfold resolve
    rw [hr.source.numbers.sides s hs]
    rfl
  standing s hs := Template.mem_symbolsOf_kind hs
  distinct := (map_id _).symm ▸ hr.source.nodup_symbolsOf .table
  chained z hz := by
    have hattrs : z.1 ∈ r.source.symbolsOf .attrs :=
      Template.map_fst_viable hr.source.kinds ▸ mem_map_of_mem hz
    obtain ⟨s, hs⟩ := hr.draws z.1 hattrs
    exact ⟨s, hr.source.viableSources_of_mem hz ▸ (hr.drawn hs).2, .single hs⟩

include hr hinst in
/-- Symbols of the target stand for what they copy. -/
theorem standing_target : inst.Standing r r.original r.target where
  kinds := hr.target.kinds
  resolve b hb := by
    obtain ⟨a, -, ha⟩ := hr.copies b hb
    unfold resolve
    rw [hr.target.numbers.sides b hb, r.original_eq ha]
    simp only [hinst.rule, ha]
  standing b hb := by
    obtain ⟨a, hmem, ha⟩ := hr.copies b hb
    rw [r.original_eq ha]
    exact hmem
  distinct := by
    refine (hr.target.nodup_symbolsOf .table).map_on fun b hb b' hb' heq => ?_
    refine hr.injective b hb b' hb' ?_
    obtain ⟨a, -, ha⟩ := hr.copies b (mem_of_mem_filter hb)
    obtain ⟨a', -, ha'⟩ := hr.copies b' (mem_of_mem_filter hb')
    rw [r.original_eq ha, r.original_eq ha'] at heq
    rw [ha, ha', heq]
  chained z hz := by
    have hattrs : z.1 ∈ r.target.symbolsOf .attrs :=
      Template.map_fst_viable hr.target.kinds ▸ mem_map_of_mem hz
    obtain ⟨a, -, ha⟩ := hr.copies z.1 (mem_of_mem_filter hattrs)
    obtain ⟨v, hv, x, hx, hchain⟩ := hr.chained z.1 hattrs a ha
    refine ⟨v, hr.target.viableSources_of_mem hz ▸ hv, ?_⟩
    rw [r.original_eq ha, r.original_eq hx]
    exact hchain

end Standing

end Instance

namespace Rule

variable {r : Rule}

/-- What making a rule concrete goes through: an invention, and the two templates built with it. -/
structure MadeWith (r : Rule) (inst : Instance) (c : ConcreteRule) : Prop where
  concrete : r.concrete = .ok c
  finished : inst.Finished r
  facts : c.facts = inst.facts
  source : ∃ n n' aliases, inst.Built r id r.source n n' c.source aliases
  target : ∃ n n' aliases, inst.Built r r.original r.target n n' c.target aliases

/-- **A grounded rule can be made concrete.** -/
theorem Grounded.exists_madeWith (hr : r.Grounded) : ∃ inst c, r.MadeWith inst c := by
  obtain ⟨inst, hinvent, hinst⟩ := Instance.exists_invent hr
  obtain ⟨source, aliases, n, hsource, hbuilt⟩ :=
    Instance.exists_build hr hinst (Instance.standing_source hr) 0
  obtain ⟨target, aliases', n', htarget, hbuilt'⟩ :=
    Instance.exists_build hr hinst (Instance.standing_target hr hinst) n
  refine ⟨inst, ⟨source, target, inst.facts⟩, ?_, hinst, rfl, ⟨_, _, _, hbuilt⟩, ⟨_, _, _, hbuilt'⟩⟩
  unfold Instance.Builds at hsource htarget
  unfold concrete
  rw [hinvent]
  simp only [bind, Except.bind, hsource, htarget]
  rfl

/-- The relation of a table of the source is read by the source plan. -/
theorem MadeWith.hasColumn (hr : r.Grounded) {inst : Instance} {c : ConcreteRule}
    (h : r.MadeWith inst c) {a t : Symbol} (hkind : t.kind = .table) (hd : r.Draws a t) :
    ∃ table column, inst.relationOf? t = some table ∧ inst.ownColumn? a = some column ∧
      c.HasColumn table column := by
  obtain ⟨n, n', aliases, hbuilt⟩ := h.source
  have ht : t ∈ r.source.symbolsOf .table := hkind ▸ hr.mem_of_draws hd
  obtain ⟨column, hmem, hown⟩ := h.finished.owned hd hkind
  obtain ⟨i, hlookup, hcolumns⟩ := h.finished.exists_relation hr ht
  obtain ⟨j, hlookup', hinput⟩ := hbuilt.layout.covers t (by rwa [map_id])
  obtain rfl : i = j := Option.some.inj (hlookup.symm.trans hlookup')
  refine ⟨Instance.relationName i, column, ?_, ?_, _, mem_append_left _ hinput, hcolumns ▸ hmem⟩
  · unfold Instance.relationOf?
    rw [hlookup]
    rfl
  · unfold Instance.ownColumn?
    rw [hown]
    rfl

/-- What an invented instance makes of a rule is well formed. -/
theorem MadeWith.wellFormed (hr : r.Grounded) {inst : Instance} {c : ConcreteRule}
    (h : r.MadeWith inst c) : c.WellFormed := by
  obtain ⟨_, _, _, hsource⟩ := h.source
  obtain ⟨_, _, _, htarget⟩ := h.target
  refine ⟨hsource.layout.distinct, htarget.layout.distinct, hsource.wellScoped, htarget.wellScoped,
    ?_, ?_⟩
  · -- Both plans read relations of the one invention, and a name tells the number.
    have hinputs : ∀ z ∈ c.tables, ∃ i, z = (Instance.relationName i, inst.relations.getD i []) :=
      fun z hz => (mem_append.mp hz).elim (hsource.layout.inputs z) (htarget.layout.inputs z)
    intro z hz z' hz' heq
    obtain ⟨i, rfl⟩ := hinputs z hz
    obtain ⟨j, rfl⟩ := hinputs z' hz'
    rw [FreshNames.append_repr_inj heq]
  · rw [h.facts]
    refine Instance.about_facts fun e he z hz => ?_
    obtain ⟨hkind, hd⟩ := hr.conforms e (h.finished.rule ▸ he) z hz
    exact h.hasColumn hr hkind hd

end Rule

/-! ## Rules of well-formed assignments -/

namespace Rule

variable {r : Rule} {a s : Symbol}

theorem mem_constraints_of_sourceOf? (h : r.sourceOf? a = some s) :
    .attrsSub a s ∈ r.constraints := by
  obtain ⟨e, he, heq⟩ := exists_of_findSome?_eq_some h
  cases e with
  | attrsSub a' s' =>
    dsimp only at heq
    split at heq
    · next haa =>
      cases heq
      exact haa ▸ he
    · cases heq
  | _ => cases heq

end Rule

namespace Catalog

/-- The tables of integrity constraints are tables. -/
theorem kind_of_mem_columnsOf {catalog : Catalog} {e : Constraint} (he : e ∈ catalog.integrity) :
    ∀ z ∈ Choice.columnsOf e, z.1.kind = .table := by
  have hkind : ∀ {a t}, t ∈ catalog.tableSources a → t.kind = .table := fun ht =>
    of_decide_eq_true (mem_filter.mp ht).2
  unfold integrity block at he
  simp only [mem_append, mem_flatMap, mem_map] at he
  rcases he with (⟨a, -, t, ht, rfl⟩ | ⟨a, -, t, ht, rfl⟩) | ⟨a, -, b, -, he⟩
  · intro z hz
    rw [mem_singleton.mp hz]
    exact hkind ht
  · intro z hz
    rw [mem_singleton.mp hz]
    exact hkind ht
  · split at he
    · cases he
    · obtain ⟨t, ht, he⟩ := mem_flatMap.mp he
      obtain ⟨t', ht', rfl⟩ := mem_map.mp he
      intro z hz
      rcases mem_cons.mp hz with rfl | hz
      · exact hkind ht
      · rw [mem_singleton.mp hz]
        exact hkind ht'

end Catalog

namespace Parts

variable {catalog : Catalog} {x : Parts} {a b s : Symbol} (h : catalog.WellBound)
  (hx : x.Fits catalog)

include h hx

theorem draws_rule_iff : (catalog.rule (x.flags catalog)).Draws a s ↔
    catalog.Draws (x.flags catalog) a s := by
  refine ⟨Rule.mem_constraints_of_sourceOf?, fun hd => ?_⟩
  obtain ⟨ha, rfl⟩ := (draws_iff h hx).mp hd
  exact sourceOf?_rule h hx ha

theorem same_rule_iff (ha : a ∈ catalog.source.symbols) (hb : b ∈ catalog.source.symbols) :
    (catalog.rule (x.flags catalog)).classes.same a b = true ↔
      catalog.Equates (x.flags catalog) a b := by
  rw [same_classes_iff h hx ha hb, equates_iff h ha hb]

/-- The rule of a well-formed assignment is grounded. -/
theorem grounded (hw : catalog.WellFormed (x.flags catalog)) :
    (catalog.rule (x.flags catalog)).Grounded := by
  have hsymbols : ∀ {a s}, (catalog.rule (x.flags catalog)).Draws a s →
      a ∈ catalog.source.symbolsOf .attrs ∧ s ∈ catalog.source.viableSources a := by
    intro a s hd
    obtain ⟨ha, rfl⟩ := (draws_iff h hx).mp ((draws_rule_iff h hx).mp hd)
    exact ⟨ha, hx.source a ha⟩
  have hmem : ∀ {a s}, (catalog.rule (x.flags catalog)).Draws a s →
      a ∈ catalog.source.symbols ∧ s ∈ catalog.source.symbols := fun hd =>
    ⟨mem_of_mem_filter (hsymbols hd).1,
      mem_of_mem_filter (h.source.mem_of_mem_viableSources (hsymbols hd).2).1⟩
  refine ⟨h.source, h.target, fun a ha => ⟨_, sourceOf?_rule h hx ha⟩, hsymbols, ?_, ?_, ?_, ?_, ?_⟩
  · intro a b s t hs ht hsame
    rw [same_rule_iff h hx (hmem hs).1 (hmem ht).1] at hsame
    rw [same_rule_iff h hx (hmem hs).2 (hmem ht).2]
    exact hw.equal_draws a (hsymbols hs).1 b (hsymbols ht).1 hsame s t
      ((draws_rule_iff h hx).mp hs) ((draws_rule_iff h hx).mp ht)
  · intro b hb
    have hb' : b ∈ catalog.targets := mem_targets.mpr hb
    exact ⟨x.copied b, hx.copied b hb', copiedBy?_rule h hx hb'⟩
  · intro b hb b' hb' heq
    have hb₁ := mem_targets_of_mem hb
    have hb₂ := mem_targets_of_mem hb'
    rw [copiedBy?_rule h hx hb₁, copiedBy?_rule h hx hb₂] at heq
    exact hw.injective b hb b' hb' (x.copied b) ((copies_iff h hx hb₁).mpr rfl)
      ((copies_iff h hx hb₂).mpr (Option.some.inj heq).symm)
  · intro b hb a ha
    have hb' := mem_targets_of_mem hb
    rw [copiedBy?_rule h hx hb'] at ha
    obtain ⟨v, hv, y, hy, hchain⟩ := hw.chained b hb a
      ((copies_iff h hx hb').mpr (Option.some.inj ha))
    have hv' : v ∈ catalog.targets :=
      mem_targets_of_mem (h.target.mem_of_mem_viableSources hv).1
    refine ⟨v, hv, y, ?_, Relation.TransGen.mono (fun c d hcd => (draws_rule_iff h hx).mpr hcd) _ _
      hchain⟩
    rw [copiedBy?_rule h hx hv', (copies_iff h hx hv').mp hy]
  · intro e he z hz
    -- Sources and equalities have no columns.
    have hintegrity : e ∈ catalog.integrity := by
      have hentry := Catalog.mem_entries_of_mem_chosen he
      rw [Catalog.entries_eq, mem_append] at hentry
      refine hentry.resolve_left fun hstruct => ?_
      rcases Catalog.mem_structural.mp hstruct with ⟨_, _, _, _, rfl⟩ | ⟨_, _, _, _, rfl⟩ |
        ⟨_, _, _, _, _, rfl⟩
      · cases hz
      · cases hz
      · cases hz
    exact ⟨Catalog.kind_of_mem_columnsOf hintegrity z hz,
      (draws_rule_iff h hx).mpr (hw.conforms e hintegrity he z hz)⟩

end Parts

/-- **Leaves can be made concrete.** At every complete choice that a search comes to, the rule of
the assignment has two plans in which no alias occurs twice and every reference is in scope, and
facts about tables and columns that the plans read. -/
theorem TemplatePair.leaf_concrete (p : TemplatePair) {catalog : Catalog}
    (hread : p.catalog = .ok catalog) (settings : Settings) (oracle : Oracle) (clock : Nat → Nat)
    {c : Choice} (hc : catalog.Reaches settings oracle clock c) :
    ∃ concrete, (catalog.rule ((SearchTask.ofCatalog catalog settings oracle clock).flags c
      false)).concrete = .ok concrete ∧ concrete.WellFormed := by
  have h := p.wellBound hread
  obtain ⟨x, hx, hcomplete, rfl⟩ :=
    (Catalog.mem_completeChoices h).mp (Catalog.mem_completeChoices_of_reaches hc)
  rw [Parts.flags_eq]
  have hr := Parts.grounded h hx ((Parts.isComplete_iff h hx).mp hcomplete)
  obtain ⟨inst, concrete, hmade⟩ := hr.exists_madeWith
  exact ⟨concrete, hmade.concrete, hmade.wellFormed hr⟩

/-- An `IN` filter against a projection. At some complete choice the filtered column refers to the
projected one, so there is a foreign key among the facts. -/
theorem TemplatePair.leaf_concrete_reference :
    ∃ catalog c concrete, (⟨"InSubFilter<a1>(Input<t0>,Proj<a0>(Input<t1>))", "Input<t2>"⟩ :
        TemplatePair).catalog = .ok catalog ∧
      catalog.Reaches { skipTableCheck := true } Oracle.strict id c ∧
      (catalog.rule ((SearchTask.ofCatalog catalog { skipTableCheck := true } Oracle.strict
        id).flags c false)).concrete = .ok concrete ∧
      concrete.facts.foreignKeys ≠ [] ∧ concrete.WellFormed := by
  have hsome : ((⟨"InSubFilter<a1>(Input<t0>,Proj<a0>(Input<t1>))", "Input<t2>"⟩ :
      TemplatePair).catalog.toOption.any fun catalog =>
        (catalog.search { skipTableCheck := true } Oracle.strict id).final.answered.any fun z =>
          (catalog.rule ((SearchTask.ofCatalog catalog { skipTableCheck := true } Oracle.strict
            id).flags z.1 false)).concrete.toOption.any fun concrete =>
              !concrete.facts.foreignKeys.isEmpty) = true := by
    decide +kernel
  obtain ⟨catalog, hread, hsome⟩ := exists_ok_of_any hsome
  obtain ⟨z, hz, hkeys⟩ := any_eq_true.mp hsome
  have hreaches := Catalog.reaches_of_answered hz
  obtain ⟨concrete, hconcrete, hwell⟩ :=
    TemplatePair.leaf_concrete _ hread { skipTableCheck := true } Oracle.strict id hreaches
  obtain ⟨concrete', hconcrete', hkeys⟩ := exists_ok_of_any hkeys
  obtain rfl : concrete = concrete' := Except.ok.inj (hconcrete.symm.trans hconcrete')
  refine ⟨catalog, z.1, concrete, hread, hreaches, hconcrete, fun hnil => ?_, hwell⟩
  rw [hnil] at hkeys
  cases hkeys

end QueryRules
