import Mathlib.Data.List.GetD
import Mathlib.Data.List.Induction
import Mathlib.Logic.Relation
import QueryRules.Proofs.BoundTemplates
import QueryRules.Proofs.CongruenceClosure

/-!
# QueryRules — what is invented for a rule

Making a rule concrete starts with relations, columns and predicate names for the symbols of its
source template. This module says what a rule has to provide for that (`Rule.Grounded`) and what the
finished invention then looks like (`Instance.Finished`).
-/

namespace QueryRules

open List

/-! ## Rules that can be made concrete -/

namespace Rule

variable {r : Rule} {a b s t : Symbol}

/-- An attribute list is drawn from a symbol. -/
def Draws (r : Rule) (attrs source : Symbol) : Prop :=
  r.sourceOf? attrs = some source

/-- What making a rule concrete relies on. -/
structure Grounded (r : Rule) : Prop where
  source : r.source.WellBound .source
  target : r.target.WellBound .target
  /-- Every attribute list of the source has a source. -/
  draws : ∀ a ∈ r.source.symbolsOf .attrs, ∃ s, r.Draws a s
  /-- What is drawn is an attribute list of the source, and from what its operand exposes. -/
  drawn : ∀ {a s}, r.Draws a s → a ∈ r.source.symbolsOf .attrs ∧ s ∈ r.source.viableSources a
  /-- Equal attribute lists are drawn from equal symbols. -/
  equal_draws : ∀ {a b s t}, r.Draws a s → r.Draws b t → r.classes.same a b = true →
    r.classes.same s t = true
  /-- Every target symbol copies a source symbol of its kind. -/
  copies : ∀ b ∈ r.target.symbols, ∃ a ∈ r.source.symbolsOf b.kind, r.copiedBy? b = some a
  /-- Different tables copy different tables. -/
  injective : ∀ b ∈ r.target.symbolsOf .table, ∀ b' ∈ r.target.symbolsOf .table,
    r.copiedBy? b = r.copiedBy? b' → b = b'
  /-- What an attribute list copies comes from what one of its own possible sources copies. -/
  chained : ∀ b ∈ r.target.symbolsOf .attrs, ∀ a, r.copiedBy? b = some a →
    ∃ v ∈ r.target.viableSources b, ∃ x, r.copiedBy? v = some x ∧ Relation.TransGen r.Draws a x
  /-- The attribute lists of integrity constraints are drawn from the tables next to them. -/
  conforms : ∀ e ∈ r.constraints, ∀ z ∈ Choice.columnsOf e, z.1.kind = .table ∧ r.Draws z.2 z.1

/-- The sources of an attribute list lead to `root`, which is drawn from a table. -/
structure Rooted (r : Rule) (attrs root table : Symbol) : Prop where
  chain : Relation.ReflTransGen r.Draws attrs root
  draws : r.Draws root table
  kind : table.kind = .table

theorem Rooted.of_chain (hchain : Relation.ReflTransGen r.Draws a b) (h : r.Rooted b s t) :
    r.Rooted a s t :=
  ⟨hchain.trans h.chain, h.draws, h.kind⟩

/-- A chain of sources that ends at a table has a root just before it. -/
theorem exists_rooted_of_transGen (h : Relation.TransGen r.Draws a t) (ht : t.kind = .table) :
    ∃ root, r.Rooted a root t := by
  obtain ⟨root, hchain, hdraws⟩ := Relation.TransGen.tail'_iff.mp h
  exact ⟨root, hchain, hdraws, ht⟩

namespace Grounded

variable (h : r.Grounded)
include h

theorem kind_of_draws (hd : r.Draws a s) : a.kind = .attrs :=
  Template.kind_of_mem_symbolsOf (h.drawn hd).1

theorem kind_cases (hd : r.Draws a s) : s.kind = .attrs ∨ s.kind = .table := by
  have hkind := (h.source.mem_of_mem_viableSources (h.drawn hd).2).2
  cases hs : s.kind with
  | table => exact .inr rfl
  | attrs => exact .inl rfl
  | pred => exact absurd hs hkind

theorem mem_of_draws (hd : r.Draws a s) : s ∈ r.source.symbolsOf s.kind :=
  (h.source.mem_of_mem_viableSources (h.drawn hd).2).1

theorem id_lt_of_draws (hd : r.Draws a s) : s.id < a.id :=
  h.source.id_lt_of_mem_viableSources (h.drawn hd).2

/-- What has a root is an attribute list. -/
theorem kind_of_rooted (hroot : r.Rooted a s t) : a.kind = .attrs := by
  rcases hroot.chain.cases_head with rfl | ⟨b, hd, -⟩
  · exact h.kind_of_draws hroot.draws
  · exact h.kind_of_draws hd

/-- What is kept for the source symbols of a kind is found under each of them. -/
theorem lookup_of_mem {β : Type} {l : List (Symbol × β)} {kind : SymbolKind}
    (hkeys : l.map Prod.fst = r.source.symbolsOf kind) {z : Symbol × β} (hz : z ∈ l) :
    l.lookup z.1 = some z.2 := by
  have hnodup : (l.map Prod.fst).Nodup := by
    rw [hkeys]
    exact h.source.nodup_symbolsOf kind
  exact (lookup_eq_some_iff_mem hnodup).mpr hz

end Grounded

/-! ## How many columns a table has -/

/-- One more attribute list, if it is drawn from a table equal to `table` and equal to none that is
kept. -/
def keepColumn (r : Rule) (table : Symbol) (kept : List Symbol) (attrs : Symbol) : List Symbol :=
  if (r.sourceOf? attrs).any (fun t => t.kind = .table && r.classes.same t table) &&
      !kept.any (r.classes.same · attrs) then
    kept ++ [attrs]
  else kept

/-- The attribute lists that the columns of a table are for: those drawn from tables equal to it,
the first one of each class. -/
def columnAttrs (r : Rule) (table : Symbol) (attrs : List Symbol) : List Symbol :=
  attrs.foldl (r.keepColumn table) []

/-- The number of columns of the relation of a table. There is one that no attribute list is for. -/
def width (r : Rule) (table : Symbol) : Nat :=
  (r.columnAttrs table (r.source.symbolsOf .attrs)).length + 1

section Width

variable {attrs : List Symbol}

theorem columnAttrs_concat (t : Symbol) (attrs : List Symbol) (a : Symbol) :
    r.columnAttrs t (attrs ++ [a]) = r.keepColumn t (r.columnAttrs t attrs) a :=
  foldl_concat _ _ _ _

/-- An attribute list counts for a table if it is drawn from an equal one. -/
theorem any_source_iff (hd : r.Draws a s) :
    (r.sourceOf? a).any (fun u => u.kind = .table && r.classes.same u t) = true ↔
      s.kind = .table ∧ r.classes.same s t = true := by
  rw [show r.sourceOf? a = some s from hd, Option.any_some, Bool.and_eq_true, decide_eq_true_eq]

variable {kept : List Symbol}

theorem keepColumn_of_not (hd : r.Draws a s)
    (h : ¬ (s.kind = .table ∧ r.classes.same s t = true)) : r.keepColumn t kept a = kept := by
  unfold keepColumn
  rw [if_neg]
  intro hcond
  rw [Bool.and_eq_true] at hcond
  exact h ((any_source_iff hd).mp hcond.1)

theorem keepColumn_of_mem (hb : b ∈ kept) (hsame : r.classes.same b a = true) :
    r.keepColumn t kept a = kept := by
  unfold keepColumn
  rw [if_neg]
  intro hcond
  rw [Bool.and_eq_true, Bool.not_eq_true', any_eq_false] at hcond
  exact hcond.2 b hb hsame

theorem keepColumn_of_fresh (hd : r.Draws a s) (hkind : s.kind = .table)
    (hst : r.classes.same s t = true) (hfresh : ∀ b ∈ kept, ¬ r.classes.same b a = true) :
    r.keepColumn t kept a = kept ++ [a] := by
  unfold keepColumn
  rw [if_pos]
  rw [Bool.and_eq_true, Bool.not_eq_true', any_eq_false]
  exact ⟨(any_source_iff hd).mpr ⟨hkind, hst⟩, hfresh⟩

theorem subset_keepColumn (t : Symbol) (kept : List Symbol) (a : Symbol) :
    kept ⊆ r.keepColumn t kept a := by
  unfold keepColumn
  split
  · exact subset_append_left _ _
  · exact fun _ hb => hb

/-- Every attribute list that counts for a table is kept, or one equal to it. -/
theorem exists_mem_columnAttrs (ha : a ∈ attrs) (hd : r.Draws a s) (hkind : s.kind = .table)
    (hst : r.classes.same s t = true) :
    ∃ b ∈ r.columnAttrs t attrs, r.classes.same b a = true := by
  induction attrs using List.reverseRecOn with
  | nil => cases ha
  | append_singleton attrs last ih =>
    rw [columnAttrs_concat]
    rcases mem_append.mp ha with ha | ha
    · obtain ⟨b, hb, hsame⟩ := ih ha
      exact ⟨b, subset_keepColumn t _ _ hb, hsame⟩
    · obtain rfl := mem_singleton.mp ha
      -- The last one is kept itself unless an equal one was kept before.
      by_cases hkept : ∃ b ∈ r.columnAttrs t attrs, r.classes.same b a = true
      · obtain ⟨b, hb, hsame⟩ := hkept
        exact ⟨b, subset_keepColumn t _ _ hb, hsame⟩
      · rw [keepColumn_of_fresh hd hkind hst fun b hb hsame => hkept ⟨b, hb, hsame⟩]
        exact ⟨a, mem_append_right _ (mem_singleton_self a),
          r.classes.same_equivalence.refl a⟩

/-- What is kept was there, and it is drawn from a table. -/
theorem mem_of_mem_columnAttrs (hb : b ∈ r.columnAttrs t attrs) :
    b ∈ attrs ∧ ∃ s, r.Draws b s ∧ s.kind = .table := by
  induction attrs using List.reverseRecOn with
  | nil => cases hb
  | append_singleton attrs last ih =>
    rw [columnAttrs_concat, keepColumn] at hb
    split at hb
    · next hcond =>
      rcases mem_append.mp hb with hb | hb
      · exact ⟨mem_append_left _ (ih hb).1, (ih hb).2⟩
      · obtain rfl := mem_singleton.mp hb
        rw [Bool.and_eq_true] at hcond
        obtain ⟨s, hs, hkind⟩ := (Option.any_eq_true _ _).mp hcond.1
        rw [Bool.and_eq_true, decide_eq_true_eq] at hkind
        exact ⟨mem_append_right _ (mem_singleton_self b), s, hs, hkind.1⟩
    · exact ⟨mem_append_left _ (ih hb).1, (ih hb).2⟩

end Width

end Rule

namespace Instance

variable {inst : Instance} {r : Rule} {a b s t : Symbol}

/-! ## Columns of relations -/

/-- The columns of the relation of a table. -/
def relationColumns (inst : Instance) (table : Symbol) : List String :=
  (inst.tables.lookup table).elim [] fun i => inst.relations.getD i []

theorem getD_addColumn_self {i : Nat} (hi : i < inst.relations.length) :
    (inst.addColumn i).2.relations.getD i [] =
      inst.relations.getD i [] ++ [(inst.addColumn i).1] := by
  show (inst.relations.modify i (· ++ [_])).getD i [] = _
  rw [getD_eq_getElem?_getD, getD_eq_getElem?_getD, getElem?_modify,
    getElem?_eq_getElem hi]
  simp only [if_true]
  rfl

theorem getD_addColumn_of_ne {i j : Nat} (hij : i ≠ j) :
    (inst.addColumn i).2.relations.getD j [] = inst.relations.getD j [] := by
  show (inst.relations.modify i (· ++ [_])).getD j [] = _
  rw [getD_eq_getElem?_getD, getD_eq_getElem?_getD, getElem?_modify]
  simp only [if_neg hij, id_map']

/-- A new column takes none away. -/
theorem mem_getD_addColumn {i j : Nat} {c : String} (hc : c ∈ inst.relations.getD j []) :
    c ∈ (inst.addColumn i).2.relations.getD j [] := by
  by_cases hij : i = j
  · subst hij
    by_cases hi : i < inst.relations.length
    · rw [getD_addColumn_self hi]
      exact mem_append_left _ hc
    · rw [getD_eq_default _ _ (Nat.le_of_not_lt hi)] at hc
      cases hc
  · rwa [getD_addColumn_of_ne hij]

theorem length_relations_addColumn (i : Nat) :
    (inst.addColumn i).2.relations.length = inst.relations.length :=
  length_modify _ _ _

/-! ## The invariant of inventing -/

/-- What was invented for some tables and attribute lists of a rule. -/
structure Invents (r : Rule) (tables attrs : List Symbol) (inst : Instance) : Prop where
  rule : inst.rule = r
  classes : inst.classes = r.classes
  preds : inst.preds = []
  tableKeys : inst.tables.map Prod.fst = tables
  columnKeys : inst.columns.map Prod.fst = attrs
  bound : ∀ z ∈ inst.tables, z.2 < inst.relations.length
  /-- Tables have one relation exactly if they are equal. -/
  shared : ∀ z ∈ inst.tables, ∀ z' ∈ inst.tables, r.classes.same z.1 z'.1 = true ↔ z.2 = z'.2
  projected : ∀ z ∈ inst.columns, z.2 = none → ∃ s, r.Draws z.1 s ∧ s.kind = .attrs
  /-- The column of an attribute list is one of its table. -/
  owned : ∀ z ∈ inst.columns, ∀ c, z.2 = some c → ∃ t ∈ inst.tables, r.Draws z.1 t.1 ∧
    c ∈ inst.relations.getD t.2 []
  width : ∀ t ∈ inst.tables,
    (inst.relations.getD t.2 []).length = (r.columnAttrs t.1 attrs).length

theorem invents_ofRule (r : Rule) : (ofRule r).Invents r [] [] where
  rule := rfl
  classes := rfl
  preds := rfl
  tableKeys := rfl
  columnKeys := rfl
  bound _ hz := absurd hz not_mem_nil
  shared _ hz := absurd hz not_mem_nil
  projected _ hz := absurd hz not_mem_nil
  owned _ hz := absurd hz not_mem_nil
  width _ hz := absurd hz not_mem_nil

/-- A table gets the relation of the tables that are equal to it, and a new one only if there are
none. -/
theorem addTable_cases {tables : List Symbol} (h : inst.Invents r tables []) (t : Symbol) :
    ∃ i empty, inst.addTable t = { inst with
        tables := inst.tables ++ [(t, i)], relations := inst.relations ++ empty } ∧
      i < (inst.relations ++ empty).length ∧ (∀ cs ∈ empty, cs = []) ∧
      ∀ z ∈ inst.tables, r.classes.same z.1 t = true ↔ z.2 = i := by
  have hequiv := r.classes.same_equivalence
  unfold addTable
  split
  · next first i hfind =>
    have hmem := mem_of_find?_eq_some hfind
    have hsame : r.classes.same first t = true := by
      rw [← h.classes]
      exact find?_some (p := fun z : Symbol × Nat => inst.classes.same z.1 t) hfind
    refine ⟨i, [], by rw [append_nil], ?_, fun cs hcs => absurd hcs not_mem_nil, ?_⟩
    · rw [append_nil]
      exact h.bound _ hmem
    · intro z hz
      rw [← h.shared z hz _ hmem]
      exact ⟨fun hzt => hequiv.trans hzt (hequiv.symm hsame), fun hz' => hequiv.trans hz' hsame⟩
  · next hfind =>
    refine ⟨inst.relations.length, [[]], rfl, ?_, fun cs hcs => mem_singleton.mp hcs, ?_⟩
    · rw [length_append, length_singleton]
      exact Nat.lt_succ_self _
    · -- The number of the new relation is out of bounds for all tables so far.
      intro z hz
      have hne := find?_eq_none.mp hfind z hz
      rw [← h.classes]
      exact ⟨fun hzt => absurd hzt hne, fun hlen => absurd (h.bound z hz) (hlen ▸ Nat.lt_irrefl _)⟩

variable {relations : List (List String)}

/-- As long as tables are added, relations have no columns. -/
theorem invents_addTable {tables : List Symbol} (t : Symbol)
    (h : inst.Invents r tables [] ∧ ∀ cs ∈ inst.relations, cs = []) :
    (inst.addTable t).Invents r (tables ++ [t]) [] ∧
      ∀ cs ∈ (inst.addTable t).relations, cs = [] := by
  obtain ⟨h, hblank⟩ := h
  obtain ⟨i, empty, heq, hi, hempty, hlast⟩ := addTable_cases h t
  rw [heq]
  have hequiv := r.classes.same_equivalence
  -- No column was invented yet.
  have hnone : ∀ z, z ∉ inst.columns := by
    rw [map_eq_nil_iff.mp h.columnKeys]
    exact fun z => not_mem_nil
  have hblank' : ∀ cs ∈ inst.relations ++ empty, cs = [] := fun cs hcs =>
    (mem_append.mp hcs).elim (hblank cs) (hempty cs)
  refine ⟨⟨h.rule, h.classes, h.preds, ?_, h.columnKeys, ?_, ?_, fun z hz => absurd hz (hnone z),
    fun z hz => absurd hz (hnone z), fun z _ => ?_⟩, hblank'⟩
  · rw [map_append, h.tableKeys]
    rfl
  · intro z hz
    rcases mem_append.mp hz with hz | hz
    · have hlt := h.bound z hz
      rw [length_append]
      omega
    · rw [mem_singleton.mp hz]
      exact hi
  · refine forall_pairs_concat (fun z z' hiff => ?_) h.shared hlast
      ⟨fun _ => rfl, fun _ => hequiv.refl t⟩
    rw [eq_comm (b := z.2), ← hiff]
    exact ⟨hequiv.symm, hequiv.symm⟩
  · rw [getD_of_blank hblank']
    rfl

/-- First each table is given a relation, shared with the tables it is equal to. -/
theorem invents_tables (r : Rule) (tables : List Symbol) :
    (tables.foldl addTable (ofRule r)).Invents r tables [] := by
  suffices h : ∀ (rest done : List Symbol) (inst : Instance),
      (inst.Invents r done [] ∧ ∀ cs ∈ inst.relations, cs = []) →
      (rest.foldl addTable inst).Invents r (done ++ rest) [] from
    h tables [] (ofRule r) ⟨invents_ofRule r, fun cs hcs => absurd hcs not_mem_nil⟩
  intro rest
  induction rest with
  | nil =>
    intro done inst h
    rw [append_nil]
    exact h.1
  | cons t rest ih =>
    intro done inst h
    rw [append_cons]
    exact ih (done ++ [t]) _ (invents_addTable t h)

/-! ## Columns -/

section Columns

variable {tables attrs : List Symbol}

theorem Invents.kind_of_table (h : inst.Invents r (r.source.symbolsOf .table) attrs)
    {z : Symbol × Nat} (hz : z ∈ inst.tables) : z.1.kind = .table :=
  Template.kind_of_mem_symbolsOf (h.tableKeys ▸ mem_map_of_mem hz)

/-- A table that is drawn from has a relation. -/
theorem Invents.exists_table (h : inst.Invents r (r.source.symbolsOf .table) attrs)
    (hr : r.Grounded) (hd : r.Draws a s) (hkind : s.kind = .table) : ∃ i, (s, i) ∈ inst.tables := by
  have hmem : s ∈ inst.tables.map Prod.fst := by
    rw [h.tableKeys, ← hkind]
    exact hr.mem_of_draws hd
  obtain ⟨⟨_, i⟩, hi, rfl⟩ := mem_map.mp hmem
  exact ⟨i, hi⟩

/-- The columns of equal attribute lists are shared, and others are new ones of the relation of the
table. -/
theorem addAttrs_cases (hr : r.Grounded) (h : inst.Invents r (r.source.symbolsOf .table) attrs)
    (hd : r.Draws a s) :
    (s.kind = .attrs ∧ inst.addAttrs a = .ok { inst with columns := inst.columns ++ [(a, none)] }) ∨
    (s.kind = .table ∧ ∃ z ∈ inst.columns, ∃ c, z.2 = some c ∧ r.classes.same z.1 a = true ∧
      inst.addAttrs a = .ok { inst with columns := inst.columns ++ [(a, some c)] }) ∨
    (s.kind = .table ∧ (∀ z ∈ inst.columns, r.classes.same z.1 a = true → z.2 = none) ∧
      ∃ i, (s, i) ∈ inst.tables ∧ inst.addAttrs a = .ok { (inst.addColumn i).2 with
        columns := inst.columns ++ [(a, some (inst.addColumn i).1)] }) := by
  have hsource : inst.rule.sourceOf? a = some s := h.rule ▸ hd
  unfold addAttrs
  simp only [hsource]
  rcases hr.kind_cases hd with hkind | hkind
  · left
    rw [if_pos hkind]
    exact ⟨hkind, rfl⟩
  right
  rw [if_neg (by rw [hkind]; decide), h.classes]
  split
  · next c hfind =>
    left
    obtain ⟨z, hz, hc⟩ := exists_of_findSome?_eq_some hfind
    split at hc
    · next hsame => exact ⟨hkind, z, hz, c, hc, hsame, rfl⟩
    · cases hc
  · next hfind =>
    right
    -- No equal list has a column, so the table gets a new one.
    obtain ⟨i, hi⟩ := h.exists_table hr hd hkind
    have hlookup := hr.lookup_of_mem h.tableKeys hi
    refine ⟨hkind, fun z hz hsame => ?_, i, hi, ?_⟩
    · have hnone := findSome?_eq_none_iff.mp hfind z hz
      rwa [if_pos hsame] at hnone
    · simp only [hlookup]
      rfl

/-- One more attribute list, with or without a column of its own. -/
theorem Invents.concat (h : inst.Invents r tables attrs) (hd : r.Draws a s)
    {column : Option String} {next : Nat}
    (hlen : relations.length = inst.relations.length)
    (hgrow : ∀ i c, c ∈ inst.relations.getD i [] → c ∈ relations.getD i [])
    (hnone : column = none → s.kind = .attrs)
    (hsome : ∀ c, column = some c → ∃ t ∈ inst.tables, r.Draws a t.1 ∧ c ∈ relations.getD t.2 [])
    (hwidth : ∀ t ∈ inst.tables, (relations.getD t.2 []).length =
      (r.keepColumn t.1 (r.columnAttrs t.1 attrs) a).length) :
    Invents r tables (attrs ++ [a]) { inst with
      relations := relations, columns := inst.columns ++ [(a, column)], nextColumn := next } := by
  refine ⟨h.rule, h.classes, h.preds, h.tableKeys, ?_, fun t ht => hlen ▸ h.bound t ht, h.shared,
    ?_, ?_, fun t ht => ?_⟩
  · rw [map_append, h.columnKeys]
    rfl
  · intro z hz hz'
    rcases mem_append.mp hz with hz | hz
    · exact h.projected z hz hz'
    · rw [mem_singleton.mp hz] at hz' ⊢
      exact ⟨s, hd, hnone hz'⟩
  · intro z hz c hc
    rcases mem_append.mp hz with hz | hz
    · obtain ⟨t, ht, hdt, hct⟩ := h.owned z hz c hc
      exact ⟨t, ht, hdt, hgrow _ c hct⟩
    · rw [mem_singleton.mp hz] at hc ⊢
      exact hsome c hc
  · rw [Rule.columnAttrs_concat]
    exact hwidth t ht

/-- A new attribute list keeps the invariant. -/
theorem exists_addAttrs (hr : r.Grounded)
    (h : inst.Invents r (r.source.symbolsOf .table) attrs) (ha : a ∈ r.source.symbolsOf .attrs) :
    ∃ inst', inst.addAttrs a = .ok inst' ∧
      inst'.Invents r (r.source.symbolsOf .table) (attrs ++ [a]) := by
  obtain ⟨s, hd⟩ := hr.draws a ha
  have hequiv := r.classes.same_equivalence
  rcases addAttrs_cases hr h hd with ⟨hkind, heq⟩ | ⟨hkind, z, hz, c, hc, hsame, heq⟩ |
    ⟨hkind, hfresh, i, hi, heq⟩
  · refine ⟨_, heq,
      h.concat hd rfl (fun _ _ hc => hc) (fun _ => hkind) (fun c hc => by cases hc) ?_⟩
    intro t ht
    rw [Rule.keepColumn_of_not hd fun hs => by cases hkind.symm.trans hs.1]
    exact h.width t ht
  · -- The column is in the relation of an equal table, and that is the one relation of both.
    obtain ⟨t, ht, hdt, hct⟩ := h.owned z hz c hc
    have hst : r.classes.same t.1 s = true := hr.equal_draws hdt hd hsame
    obtain ⟨i, hi⟩ := h.exists_table hr hd hkind
    refine ⟨_, heq, h.concat hd rfl (fun _ _ hc => hc) (fun hnone => by cases hnone) ?_ ?_⟩
    · intro c' hc'
      cases hc'
      refine ⟨_, hi, hd, ?_⟩
      rwa [← (h.shared t ht _ hi).mp hst]
    · intro t' ht'
      rw [h.width t' ht']
      by_cases hst' : r.classes.same s t'.1 = true
      · -- The attribute list that the column is for is kept already.
        have hmem : z.1 ∈ attrs := h.columnKeys ▸ mem_map_of_mem hz
        obtain ⟨b, hb, hbz⟩ :=
          Rule.exists_mem_columnAttrs hmem hdt (h.kind_of_table ht) (hequiv.trans hst hst')
        rw [Rule.keepColumn_of_mem hb (hequiv.trans hbz hsame)]
      · rw [Rule.keepColumn_of_not hd fun hs => hst' hs.2]
  · refine ⟨_, heq, h.concat hd (length_relations_addColumn i) (fun _ _ => mem_getD_addColumn)
      (fun hnone => by cases hnone) ?_ ?_⟩
    · intro c' hc'
      cases hc'
      refine ⟨_, hi, hd, ?_⟩
      rw [getD_addColumn_self (h.bound _ hi)]
      exact mem_append_right _ mem_cons_self
    · intro t ht
      by_cases hst : r.classes.same s t.1 = true
      · -- Had an equal attribute list been kept, its column would have been found.
        have hnew : ∀ b ∈ r.columnAttrs t.1 attrs, ¬ r.classes.same b a = true := by
          intro b hb hsame
          obtain ⟨hmem, s', hs', hkind'⟩ := Rule.mem_of_mem_columnAttrs hb
          rw [← h.columnKeys] at hmem
          obtain ⟨z, hz, rfl⟩ := mem_map.mp hmem
          obtain ⟨s'', hs'', hkind''⟩ := h.projected z hz (hfresh z hz hsame)
          obtain rfl : s' = s'' := Option.some.inj (hs'.symm.trans hs'')
          cases hkind'.symm.trans hkind''
        have hindex : i = t.2 := (h.shared _ hi t ht).mp hst
        have hwidth := h.width t ht
        rw [← hindex] at hwidth ⊢
        rw [Rule.keepColumn_of_fresh hd hkind hst hnew, getD_addColumn_self (h.bound _ hi),
          length_append, length_append, hwidth]
        rfl
      · have hindex : i ≠ t.2 := fun hit => hst ((h.shared _ hi t ht).mpr hit)
        rw [Rule.keepColumn_of_not hd fun hs => hst hs.2, getD_addColumn_of_ne hindex]
        exact h.width t ht

/-- Columns are invented for one attribute list after another, and none of them fails. -/
theorem exists_addAll (hr : r.Grounded) :
    ∀ {rest done : List Symbol} {inst : Instance}, done ++ rest = r.source.symbolsOf .attrs →
      inst.Invents r (r.source.symbolsOf .table) done →
      ∃ inst', rest.foldlM addAttrs inst = .ok inst' ∧
        inst'.Invents r (r.source.symbolsOf .table) (done ++ rest) := by
  intro rest
  induction rest with
  | nil =>
    intro done inst _ h
    exact ⟨inst, rfl, by rwa [append_nil]⟩
  | cons a rest ih =>
    intro done inst hall h
    have ha : a ∈ r.source.symbolsOf .attrs := hall ▸ mem_append_right _ mem_cons_self
    obtain ⟨inst₁, hadd, h₁⟩ := exists_addAttrs hr h ha
    rw [append_cons] at hall ⊢
    obtain ⟨inst₂, hrest, h₂⟩ := ih hall h₁
    refine ⟨inst₂, ?_, h₂⟩
    rw [foldlM_cons, hadd]
    exact hrest

end Columns

/-! ## Predicates and the last column -/

/-- Every predicate gets a name, and nothing else changes. -/
theorem foldl_addPred (preds : List Symbol) : ∀ inst : Instance, ∃ names,
    preds.foldl addPred inst = { inst with preds := inst.preds ++ names } ∧
      names.map Prod.fst = preds := by
  induction preds with
  | nil => exact fun inst => ⟨[], by rw [append_nil]; rfl, rfl⟩
  | cons p preds ih =>
    intro inst
    obtain ⟨name, hname⟩ : ∃ name, inst.addPred p =
        { inst with preds := inst.preds ++ [(p, name)] } := ⟨_, rfl⟩
    obtain ⟨names, heq, hkeys⟩ := ih (inst.addPred p)
    refine ⟨(p, name) :: names, ?_, by rw [map_cons, hkeys]⟩
    rw [foldl_cons, heq, hname, append_assoc, singleton_append]

/-- The last columns: one more for every relation, and nothing else changes. -/
theorem foldl_addColumn (inst : Instance) : ∀ n ≤ inst.relations.length, ∃ relations next,
    (List.range n).foldl (fun inst i => (inst.addColumn i).2) inst =
        { inst with relations := relations, nextColumn := next } ∧
      relations.length = inst.relations.length ∧
      ∀ i, ∃ last, relations.getD i [] = inst.relations.getD i [] ++ last ∧
        last.length = if i < n then 1 else 0 := by
  intro n
  induction n with
  | zero =>
    intro _
    exact ⟨_, _, rfl, rfl, fun i => ⟨[], (append_nil _).symm, rfl⟩⟩
  | succ n ih =>
    intro hn
    obtain ⟨relations, next, heq, hlen, hlast⟩ := ih (Nat.le_of_succ_le hn)
    rw [range_succ, foldl_append, heq]
    set inst' : Instance := { inst with relations := relations, nextColumn := next } with hinst'
    refine ⟨(inst'.addColumn n).2.relations, _, rfl, (length_modify _ _ _).trans hlen,
      fun i => ?_⟩
    obtain ⟨last, hget, hlength⟩ := hlast i
    by_cases hi : n = i
    · subst hi
      -- Relation `n` had no last column so far.
      have hnil : last = [] := length_eq_zero_iff.mp (by rw [hlength, if_neg (Nat.lt_irrefl _)])
      refine ⟨[(inst'.addColumn n).1], ?_, by rw [if_pos (Nat.lt_succ_self _)]; rfl⟩
      rw [getD_addColumn_self (show n < relations.length by omega)]
      show relations.getD n [] ++ _ = _
      rw [hget, hnil, append_nil]
    · refine ⟨last, ?_, ?_⟩
      · rw [getD_addColumn_of_ne hi]
        exact hget
      · rw [hlength]
        congr 1
        exact propext (by omega)

/-! ## Finished inventions -/

/-- What a finished invention looks like. -/
structure Finished (r : Rule) (inst : Instance) : Prop where
  rule : inst.rule = r
  tableKeys : inst.tables.map Prod.fst = r.source.symbolsOf .table
  predKeys : inst.preds.map Prod.fst = r.source.symbolsOf .pred
  projected : ∀ {a s}, r.Draws a s → s.kind = .attrs → inst.columns.lookup a = some none
  owned : ∀ {a t}, r.Draws a t → t.kind = .table →
    ∃ c ∈ inst.relationColumns t, inst.columns.lookup a = some (some c)
  width : ∀ t ∈ r.source.symbolsOf .table, (inst.relationColumns t).length = r.width t

/-- Columns may be added to the relations at the end. -/
theorem Invents.finished (hr : r.Grounded)
    (h : inst.Invents r (r.source.symbolsOf .table) (r.source.symbolsOf .attrs))
    {next : Nat} {preds : List (Symbol × String)}
    (hpreds : preds.map Prod.fst = r.source.symbolsOf .pred)
    (hlast : ∀ t ∈ inst.tables, ∃ last,
      relations.getD t.2 [] = inst.relations.getD t.2 [] ++ last ∧ last.length = 1) :
    Finished r { inst with relations := relations, nextColumn := next, preds := preds } := by
  set inst' : Instance := { inst with relations := relations, nextColumn := next, preds := preds }
    with hinst'
  have hcolumn : ∀ {a s}, r.Draws a s → ∃ z ∈ inst.columns, z.1 = a := by
    intro a s hd
    have hmem : a ∈ inst.columns.map Prod.fst := h.columnKeys ▸ (hr.drawn hd).1
    exact mem_map.mp hmem
  have hunique : ∀ {a s s'}, r.Draws a s → r.Draws a s' → s = s' := fun hs hs' =>
    Option.some.inj (hs.symm.trans hs')
  -- Every relation ends with one more column.
  have hcolumns : ∀ t ∈ inst.tables, ∃ last,
      inst'.relationColumns t.1 = inst.relations.getD t.2 [] ++ last ∧ last.length = 1 := by
    intro t ht
    unfold relationColumns
    rw [show inst'.tables.lookup t.1 = some t.2 from hr.lookup_of_mem h.tableKeys ht]
    exact hlast t ht
  refine ⟨h.rule, h.tableKeys, hpreds, ?_, ?_, ?_⟩
  · intro a s hd hkind
    obtain ⟨⟨_, column⟩, hz, rfl⟩ := hcolumn hd
    cases column with
    | none => exact hr.lookup_of_mem h.columnKeys hz
    | some c =>
      obtain ⟨t, ht, hdt, -⟩ := h.owned _ hz c rfl
      rw [hunique hd hdt, h.kind_of_table ht] at hkind
      cases hkind
  · intro a t hd hkind
    obtain ⟨⟨_, column⟩, hz, rfl⟩ := hcolumn hd
    cases column with
    | none =>
      obtain ⟨s, hds, hs⟩ := h.projected _ hz rfl
      rw [hunique hd hds, hs] at hkind
      cases hkind
    | some c =>
      obtain ⟨t', ht', hdt, hc⟩ := h.owned _ hz c rfl
      obtain rfl := hunique hdt hd
      obtain ⟨last, hget, -⟩ := hcolumns t' ht'
      refine ⟨c, ?_, hr.lookup_of_mem h.columnKeys hz⟩
      rw [hget]
      exact mem_append_left _ hc
  · intro t ht
    rw [← h.tableKeys] at ht
    obtain ⟨z, hz, rfl⟩ := mem_map.mp ht
    obtain ⟨last, hget, hlen⟩ := hcolumns z hz
    rw [hget, length_append, hlen, h.width z hz]
    rfl

/-- **Inventing succeeds.** -/
theorem exists_invent (hr : r.Grounded) : ∃ inst, invent r = .ok inst ∧ inst.Finished r := by
  obtain ⟨inst, hattrs, h⟩ := exists_addAll hr (nil_append _) (invents_tables r _)
  rw [nil_append] at h
  obtain ⟨names, hnames, hkeys⟩ := foldl_addPred (r.source.symbolsOf .pred) inst
  rw [h.preds, nil_append] at hnames
  obtain ⟨relations, next, hcolumns, -, hlast⟩ :=
    foldl_addColumn { inst with preds := names } _ (Nat.le_refl _)
  refine ⟨{ inst with relations := relations, nextColumn := next, preds := names }, ?_,
    h.finished hr hkeys fun t ht => ?_⟩
  · unfold invent
    dsimp only
    rw [hattrs]
    show Except.ok _ = _
    rw [hnames, hcolumns]
  · obtain ⟨last, hget, hlen⟩ := hlast t.2
    exact ⟨last, hget, by rw [hlen, if_pos (h.bound t ht)]⟩

namespace Finished

variable (h : inst.Finished r) (hr : r.Grounded)
include h hr

theorem exists_relation (ht : t ∈ r.source.symbolsOf .table) :
    ∃ i, inst.tables.lookup t = some i ∧ inst.relationColumns t = inst.relations.getD i [] := by
  rw [← h.tableKeys] at ht
  obtain ⟨⟨_, i⟩, hi, rfl⟩ := mem_map.mp ht
  have hlookup := hr.lookup_of_mem h.tableKeys hi
  refine ⟨i, hlookup, ?_⟩
  unfold relationColumns
  rw [hlookup]
  rfl

theorem exists_pred {p : Symbol} (hp : p ∈ r.source.symbolsOf .pred) :
    ∃ name, inst.preds.lookup p = some name := by
  rw [← h.predKeys] at hp
  obtain ⟨⟨_, name⟩, hname, rfl⟩ := mem_map.mp hp
  exact ⟨name, hr.lookup_of_mem h.predKeys hname⟩

/-- Following sources ends at the table of the root. -/
theorem tableFrom_eq (first : Symbol) (hroot : r.Rooted a s t) :
    ∀ {bound}, a.id < bound → inst.tableFrom first bound a = .ok t := by
  obtain ⟨hchain, hdraws, hkind⟩ := hroot
  -- Sources have smaller numbers, so the bound that counts down does not run out first.
  induction hchain using Relation.ReflTransGen.head_induction_on with
  | refl =>
    intro bound hlt
    obtain ⟨bound, rfl⟩ := Nat.exists_eq_succ_of_ne_zero (Nat.ne_zero_of_lt hlt)
    rw [tableFrom, h.rule, show r.sourceOf? s = some t from hdraws]
    exact if_pos hkind
  | @head a b hd hrest ih =>
    intro bound hlt
    obtain ⟨bound, rfl⟩ := Nat.exists_eq_succ_of_ne_zero (Nat.ne_zero_of_lt hlt)
    have hb : b.kind = .attrs := hr.kind_of_rooted ⟨hrest, hdraws, hkind⟩
    have hid := hr.id_lt_of_draws hd
    rw [tableFrom, h.rule, show r.sourceOf? a = some b from hd]
    show (if b.kind = .table then _ else _) = _
    rw [if_neg (by rw [hb]; decide)]
    exact ih (by omega)

/-- Following sources ends at the column of the root. -/
theorem columnFrom_eq (first : Symbol) (hroot : r.Rooted a s t) {c : String}
    (hc : inst.columns.lookup s = some (some c)) :
    ∀ {bound}, a.id < bound → inst.columnFrom first bound a = .ok c := by
  obtain ⟨hchain, hdraws, hkind⟩ := hroot
  induction hchain using Relation.ReflTransGen.head_induction_on with
  | refl =>
    intro bound hlt
    obtain ⟨bound, rfl⟩ := Nat.exists_eq_succ_of_ne_zero (Nat.ne_zero_of_lt hlt)
    rw [columnFrom, hc]
  | @head a b hd hrest ih =>
    intro bound hlt
    obtain ⟨bound, rfl⟩ := Nat.exists_eq_succ_of_ne_zero (Nat.ne_zero_of_lt hlt)
    have hb : b.kind = .attrs := hr.kind_of_rooted ⟨hrest, hdraws, hkind⟩
    have hid := hr.id_lt_of_draws hd
    rw [columnFrom, h.projected hd hb, h.rule, show r.sourceOf? a = some b from hd]
    exact ih (by omega)

/-- A reference to an attribute list whose root is in a table that has an alias. -/
theorem columnRef_eq {attrs : Symbol} {aliases : List (Symbol × String)} {c aliasName : String}
    (hresolve : inst.resolve attrs = .ok a) (ha : a ∈ r.source.symbols) (hroot : r.Rooted a s t)
    (hc : inst.columns.lookup s = some (some c)) (halias : aliases.lookup t = some aliasName) :
    inst.columnRef attrs aliases = .ok (.column aliasName c) := by
  have hbound : a.id < inst.chainBound := by
    unfold chainBound
    rw [h.rule]
    exact Nat.lt_succ_of_lt (hr.source.id_lt ha)
  unfold columnRef columnOf tableOf
  rw [hresolve]
  simp only [bind, Except.bind]
  rw [h.columnFrom_eq hr attrs hroot hc hbound, h.tableFrom_eq hr attrs hroot hbound]
  simp only [halias]
  rfl

end Finished

end Instance

end QueryRules
