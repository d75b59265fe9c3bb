import Mathlib.Logic.Relation
import QueryRules.Proofs.CompleteChoices

/-!
# QueryRules — the search visits the well-formed assignments

What an assignment has to look like in order to be searched can be said without the search: sources
and copies are functions, copies respect sources, equalities are equivalence relations, and the
integrity constraints respect both. This module says so (`Catalog.WellFormed`) and proves that a dry
run visits exactly these assignments, each once.
-/

namespace QueryRules

open List Catalog

namespace Catalog

/-- What an assignment has to look like in order to be searched. -/
structure WellFormed (catalog : Catalog) (flags : Assignment) : Prop where
  length : flags.length = catalog.entries.length
  /-- Every attribute list of the source is drawn from exactly one symbol. -/
  draws : ∀ a ∈ catalog.source.symbolsOf .attrs, ∃! s, catalog.Draws flags a s
  /-- Every target symbol copies exactly one source symbol. -/
  copies : ∀ b ∈ catalog.target.symbols, ∃! a, catalog.Copies flags b a
  /-- Different tables copy different tables. -/
  injective : ∀ b ∈ catalog.target.symbolsOf .table, ∀ b' ∈ catalog.target.symbolsOf .table,
    ∀ a, catalog.Copies flags b a → catalog.Copies flags b' a → b = b'
  /-- What an attribute list copies comes from what one of its own possible sources copies. -/
  chained : ∀ b ∈ catalog.target.symbolsOf .attrs, ∀ a, catalog.Copies flags b a →
    ∃ v ∈ catalog.target.viableSources b, ∃ x, catalog.Copies flags v x ∧
      Relation.TransGen (catalog.Draws flags) a x
  /-- The equalities of each kind are an equivalence relation. -/
  equivalence : ∀ kind, Equivalence fun a b : { s // s ∈ catalog.source.symbolsOf kind } =>
    catalog.Equates flags a b
  /-- Equal attribute lists are drawn from equal symbols. -/
  equal_draws : ∀ a ∈ catalog.source.symbolsOf .attrs, ∀ b ∈ catalog.source.symbolsOf .attrs,
    catalog.Equates flags a b →
      ∀ x y, catalog.Draws flags a x → catalog.Draws flags b y → catalog.Equates flags x y
  /-- Integrity constraints that are chosen conform. -/
  conforms : ∀ e ∈ catalog.integrity, e ∈ catalog.chosen flags → catalog.Conforms flags e
  /-- Integrity constraints of one kind that conform and are about equal attribute lists are chosen
  together. -/
  alike : ∀ e ∈ catalog.integrity, ∀ e' ∈ catalog.integrity, e.kind = e'.kind →
    catalog.Conforms flags e → catalog.Conforms flags e' →
    (∀ x ∈ (Choice.columnsOf e).zip (Choice.columnsOf e'), catalog.Equates flags x.1.2 x.2.2) →
    (e ∈ catalog.chosen flags ↔ e' ∈ catalog.chosen flags)
  /-- References between equal attribute lists are chosen if they conform. -/
  trivial : ∀ table attrs refTable refAttrs,
    .reference table attrs refTable refAttrs ∈ catalog.integrity →
    catalog.Conforms flags (.reference table attrs refTable refAttrs) →
    catalog.Equates flags attrs refAttrs →
    .reference table attrs refTable refAttrs ∈ catalog.chosen flags

end Catalog

/-! ## Copies -/

/-- Following sources meets a wanted symbol exactly if a chain of sources leads to it, provided that
sources have smaller numbers, so that the bound suffices. -/
theorem Choice.reaches_iff {c : Choice} {wanted : List Symbol}
    (hdown : ∀ {a s}, c.source? a = some s → a.kind = .attrs ∧ s.id < a.id) :
    ∀ {bound a}, a.id < bound → (c.reaches wanted bound a = true ↔
      ∃ s ∈ wanted, Relation.TransGen (fun a s => c.source? a = some s) a s) := by
  intro bound
  induction bound with
  | zero => exact fun ha => absurd ha (Nat.not_lt_zero _)
  | succ bound ih =>
    intro a ha
    rw [Choice.reaches]
    cases hsource : c.source? a with
    | none =>
      refine ⟨fun h => absurd h Bool.false_ne_true, ?_⟩
      rintro ⟨s, -, hchain⟩
      obtain ⟨s', hs', -⟩ := Relation.TransGen.head'_iff.mp hchain
      cases hsource.symm.trans hs'
    | some s =>
      have hs := (hdown hsource).2
      -- A chain from `a` is a chain from its source, or ends there.
      have hchain : ∀ w, Relation.TransGen (fun a s => c.source? a = some s) a w ↔
          w = s ∨ Relation.TransGen (fun a s => c.source? a = some s) s w := by
        intro w
        rw [Relation.TransGen.head'_iff]
        constructor
        · rintro ⟨s', hs', hrest⟩
          obtain rfl : s = s' := Option.some.inj (hsource.symm.trans hs')
          exact Relation.reflTransGen_iff_eq_or_transGen.mp hrest
        · intro hrest
          exact ⟨s, hsource, Relation.reflTransGen_iff_eq_or_transGen.mpr hrest⟩
      simp only [hchain]
      by_cases hwanted : s ∈ wanted
      · simp only [hwanted, if_true, true_iff]
        exact ⟨s, hwanted, .inl rfl⟩
      by_cases hkind : s.kind = .attrs
      · simp only [hwanted, hkind, if_false, if_true]
        rw [ih (by omega)]
        constructor
        · rintro ⟨w, hw, hrest⟩
          exact ⟨w, hw, .inr hrest⟩
        · rintro ⟨w, hw, rfl | hrest⟩
          · exact absurd hw hwanted
          · exact ⟨w, hw, hrest⟩
      · simp only [hwanted, hkind, if_false, Bool.false_eq_true, false_iff]
        rintro ⟨w, hw, rfl | hrest⟩
        · exact hwanted hw
        · obtain ⟨s', hs', -⟩ := Relation.TransGen.head'_iff.mp hrest
          exact hkind (hdown hs').1

namespace Parts

variable {catalog : Catalog} {x y : Parts} {a b s : Symbol} {kind : SymbolKind} {e : Constraint}

/-- The order in which target symbols are copied: tables first, and attribute lists by their
numbers. -/
theorem pairwise_targets (h : catalog.WellBound) : catalog.targets.Pairwise fun u w =>
    (w.kind = .table → u.kind = .table) ∧
      (u.kind = .attrs → w.kind = .attrs → u.id < w.id) := by
  have hsorted : ∀ kind, (catalog.target.symbolsOf kind).Pairwise fun u w =>
      (w.kind = .table → u.kind = .table) ∧
        (u.kind = .attrs → w.kind = .attrs → u.id < w.id) := by
    intro kind
    refine (h.target.pairwise_lt.filter _).imp_of_mem fun {u w} hu hw hlt => ⟨fun htable => ?_,
      fun _ _ => hlt⟩
    rw [Template.kind_of_mem_symbolsOf hu, ← Template.kind_of_mem_symbolsOf hw]
    exact htable
  unfold targets
  rw [pairwise_append, pairwise_append]
  refine ⟨⟨hsorted _, hsorted _, fun u hu w hw => ?_⟩, hsorted _, fun u hu w hw => ?_⟩
  · rw [Template.kind_of_mem_symbolsOf hu, Template.kind_of_mem_symbolsOf hw]
    exact ⟨nofun, nofun⟩
  · rw [Template.kind_of_mem_symbolsOf hw]
    exact ⟨nofun, nofun⟩

/-- When an attribute list of the target is copied, its possible sources have been. -/
theorem mem_before (h : catalog.WellBound) {before after : List Symbol}
    (hsplit : catalog.targets = before ++ b :: after) (hb : b.kind = .attrs)
    (hs : s ∈ catalog.target.viableSources b) : s ∈ before := by
  obtain ⟨hmem, hpred⟩ := h.target.mem_of_mem_viableSources hs
  have hlt := h.target.id_lt_of_mem_viableSources hs
  have hin : s ∈ before ++ b :: after := hsplit ▸ mem_targets_of_mem hmem
  have hpair := pairwise_targets h
  rw [hsplit, pairwise_append] at hpair
  rcases mem_append.mp hin with hbefore | hrest
  · exact hbefore
  rcases mem_cons.mp hrest with rfl | hafter
  · exact absurd hlt (Nat.lt_irrefl _)
  -- A symbol after `b` is no table, and if it is an attribute list its number is larger.
  obtain ⟨htable, hattrs⟩ := (pairwise_cons.mp hpair.2.1).1 s hafter
  cases hkind : s.kind with
  | table => cases (htable hkind).symm.trans hb
  | attrs =>
    have := hattrs hb hkind
    omega
  | pred => exact absurd hkind hpred

section MayCopy

variable (h : catalog.WellBound) (hx : x.Fits catalog)

include h hx in
/-- The sources of the choice lead to symbols with smaller numbers. -/
theorem source?_down {c : Choice} (hc : c.sources = x.sources catalog)
    (hs : c.source? a = some s) : a.kind = .attrs ∧ s.id < a.id := by
  have hlookup : (x.choice catalog).source? a = some s := by
    unfold Choice.source? at hs ⊢
    rw [hc] at hs
    exact hs
  obtain ⟨ha, rfl⟩ := (source?_choice h).mp hlookup
  exact ⟨Template.kind_of_mem_symbolsOf ha,
    h.source.id_lt_of_mem_viableSources (hx.source a ha)⟩

include h in
/-- A table may be copied if no table before it copies the same. -/
theorem mayCopy_table {before after : List Symbol}
    (hsplit : catalog.targets = before ++ b :: after) (hb : b.kind = .table) :
    (⟨x.sources catalog, x.copies before, [], []⟩ : Choice).mayCopy catalog b (x.copied b) = true ↔
      ∀ b' ∈ before, x.copied b' ≠ x.copied b := by
  have hnodup := nodup_targets h
  rw [hsplit, nodup_append] at hnodup
  unfold Choice.mayCopy
  rw [hb]
  show (!(x.copies before).any _) = true ↔ _
  rw [Bool.not_eq_true', any_eq_false, copies, forall_mem_map]
  refine forall_congr' fun b' => imp_congr_right fun hb' => ?_
  have hne : b' ≠ b := hnodup.2.2 b' hb' b mem_cons_self
  simp [hne]

include h hx in
/-- An attribute list may be copied if its sources lead to what one of the possible sources of the
target symbol copies. -/
theorem mayCopy_attrs {before after : List Symbol}
    (hsplit : catalog.targets = before ++ b :: after) (hb : b.kind = .attrs) :
    (⟨x.sources catalog, x.copies before, [], []⟩ : Choice).mayCopy catalog b (x.copied b) = true ↔
      ∃ v ∈ catalog.target.viableSources b, Relation.TransGen
        (catalog.Draws (x.flags catalog)) (x.copied b) (x.copied v) := by
  have hbmem : b ∈ catalog.targets := hsplit ▸ mem_append_right _ mem_cons_self
  have hnodup : before.Nodup := by
    have hall := nodup_targets h
    rw [hsplit] at hall
    exact hall.of_append_left
  have hside : b.side = .target := h.target.numbers.sides b (mem_targets.mp hbmem)
  set c : Choice := ⟨x.sources catalog, x.copies before, [], []⟩
  have hdraws : (fun a s => c.source? a = some s) = catalog.Draws (x.flags catalog) := by
    funext a s
    exact propext ((source?_choice (x := x) h).trans (draws_iff h hx).symm)
  have hbound : (x.copied b).id < catalog.source.symbols.length :=
    h.source.id_lt (mem_of_mem_filter (hx.copied b hbmem))
  -- All that this list may draw from was copied before it.
  have hwanted : ∀ w, w ∈ (catalog.viableSources b).filterMap c.copied? ↔
      ∃ v ∈ catalog.target.viableSources b, x.copied v = w := by
    intro w
    unfold viableSources
    rw [hside, mem_filterMap]
    refine exists_congr fun v => and_congr_right fun hv => ?_
    show (x.copies before).lookup v = some w ↔ _
    rw [lookup_copies hnodup]
    exact and_iff_right (mem_before h hsplit hb hv)
  unfold Choice.mayCopy
  rw [hb]
  show c.reaches _ _ _ = true ↔ _
  rw [Choice.reaches_iff (fun hs => source?_down h hx rfl hs) hbound, hdraws]
  simp only [hwanted]
  constructor
  · rintro ⟨w, ⟨v, hv, rfl⟩, hchain⟩
    exact ⟨v, hv, hchain⟩
  · rintro ⟨v, hv, hchain⟩
    exact ⟨x.copied v, ⟨v, hv, rfl⟩, hchain⟩

end MayCopy

/-! ## Complete parts and well-formed assignments -/

section Complete

variable (h : catalog.WellBound) (hx : x.Fits catalog)

theorem mem_source (ha : a ∈ catalog.source.symbolsOf kind) : a ∈ catalog.source.symbols :=
  mem_of_mem_filter ha

include h hx in
/-- All copies may be made exactly if tables are copied injectively and attribute lists along their
sources. -/
theorem mayCopy_iff : (∀ before b after, catalog.targets = before ++ b :: after →
      (⟨x.sources catalog, x.copies before, [], []⟩ : Choice).mayCopy catalog b
        (x.copied b) = true) ↔
    (∀ b ∈ catalog.target.symbolsOf .table, ∀ b' ∈ catalog.target.symbolsOf .table,
      x.copied b = x.copied b' → b = b') ∧
    ∀ b ∈ catalog.target.symbolsOf .attrs, ∃ v ∈ catalog.target.viableSources b,
      Relation.TransGen (catalog.Draws (x.flags catalog)) (x.copied b) (x.copied v) := by
  constructor
  · intro hall
    refine ⟨fun b hb b' hb' heq => ?_, fun b hb => ?_⟩
    · -- Of two tables one is copied before the other.
      by_contra hne
      obtain ⟨before, after, hsplit⟩ := append_of_mem (mem_targets_of_mem hb)
      have hmem := mem_targets_of_mem hb'
      rw [hsplit, mem_append, mem_cons] at hmem
      rcases hmem with hbefore | rfl | hafter
      · exact (mayCopy_table h hsplit (Template.kind_of_mem_symbolsOf hb)).mp (hall _ _ _ hsplit)
          b' hbefore heq.symm
      · exact hne rfl
      · obtain ⟨mid, after', rfl⟩ := append_of_mem hafter
        have hsplit' : catalog.targets = (before ++ b :: mid) ++ b' :: after' := by
          rw [hsplit]
          simp
        exact (mayCopy_table h hsplit' (Template.kind_of_mem_symbolsOf hb')).mp
          (hall _ _ _ hsplit') b (mem_append_right _ mem_cons_self) heq
    · obtain ⟨before, after, hsplit⟩ := append_of_mem (mem_targets_of_mem hb)
      exact (mayCopy_attrs h hx hsplit (Template.kind_of_mem_symbolsOf hb)).mp (hall _ _ _ hsplit)
  · rintro ⟨hinj, hchain⟩ before b after hsplit
    have hbmem : b ∈ catalog.targets := hsplit ▸ mem_append_right _ mem_cons_self
    have hbkind : ∀ {kind}, b.kind = kind → b ∈ catalog.target.symbolsOf kind := fun {_} heq =>
      mem_filter.mpr ⟨mem_targets.mp hbmem, decide_eq_true heq⟩
    cases hb : b.kind with
    | table =>
      rw [mayCopy_table h hsplit hb]
      intro b' hb' heq
      -- Only tables stand before a table.
      have hpair := pairwise_targets h
      have hnodup := nodup_targets h
      rw [hsplit, pairwise_append] at hpair
      rw [hsplit, nodup_append] at hnodup
      have htable := (hpair.2.2 b' hb' b mem_cons_self).1 hb
      have hbmem' : b' ∈ catalog.targets := hsplit ▸ mem_append_left _ hb'
      have heq' := hinj b' (mem_filter.mpr ⟨mem_targets.mp hbmem', decide_eq_true htable⟩) b
        (hbkind hb) heq
      exact hnodup.2.2 b' hb' b mem_cons_self heq'
    | attrs => exact (mayCopy_attrs h hx hsplit hb).mpr (hchain b (hbkind hb))
    | pred =>
      unfold Choice.mayCopy
      rw [hb]

include h in
/-- There is no conflict exactly if equal attribute lists are drawn from equal symbols. -/
theorem free_iff : (x.choice catalog).hasConflict
      (pairs (catalog.source.symbolsOf .attrs)) = false ↔
    ∀ a ∈ catalog.source.symbolsOf .attrs, ∀ b ∈ catalog.source.symbolsOf .attrs,
      (x.choice catalog).isEq a b = true →
        (x.choice catalog).isEq (x.source a) (x.source b) = true := by
  have hsources : ∀ {a b}, a ∈ catalog.source.symbolsOf .attrs →
      b ∈ catalog.source.symbolsOf .attrs →
      (x.choice catalog).sourcesEq a b =
        (x.choice catalog).isEq (x.source a) (x.source b) := by
    intro a b ha hb
    unfold Choice.sourcesEq
    rw [(source?_choice h).mpr ⟨ha, rfl⟩, (source?_choice h).mpr ⟨hb, rfl⟩]
  have hpair : ∀ {a b}, (a, b) ∈ pairs (catalog.source.symbolsOf .attrs) →
      a ∈ catalog.source.symbolsOf .attrs ∧ b ∈ catalog.source.symbolsOf .attrs := by
    intro a b hab
    have hsub := mem_pairs_iff.mp hab
    exact ⟨hsub.subset mem_cons_self,
      hsub.subset (mem_cons_of_mem _ mem_cons_self)⟩
  unfold Choice.hasConflict
  rw [any_eq_false]
  constructor
  · intro hfree a ha b hb heq
    -- The catalog has each pair in one order.
    have hone : ∀ {a b}, (a, b) ∈ pairs (catalog.source.symbolsOf .attrs) →
        (x.choice catalog).isEq a b = true →
        (x.choice catalog).isEq (x.source a) (x.source b) = true := by
      intro a b hab heq
      have hnot := hfree (a, b) hab
      dsimp only at hnot
      rw [heq, Bool.true_and, hsources (hpair hab).1 (hpair hab).2] at hnot
      simpa using hnot
    by_cases hab : a = b
    · subst hab
      exact Choice.isEq_refl _ _
    rcases mem_pairs ha hb hab with hmem | hmem
    · exact hone hmem heq
    · rw [Choice.isEq_comm] at heq ⊢
      exact hone hmem heq
  · rintro hall ⟨a, b⟩ hab hboth
    dsimp only at hboth
    rw [Bool.and_eq_true, hsources (hpair hab).1 (hpair hab).2] at hboth
    rw [hall a (hpair hab).1 b (hpair hab).2 hboth.1] at hboth
    cases hboth.2

include h hx in
/-- Among constraints that conform, being alike is to be about equal attribute lists. -/
theorem alike_iff {e e' : Constraint} (he : catalog.Conforms (x.flags catalog) e)
    (he' : catalog.Conforms (x.flags catalog) e') :
    (x.choice catalog).alike e e' = true ↔
      ∀ z ∈ (Choice.columnsOf e).zip (Choice.columnsOf e'),
        catalog.Equates (x.flags catalog) z.1.2 z.2.2 := by
  unfold Choice.alike
  rw [all_eq_true]
  refine forall_congr' fun z => imp_congr_right fun hz => ?_
  obtain ⟨h₁, h₂⟩ := of_mem_zip hz
  have ha := ((draws_iff h hx).mp (he _ h₁)).1
  have hb := ((draws_iff h hx).mp (he' _ h₂)).1
  exact (equates_iff h (mem_source ha) (mem_source hb)).symm

/-- Decisions on the constraints of one kind, as a list. -/
theorem mem_decisions {ckind : ConstraintKind} {z : Constraint × Bool} :
    z ∈ (x.decisions catalog.integrity).filter (fun z => z.1.kind = ckind) ↔
      z.1 ∈ catalog.integrity ∧ z.2 = x.flag z.1 ∧ z.1.kind = ckind := by
  unfold decisions
  rw [mem_filter, mem_map, decide_eq_true_eq]
  constructor
  · rintro ⟨⟨e, he, rfl⟩, hkind⟩
    exact ⟨he, rfl, hkind⟩
  · rintro ⟨he, hflag, hkind⟩
    exact ⟨⟨z.1, he, by rw [← hflag]⟩, hkind⟩

include h hx in
/-- Decisions agree exactly if what is on conforms, constraints about equal attribute lists have the
same flag, and trivial references are on. -/
theorem agrees_iff : (∀ ckind, (x.choice catalog).Agrees ckind
      ((x.decisions catalog.integrity).filter fun z => z.1.kind = ckind)) ↔
    (∀ e ∈ catalog.integrity, x.flag e = true → catalog.Conforms (x.flags catalog) e) ∧
    (∀ e ∈ catalog.integrity, ∀ e' ∈ catalog.integrity, e.kind = e'.kind →
      catalog.Conforms (x.flags catalog) e → catalog.Conforms (x.flags catalog) e' →
      (∀ z ∈ (Choice.columnsOf e).zip (Choice.columnsOf e'),
        catalog.Equates (x.flags catalog) z.1.2 z.2.2) → x.flag e = x.flag e') ∧
    ∀ table attrs refTable refAttrs,
      .reference table attrs refTable refAttrs ∈ catalog.integrity →
      catalog.Conforms (x.flags catalog) (.reference table attrs refTable refAttrs) →
      catalog.Equates (x.flags catalog) attrs refAttrs →
      x.flag (.reference table attrs refTable refAttrs) = true := by
  -- What a reference that conforms is about are attribute lists of the source.
  have hreference : ∀ {table attrs refTable refAttrs},
      catalog.Conforms (x.flags catalog) (.reference table attrs refTable refAttrs) →
      (catalog.Equates (x.flags catalog) attrs refAttrs ↔
        (x.choice catalog).isTrivialReference (.reference table attrs refTable refAttrs) =
          true) := by
    intro table attrs refTable refAttrs hconf
    have ha := ((draws_iff h hx).mp (hconf (table, attrs) mem_cons_self)).1
    have hb := ((draws_iff h hx).mp (hconf (refTable, refAttrs)
      (mem_cons_of_mem _ mem_cons_self))).1
    exact equates_iff h (mem_source ha) (mem_source hb)
  constructor
  · intro hall
    refine ⟨fun e he hon => ?_, fun e he e' he' hkind hconf hconf' halike => ?_, ?_⟩
    · exact (conforms_iff h hx).mpr
        ((hall e.kind).conforms (e, x.flag e) (mem_decisions.mpr ⟨he, rfl, rfl⟩) hon)
    · exact (hall e.kind).alike (e, x.flag e) (mem_decisions.mpr ⟨he, rfl, rfl⟩) (e', x.flag e')
        (mem_decisions.mpr ⟨he', rfl, hkind.symm⟩) ((conforms_iff h hx).mp hconf)
        ((conforms_iff h hx).mp hconf') ((alike_iff h hx hconf hconf').mpr halike)
    · intro table attrs refTable refAttrs he hconf heq
      exact (hall .reference).trivial (.reference table attrs refTable refAttrs, _)
        (mem_decisions.mpr ⟨he, rfl, rfl⟩) ((conforms_iff h hx).mp hconf)
        ((hreference hconf).mp heq)
  · rintro ⟨hconforms, halike, htrivial⟩ ckind
    refine ⟨fun z hz => (mem_decisions.mp hz).2.2, fun z hz hon => ?_,
      fun z hz z' hz' hconf hconf' hsame => ?_, fun z hz hconf htriv => ?_⟩
    · obtain ⟨he, hflag, -⟩ := mem_decisions.mp hz
      exact (conforms_iff h hx).mp (hconforms z.1 he (hflag ▸ hon))
    · obtain ⟨he, hflag, hkind⟩ := mem_decisions.mp hz
      obtain ⟨he', hflag', hkind'⟩ := mem_decisions.mp hz'
      have hc := (conforms_iff h hx).mpr hconf
      have hc' := (conforms_iff h hx).mpr hconf'
      rw [hflag, hflag']
      exact halike z.1 he z'.1 he' (hkind.trans hkind'.symm) hc hc'
        ((alike_iff h hx hc hc').mp hsame)
    · obtain ⟨he, hflag, -⟩ := mem_decisions.mp hz
      obtain ⟨e, flag⟩ := z
      have hc := (conforms_iff h hx).mpr hconf
      cases e with
      | reference table attrs refTable refAttrs =>
        exact hflag.trans (htrivial _ _ _ _ he hc ((hreference hc).mpr htriv))
      | _ => cases htriv

include h hx in
/-- **Parts that fit are complete exactly if their assignment is well-formed.** -/
theorem isComplete_iff : x.IsComplete catalog ↔ catalog.WellFormed (x.flags catalog) := by
  -- Copies are the hard case: the search looks only at what was copied before. That this is
  -- enough is due to the order of the symbols.
  have hsource : ∀ {a}, a ∈ catalog.source.symbolsOf .attrs →
      x.source a ∈ catalog.source.symbols := fun {a} ha =>
    mem_source (h.source.mem_of_mem_viableSources (hx.source a ha)).1
  constructor
  · rintro ⟨hcopy, hfree, hagrees⟩
    obtain ⟨hinj, hchain⟩ := (mayCopy_iff h hx).mp hcopy
    obtain ⟨hconforms, halike, htrivial⟩ := (agrees_iff h hx).mp hagrees
    have hfree := (free_iff h).mp hfree
    refine ⟨length_map _, fun a ha => ?_, fun b hb => ?_, fun b hb b' hb' a hba hba' => ?_,
      fun b hb a hba => ?_, fun kind => ?_, fun a ha b hb heq u v hu hv => ?_,
      fun e he hon => hconforms e he ((chosen_iff he).mp hon),
      fun e he e' he' hkind hconf hconf' hsame => ?_,
      fun table attrs refTable refAttrs he hconf heq => ?_⟩
    · refine ⟨x.source a, (draws_iff h hx).mpr ⟨ha, rfl⟩, fun s hs => ?_⟩
      exact ((draws_iff h hx).mp hs).2.symm
    · have hb := mem_targets.mpr hb
      exact ⟨x.copied b, (copies_iff h hx hb).mpr rfl, fun a ha =>
        ((copies_iff h hx hb).mp ha).symm⟩
    · rw [copies_iff h hx (mem_targets_of_mem hb)] at hba
      rw [copies_iff h hx (mem_targets_of_mem hb')] at hba'
      exact hinj b hb b' hb' (hba.trans hba'.symm)
    · obtain rfl := (copies_iff h hx (mem_targets_of_mem hb)).mp hba
      obtain ⟨v, hv, hsteps⟩ := hchain b hb
      have hvmem := mem_targets_of_mem (h.target.mem_of_mem_viableSources hv).1
      exact ⟨v, hv, x.copied v, (copies_iff h hx hvmem).mpr rfl, hsteps⟩
    · have hiff : ∀ a b : { s // s ∈ catalog.source.symbolsOf kind },
          catalog.Equates (x.flags catalog) a b ↔ (x.choice catalog).isEq a b = true :=
        fun a b => equates_iff h (mem_source a.2) (mem_source b.2)
      refine ⟨fun a => .inl rfl, fun {a b} hab => ?_, fun {a b c} hab hbc => ?_⟩
      · rw [hiff] at hab ⊢
        rwa [Choice.isEq_comm]
      · rw [hiff] at hab hbc ⊢
        exact Choice.isEq_trans hab hbc
    · obtain rfl := ((draws_iff h hx).mp hu).2
      obtain rfl := ((draws_iff h hx).mp hv).2
      rw [equates_iff h (mem_source ha) (mem_source hb)] at heq
      exact (equates_iff h (hsource ha) (hsource hb)).mpr (hfree a ha b hb heq)
    · rw [chosen_iff he, chosen_iff he', halike e he e' he' hkind hconf hconf' hsame]
    · exact (chosen_iff he).mpr (htrivial _ _ _ _ he hconf heq)
  · intro hw
    refine ⟨(mayCopy_iff h hx).mpr ⟨fun b hb b' hb' heq => ?_, fun b hb => ?_⟩,
      (free_iff h).mpr fun a ha b hb heq => ?_,
      (agrees_iff h hx).mpr ⟨fun e he hon => hw.conforms e he ((chosen_iff he).mpr hon),
        fun e he e' he' hkind hconf hconf' hsame => ?_, fun _ _ _ _ he hconf heq =>
          (chosen_iff he).mp (hw.trivial _ _ _ _ he hconf heq)⟩⟩
    · refine hw.injective b hb b' hb' (x.copied b) ?_ ?_
      · exact (copies_iff h hx (mem_targets_of_mem hb)).mpr rfl
      · exact (copies_iff h hx (mem_targets_of_mem hb')).mpr heq.symm
    · obtain ⟨v, hv, w, hvw, hsteps⟩ :=
        hw.chained b hb _ ((copies_iff h hx (mem_targets_of_mem hb)).mpr rfl)
      have hvmem := mem_targets_of_mem (h.target.mem_of_mem_viableSources hv).1
      obtain rfl := (copies_iff h hx hvmem).mp hvw
      exact ⟨v, hv, hsteps⟩
    · rw [← equates_iff h (mem_source ha) (mem_source hb)] at heq
      rw [← equates_iff h (hsource ha) (hsource hb)]
      exact hw.equal_draws a ha b hb heq _ _ ((draws_iff h hx).mpr ⟨ha, rfl⟩)
        ((draws_iff h hx).mpr ⟨hb, rfl⟩)
    · have hiff := hw.alike e he e' he' hkind hconf hconf' hsame
      rw [chosen_iff he, chosen_iff he'] at hiff
      exact Bool.eq_iff_iff.mpr hiff

/-! ## One choice for each assignment -/

include h hx in
/-- The partition of a kind is known from what is equal. -/
theorem matches_blocks (kind : SymbolKind) : Partition.Matches (catalog.Equates (x.flags catalog))
    ((catalog.source.symbolsOf kind).zip (x.partition kind)) := by
  have hsymbol : ∀ {u : Symbol × Nat}, u ∈ x.blocks catalog kind →
      u.1 ∈ catalog.source.symbols ∧ u.1.kind = kind := fun {u} hu =>
    ⟨mem_source (of_mem_zip hu).1, kind_of_mem_blocks hu⟩
  have hkeys : ((x.blocks catalog kind).map Prod.fst).Nodup := by
    rw [map_fst_blocks hx]
    exact h.source.nodup_symbolsOf kind
  rintro ⟨a, i⟩ hu ⟨b, j⟩ hv
  rw [equates_iff h (hsymbol hu).1 (hsymbol hv).1, isEq_choice h hx (hsymbol hu).1,
    (hsymbol hu).2]
  constructor
  · rintro rfl
    exact ⟨i, hu, hv⟩
  · rintro ⟨m, ham, hbm⟩
    -- A symbol has one block only.
    have huniq : ∀ {d k}, (d, k) ∈ x.blocks catalog kind → (d, m) ∈ x.blocks catalog kind →
        k = m := by
      intro d k hk hm
      rw [← lookup_eq_some_iff_mem hkeys] at hk hm
      exact Option.some.inj (hk.symm.trans hm)
    exact (huniq hu ham).trans (huniq hv hbm).symm

include h hx in
/-- Different choices have different assignments. -/
theorem choice_inj (hy : y.Fits catalog) (heq : x.flags catalog = y.flags catalog) :
    x.choice catalog = y.choice catalog := by
  have hsource : x.sources catalog = y.sources catalog := by
    refine map_congr_left fun a ha => ?_
    have hdraws := (draws_iff h hx).mpr ⟨ha, rfl⟩
    rw [heq, draws_iff h hy] at hdraws
    rw [hdraws.2]
  have hcopies : x.copies catalog.targets = y.copies catalog.targets := by
    refine map_congr_left fun b hb => ?_
    have hcopy := (copies_iff h hx hb).mpr rfl
    rw [heq, copies_iff h hy hb] at hcopy
    rw [hcopy]
  have hgroups : x.groups SymbolKind.all = y.groups SymbolKind.all := by
    refine map_congr_left fun kind _ => ?_
    have hmatches := matches_blocks h hx kind
    rw [heq] at hmatches
    rw [Partition.eq_of_matches (hx.partition kind) (hy.partition kind) hmatches
      (matches_blocks h hy kind)]
  have hflags : catalog.integrity.map x.flag = catalog.integrity.map y.flag := by
    refine map_congr_left fun e he => ?_
    rw [Bool.eq_iff_iff, ← chosen_iff he, ← chosen_iff he, heq]
  unfold choice
  rw [hsource, hcopies, hgroups, hflags]

end Complete

end Parts

namespace Catalog

variable {catalog : Catalog} {flags : Assignment}

/-- **A well-formed assignment is the one of some parts.** Sources and copies are the unique ones
that are chosen, and the partitions come from the equivalence relations. -/
theorem exists_parts (h : catalog.WellBound) (hw : catalog.WellFormed flags) :
    ∃ x : Parts, x.Fits catalog ∧ x.flags catalog = flags := by
  have hsource : ∀ a, ∃ s, a ∈ catalog.source.symbolsOf .attrs →
      catalog.Draws flags a s ∧ ∀ s', catalog.Draws flags a s' → s' = s := by
    intro a
    by_cases ha : a ∈ catalog.source.symbolsOf .attrs
    · obtain ⟨s, hs, huniq⟩ := hw.draws a ha
      exact ⟨s, fun _ => ⟨hs, huniq⟩⟩
    · exact ⟨a, fun ha' => absurd ha' ha⟩
  have hcopied : ∀ b, ∃ a, b ∈ catalog.target.symbols →
      catalog.Copies flags b a ∧ ∀ a', catalog.Copies flags b a' → a' = a := by
    intro b
    by_cases hb : b ∈ catalog.target.symbols
    · obtain ⟨a, ha, huniq⟩ := hw.copies b hb
      exact ⟨a, fun _ => ⟨ha, huniq⟩⟩
    · exact ⟨b, fun hb' => absurd hb' hb⟩
  have hpartition : ∀ kind, ∃ p ∈ Partition.all (catalog.source.symbolsOf kind).length,
      Partition.Matches (catalog.Equates flags) ((catalog.source.symbolsOf kind).zip p) := by
    intro kind
    set symbols := catalog.source.symbolsOf kind
    obtain ⟨p, hp, hmatches⟩ := Partition.exists_mem_all (hw.equivalence kind) symbols.attach
    rw [length_attach] at hp
    have hzip : symbols.zip p = (symbols.attach.zip p).map fun u => (u.1.1, u.2) := by
      conv_lhs => rw [← attach_map_subtype_val symbols, zip_map_left]
      rfl
    refine ⟨p, hp, ?_⟩
    rw [hzip]
    intro u hu v hv
    obtain ⟨u', hu', rfl⟩ := mem_map.mp hu
    obtain ⟨v', hv', rfl⟩ := mem_map.mp hv
    exact hmatches u' hu' v' hv'
  choose source hsource using hsource
  choose copied hcopied using hcopied
  choose partition hpartition hmatches using hpartition
  set x : Parts := ⟨source, copied, partition, fun e => decide (e ∈ catalog.chosen flags)⟩
  have hfits : x.Fits catalog := by
    refine ⟨fun a ha => mem_viableSources_of_draws (hsource a ha).1, fun b hb => ?_, hpartition⟩
    have hb := Parts.mem_targets.mp hb
    exact mem_symbolsOf_of_copies h hb (hcopied b hb).1
  refine ⟨x, hfits, ?_⟩
  -- Both assignments are compared constraint by constraint.
  rw [eq_map_chosen h hw.length]
  refine map_congr_left fun e he => ?_
  have hentries := he
  rw [entries_eq, mem_append] at he
  rcases he with hstruct | hintegrity
  · rw [Bool.eq_iff_iff, decide_eq_true_eq]
    have hon : e ∈ catalog.chosen (x.flags catalog) ↔ x.on catalog e = true :=
      Parts.mem_chosen_flags.trans (and_iff_right hentries)
    rw [← hon]
    rcases mem_structural.mp hstruct with ⟨a, ha, s, -, rfl⟩ | ⟨kind, a, b, hpair, rfl⟩ |
      ⟨kind, b, hb, a, -, rfl⟩
    · refine (Parts.draws_iff h hfits).trans ((and_iff_right ha).trans ?_)
      exact ⟨fun heq => heq ▸ (hsource a ha).1, fun hs => ((hsource a ha).2 s hs).symm⟩
    · have hsub := mem_pairs_iff.mp hpair
      have ha := hsub.subset mem_cons_self
      have hb := hsub.subset (mem_cons_of_mem _ mem_cons_self)
      have hakind : a.kind = kind := Template.kind_of_mem_symbolsOf ha
      rw [Parts.on_pair h hpair, Parts.isEq_choice h hfits (Parts.mem_source ha), hakind]
      constructor
      · rintro ⟨i, hai, hbi⟩
        have heq : catalog.Equates flags a b := (hmatches kind _ hai _ hbi).mp rfl
        rcases heq with heq | hab | hba
        · exact absurd heq (ne_of_mem_pairs (h.source.nodup_symbolsOf kind) hpair)
        · rwa [hakind] at hab
        · -- The catalog has the pair in one order only.
          rw [hakind] at hba
          exact absurd (mem_entries_of_mem_chosen hba) (not_mem_entries_swap h hpair)
      · intro hab
        obtain ⟨i, hi⟩ := Parts.exists_block hfits (Parts.mem_source ha)
        obtain ⟨j, hj⟩ := Parts.exists_block hfits (Parts.mem_source hb)
        have hbkind : b.kind = kind := Template.kind_of_mem_symbolsOf hb
        rw [hakind] at hi
        rw [hbkind] at hj
        have hij : i = j := (hmatches kind _ hi _ hj).mpr (.inr (.inl (by rwa [hakind])))
        exact ⟨i, hi, hij ▸ hj⟩
    · have hbkind : b.kind = kind := Template.kind_of_mem_symbolsOf hb
      have hb' : b ∈ catalog.target.symbols := mem_of_mem_filter hb
      subst hbkind
      refine (Parts.copies_iff h hfits (Parts.mem_targets.mpr hb')).trans ?_
      exact ⟨fun heq => heq ▸ (hcopied b hb').1, fun ha => ((hcopied b hb').2 a ha).symm⟩
  · exact Parts.on_integrity hintegrity

end Catalog

/-- **The search visits exactly the well-formed assignments, each once.** Between two templates that
were read, with both checks left out and without a time limit, the search ends without an error; the
assignments of the complete choices that it answers are all different, and they are the well-formed
ones. -/
theorem TemplatePair.search_visits_wellFormed (p : TemplatePair) {catalog : Catalog}
    (hread : p.catalog = .ok catalog) (settings : Settings) (oracle : Oracle) (clock : Nat → Nat)
    (houtput : settings.skipOutputCheck = true) (htable : settings.skipTableCheck = true)
    (htime : settings.timeout = none) :
    (∃ outcome, (catalog.search settings oracle clock).result = .ok outcome) ∧
      ((catalog.search settings oracle clock).final.answered.map fun x =>
        (SearchTask.ofCatalog catalog settings oracle clock).flags x.1 false).Nodup ∧
      ∀ flags, (flags ∈ (catalog.search settings oracle clock).final.answered.map fun x =>
          (SearchTask.ofCatalog catalog settings oracle clock).flags x.1 false) ↔
        catalog.WellFormed flags := by
  have h := p.wellBound hread
  obtain ⟨a, s, -, hends, hanswered⟩ :=
    Search.explore_visits oracle clock h houtput htable htime .initial
  set t := SearchTask.ofCatalog catalog settings oracle clock
  have hvisited : s.answered.map (fun x => t.flags x.1 false) =
      catalog.completeChoices.map fun c => t.flags c false := by
    rw [hanswered]
    show (catalog.completeChoices.map _).map _ = _
    rw [map_map]
    rfl
  rw [search_of_ends hends, hvisited]
  refine ⟨⟨_, rfl⟩, ?_, fun flags => ?_⟩
  · refine (nodup_completeChoices h).map_on fun c hc d hd heq => ?_
    obtain ⟨x, hx, -, rfl⟩ := (mem_completeChoices h).mp hc
    obtain ⟨y, hy, -, rfl⟩ := (mem_completeChoices h).mp hd
    rw [Parts.flags_eq, Parts.flags_eq] at heq
    exact Parts.choice_inj h hx hy heq
  · rw [mem_map]
    constructor
    · rintro ⟨c, hc, rfl⟩
      obtain ⟨x, hx, hcomplete, rfl⟩ := (mem_completeChoices h).mp hc
      rw [Parts.flags_eq]
      exact (Parts.isComplete_iff h hx).mp hcomplete
    · intro hw
      obtain ⟨x, hx, rfl⟩ := exists_parts h hw
      refine ⟨x.choice catalog, (mem_completeChoices h).mpr ⟨x, hx, ?_, rfl⟩,
        Parts.flags_eq settings oracle clock⟩
      exact (Parts.isComplete_iff h hx).mpr hw

/-- A projection of a projection against a single one. Of the 256 assignments 8 are well-formed: the
attribute lists of the source are drawn from different symbols, so they cannot be equal. -/
theorem TemplatePair.search_visits_wellFormed_nested :
    ∃ catalog, (⟨"Proj<a1>(Proj<a0>(Input<t0>))", "Proj<a2>(Input<t1>)"⟩ :
        TemplatePair).catalog = .ok catalog ∧ catalog.entries.length = 8 ∧
      (catalog.search { skipOutputCheck := true, skipTableCheck := true } Oracle.strict
        id).final.answered.length = 8 ∧
      (∃ outcome, (catalog.search { skipOutputCheck := true, skipTableCheck := true } Oracle.strict
        id).result = .ok outcome) ∧
      ((catalog.search { skipOutputCheck := true, skipTableCheck := true } Oracle.strict
        id).final.answered.map fun x => (SearchTask.ofCatalog catalog
          { skipOutputCheck := true, skipTableCheck := true } Oracle.strict id).flags x.1
            false).Nodup ∧
      ∀ flags, (flags ∈ (catalog.search { skipOutputCheck := true, skipTableCheck := true }
          Oracle.strict id).final.answered.map fun x => (SearchTask.ofCatalog catalog
            { skipOutputCheck := true, skipTableCheck := true } Oracle.strict id).flags x.1
              false) ↔ catalog.WellFormed flags := by
  have hcount : ((⟨"Proj<a1>(Proj<a0>(Input<t0>))", "Proj<a2>(Input<t1>)"⟩ :
      TemplatePair).catalog.toOption.any fun catalog => catalog.entries.length == 8 &&
        (catalog.search { skipOutputCheck := true, skipTableCheck := true } Oracle.strict
          id).final.answered.length == 8) = true := by
    decide +kernel
  cases hread : (⟨"Proj<a1>(Proj<a0>(Input<t0>))", "Proj<a2>(Input<t1>)"⟩ :
      TemplatePair).catalog with
  | error e =>
    rw [hread] at hcount
    cases hcount
  | ok catalog =>
    rw [hread] at hcount
    simp only [Except.toOption, Option.any_some, Bool.and_eq_true, beq_iff_eq] at hcount
    exact ⟨catalog, rfl, hcount.1, hcount.2,
      TemplatePair.search_visits_wellFormed _ hread _ _ _ rfl rfl rfl⟩

end QueryRules
