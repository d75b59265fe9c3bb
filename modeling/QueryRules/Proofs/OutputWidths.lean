import Mathlib.Algebra.BigOperators.Group.Finset.Piecewise
import Mathlib.Algebra.Order.BigOperators.Group.Finset
import QueryRules.Proofs.ConcreteRules

/-!
# QueryRules — numbers of output columns

The search compares the numbers of output columns of the two plans before equalities are chosen.
Equalities change these numbers: equal tables share their columns, and equal attribute lists are one
column. So a choice whose plans differ in their numbers may be completed to one whose plans agree,
and the comparison gives it up.
-/

namespace QueryRules

open List SearchTask Catalog

/-! ## What a template shows -/

namespace Template

/-- The tables that a template exposes. -/
def shownTables (t : Template) : List Symbol :=
  t.exposed.filter fun s => s.kind = .table

/-- The number of projections that a template exposes. -/
def shownProjections (t : Template) : Nat :=
  t.exposed.countP fun s => s.kind ≠ .table

end Template

/-- A sum over symbols in which all but tables count one. -/
theorem sum_shown (f : Symbol → Nat) (l : List Symbol) :
    (l.map fun s => if s.kind = .table then f s else 1).sum =
      l.countP (fun s => s.kind ≠ .table) + ((l.filter fun s => s.kind = .table).map f).sum := by
  induction l with
  | nil => rfl
  | cons s l ih =>
    by_cases hs : s.kind = .table
    · simp [hs, ih]
      omega
    · simp [hs, ih]
      omega

namespace Rule

variable {r : Rule}

/-- The tables that the source plan shows. -/
def sourceTables (r : Rule) : List Symbol :=
  r.source.shownTables

/-- The tables that the target plan shows, by what they copy. -/
def targetTables (r : Rule) : List Symbol :=
  r.target.shownTables.map r.original

/-- The number of output columns of the source plan. -/
def sourceWidth (r : Rule) : Nat :=
  r.source.shownProjections + (r.sourceTables.map r.width).sum

/-- The number of output columns of the target plan. -/
def targetWidth (r : Rule) : Nat :=
  r.target.shownProjections + (r.targetTables.map r.width).sum

/-- The output columns of a plan, counted by what its template exposes. -/
theorem length_outputColumns {inst : Instance} (hinst : inst.Finished r)
    {stands : Symbol → Symbol} {t : Template} (hstands : inst.Standing r stands t) {n n' : Nat}
    {plan : Plan} {aliases : List (Symbol × String)}
    (hbuilt : inst.Built r stands t n n' plan aliases) :
    plan.outputColumns.length =
      t.shownProjections + ((t.shownTables.map stands).map r.width).sum := by
  have hwidth : ∀ s ∈ t.exposed, inst.widthOf stands s =
      if s.kind = .table then r.width (stands s) else 1 := by
    intro s hs
    unfold Instance.widthOf
    split
    · next hkind =>
      have hmem := hstands.standing s (t.exposed_sublist.subset hs)
      rw [hkind] at hmem
      exact hinst.width _ hmem
    · rfl
  rw [hbuilt.width, map_congr_left hwidth, sum_shown, map_map]
  rfl

theorem MadeWith.outputColumns (hr : r.Grounded) {inst : Instance} {c : ConcreteRule}
    (h : r.MadeWith inst c) : c.source.outputColumns.length = r.sourceWidth ∧
      c.target.outputColumns.length = r.targetWidth := by
  obtain ⟨_, _, _, hsource⟩ := h.source
  obtain ⟨_, _, _, htarget⟩ := h.target
  constructor
  · rw [length_outputColumns h.finished (Instance.standing_source hr) hsource, map_id]
    rfl
  · exact length_outputColumns h.finished (Instance.standing_target hr h.finished) htarget

theorem width_pos (r : Rule) (t : Symbol) : 0 < r.width t :=
  Nat.succ_pos _

end Rule

/-! ## Sums in which common tables cancel -/

section Sums

variable {S T : List Symbol} {p q : Nat} {w w' : Symbol → Nat}

theorem sum_map_eq_sum_toFinset (hS : S.Nodup) (w : Symbol → Nat) :
    (S.map w).sum = ∑ t ∈ S.toFinset, w t :=
  (sum_toFinset w hS).symm

/-- Two sums differ if they do so for other weights that are the same outside the common part. -/
theorem shown_sums_differ (hS : S.Nodup) (hT : T.Nodup)
    (hdiffer : p + (S.map w).sum ≠ q + (T.map w).sum)
    (hsame : ∀ t, (t ∈ S ↔ t ∉ T) → w' t = w t) :
    p + (S.map w').sum ≠ q + (T.map w').sum := by
  rw [sum_map_eq_sum_toFinset hS, sum_map_eq_sum_toFinset hT] at hdiffer ⊢
  have hleft : ∑ t ∈ S.toFinset \ T.toFinset, w' t = ∑ t ∈ S.toFinset \ T.toFinset, w t := by
    refine Finset.sum_congr rfl fun t ht => hsame t ?_
    rw [Finset.mem_sdiff, mem_toFinset, mem_toFinset] at ht
    exact ⟨fun _ => ht.2, fun _ => ht.1⟩
  have hright : ∑ t ∈ T.toFinset \ S.toFinset, w' t = ∑ t ∈ T.toFinset \ S.toFinset, w t := by
    refine Finset.sum_congr rfl fun t ht => hsame t ?_
    rw [Finset.mem_sdiff, mem_toFinset, mem_toFinset] at ht
    exact ⟨fun hS => absurd hS ht.2, fun hT => absurd ht.1 hT⟩
  rw [← Finset.sum_inter_add_sum_sdiff S.toFinset T.toFinset w,
    ← Finset.sum_inter_add_sum_sdiff T.toFinset S.toFinset w,
    Finset.inter_comm T.toFinset] at hdiffer
  rw [← Finset.sum_inter_add_sum_sdiff S.toFinset T.toFinset w',
    ← Finset.sum_inter_add_sum_sdiff T.toFinset S.toFinset w', Finset.inter_comm T.toFinset, hleft,
    hright]
  omega

/-- Two sums differ for all positive weights if they do so for some, provided that one is over more.
-/
theorem nested_sums_differ (hS : S.Nodup) (hT : T.Nodup)
    (hdiffer : p + (S.map w).sum ≠ q + (T.map w).sum) (hsub : T ⊆ S) (hle : q ≤ p)
    (hpos : ∀ t, 0 < w' t) : p + (S.map w').sum ≠ q + (T.map w').sum := by
  rw [sum_map_eq_sum_toFinset hS, sum_map_eq_sum_toFinset hT] at hdiffer ⊢
  have hsub' : T.toFinset ⊆ S.toFinset := fun t ht =>
    mem_toFinset.mpr (hsub (mem_toFinset.mp ht))
  rw [← Finset.sum_sdiff hsub'] at hdiffer ⊢
  rcases (S.toFinset \ T.toFinset).eq_empty_or_nonempty with hempty | hnonempty
  · rw [hempty, Finset.sum_empty] at hdiffer ⊢
    omega
  · have hmore : 0 < ∑ t ∈ S.toFinset \ T.toFinset, w' t :=
      Finset.sum_pos (fun t _ => hpos t) hnonempty
    omega

end Sums

/-! ## Before equalities are chosen -/

namespace Catalog

/-- A well-formed assignment with the sources and copies of a choice. -/
structure Completes (catalog : Catalog) (flags : Assignment) (c : Choice) : Prop where
  wellFormed : catalog.WellFormed flags
  draws : ∀ a s, catalog.Draws flags a s ↔ c.source? a = some s
  copies : ∀ b ∈ catalog.target.symbols, ∀ a, catalog.Copies flags b a ↔ c.copied? b = some a

variable {catalog : Catalog}

/-- A reference goes to another attribute list. -/
theorem ne_of_mem_reference {t a t' b : Symbol}
    (h : .reference t a t' b ∈ catalog.integrity) : a ≠ b := by
  unfold integrity block at h
  simp only [mem_append, mem_flatMap, mem_map] at h
  rcases h with (⟨_, -, _, -, heq⟩ | ⟨_, -, _, -, heq⟩) | ⟨a', -, b', -, h⟩
  · cases heq
  · cases heq
  · split at h
    · cases h
    · next hne =>
      obtain ⟨_, -, h⟩ := mem_flatMap.mp h
      obtain ⟨_, -, heq⟩ := mem_map.mp h
      cases heq
      exact hne

end Catalog

namespace Parts

variable {catalog : Catalog} {x y : Parts} {a b : Symbol} (h : catalog.WellBound)

/-- Parts without equalities and without integrity constraints. -/
structure Discrete (y : Parts) (catalog : Catalog) : Prop where
  matches_eq : ∀ kind,
    Partition.Matches Eq ((catalog.source.symbolsOf kind).zip (y.partition kind))
  flag : ∀ e, y.flag e = false

/-- The same sources and copies, and nothing else. -/
theorem exists_discrete (hx : x.Fits catalog) : ∃ y : Parts, y.Fits catalog ∧ y.Discrete catalog ∧
    y.source = x.source ∧ y.copied = x.copied := by
  have hpartition : ∀ kind, ∃ p ∈ Partition.all (catalog.source.symbolsOf kind).length,
      Partition.Matches Eq ((catalog.source.symbolsOf kind).zip p) := fun kind =>
    Partition.exists_mem_all eq_equivalence _
  choose partition hall hmatches using hpartition
  exact ⟨⟨x.source, x.copied, partition, fun _ => false⟩, ⟨hx.source, hx.copied, hall⟩,
    ⟨hmatches, fun _ => rfl⟩, rfl, rfl⟩

section Discrete

variable (hy : y.Fits catalog) (hdiscrete : y.Discrete catalog)

include h hy hdiscrete

theorem Discrete.isEq_iff (ha : a ∈ catalog.source.symbols) :
    (y.choice catalog).isEq a b = true ↔ a = b := by
  rw [isEq_choice h hy ha]
  constructor
  · rintro ⟨i, hai, hbi⟩
    exact (hdiscrete.matches_eq a.kind _ hai _ hbi).mp rfl
  · rintro rfl
    obtain ⟨i, hi⟩ := exists_block hy ha
    exact ⟨i, hi, hi⟩

theorem Discrete.equates_iff (ha : a ∈ catalog.source.symbols) (hb : b ∈ catalog.source.symbols) :
    catalog.Equates (y.flags catalog) a b ↔ a = b :=
  (Parts.equates_iff h ha hb).trans (hdiscrete.isEq_iff h hy ha)

/-- Leaving out all equalities and integrity constraints keeps an assignment well-formed. -/
theorem Discrete.wellFormed (hx : x.Fits catalog) (hw : catalog.WellFormed (x.flags catalog))
    (hsource : y.source = x.source) (hcopied : y.copied = x.copied) :
    catalog.WellFormed (y.flags catalog) := by
  have hdraws : ∀ a s,
      catalog.Draws (y.flags catalog) a s ↔ catalog.Draws (x.flags catalog) a s := by
    intro a s
    rw [draws_iff h hy, draws_iff h hx, hsource]
  have hcopies : ∀ b ∈ catalog.target.symbols, ∀ a,
      catalog.Copies (y.flags catalog) b a ↔ catalog.Copies (x.flags catalog) b a := by
    intro b hb a
    rw [copies_iff h hy (mem_targets.mpr hb), copies_iff h hx (mem_targets.mpr hb), hcopied]
  -- Nothing is on but sources and copies, so the other conditions are about nothing.
  have hchosen : ∀ e ∈ catalog.integrity, e ∉ catalog.chosen (y.flags catalog) := by
    intro e he hmem
    rw [chosen_iff he, hdiscrete.flag e] at hmem
    cases hmem
  refine ⟨length_map _, ?_, ?_, ?_, ?_, ?_, ?_, ?_, ?_, ?_⟩
  · intro a ha
    simp only [hdraws]
    exact hw.draws a ha
  · intro b hb
    simp only [hcopies b hb]
    exact hw.copies b hb
  · intro b hb b' hb' a ha ha'
    rw [hcopies b (mem_of_mem_filter hb)] at ha
    rw [hcopies b' (mem_of_mem_filter hb')] at ha'
    exact hw.injective b hb b' hb' a ha ha'
  · intro b hb a ha
    rw [hcopies b (mem_of_mem_filter hb)] at ha
    obtain ⟨v, hv, z, hz, hchain⟩ := hw.chained b hb a ha
    have hv' := mem_of_mem_filter (h.target.mem_of_mem_viableSources hv).1
    exact ⟨v, hv, z, (hcopies v hv' z).mpr hz,
      Relation.TransGen.mono (fun c d hcd => (hdraws c d).mpr hcd) _ _ hchain⟩
  · intro kind
    have hiff : ∀ c d : { s // s ∈ catalog.source.symbolsOf kind },
        catalog.Equates (y.flags catalog) c d ↔ c = d := by
      intro c d
      rw [hdiscrete.equates_iff h hy (mem_source c.2) (mem_source d.2)]
      exact Subtype.ext_iff.symm
    exact ⟨fun c => (hiff c c).mpr rfl, fun hcd => (hiff _ _).mpr ((hiff _ _).mp hcd).symm,
      fun hcd hde => (hiff _ _).mpr (((hiff _ _).mp hcd).trans ((hiff _ _).mp hde))⟩
  · intro a ha b hb heq s t hs ht
    rw [hdiscrete.equates_iff h hy (mem_source ha) (mem_source hb)] at heq
    subst heq
    rw [draws_iff h hy] at hs ht
    exact .inl (hs.2.symm.trans ht.2)
  · intro e he hmem
    exact absurd hmem (hchosen e he)
  · intro e he e' he' _ _ _ _
    exact ⟨fun hmem => absurd hmem (hchosen e he), fun hmem => absurd hmem (hchosen e' he')⟩
  · intro t a t' b he hconforms heq
    have ha := (draws_iff h hy).mp (hconforms (t, a) mem_cons_self)
    have hb := (draws_iff h hy).mp
      (hconforms (t', b) (mem_cons_of_mem _ mem_cons_self))
    rw [hdiscrete.equates_iff h hy (mem_source ha.1) (mem_source hb.1)] at heq
    exact absurd heq (ne_of_mem_reference he)

/-- The assignment of a choice that has sources and copies only. -/
theorem Discrete.flags_eq {c : Choice} (hblocks : c.blocks = []) (hintegrity : c.integrity = [])
    (hdraws : ∀ a s, catalog.Draws (y.flags catalog) a s ↔ c.source? a = some s)
    (hcopies : ∀ b ∈ catalog.target.symbols, ∀ a,
      catalog.Copies (y.flags catalog) b a ↔ c.copied? b = some a)
    (settings : Settings) (oracle : Oracle) (clock : Nat → Nat) :
    (ofCatalog catalog settings oracle clock).flags c false = y.flags catalog := by
  have hstruct : ∀ e ∈ catalog.structural, enables c e = y.on catalog e := by
    intro e he
    have hentry : e ∈ catalog.entries := by
      rw [entries_eq]
      exact mem_append_left _ he
    have hon : e ∈ catalog.chosen (y.flags catalog) ↔ y.on catalog e = true :=
      mem_chosen_flags.trans (and_iff_right hentry)
    rw [Bool.eq_iff_iff, ← hon]
    -- Sources and copies are those of the choice; no two symbols are equal.
    rcases mem_structural.mp he with ⟨a, -, s, -, rfl⟩ | ⟨kind, a, b, hpair, rfl⟩ |
      ⟨kind, b, hb, a, ha, rfl⟩
    · exact decide_eq_true_iff.trans (hdraws a s).symm
    · have hsub := mem_pairs_iff.mp hpair
      have ha := hsub.subset mem_cons_self
      have hb := hsub.subset (mem_cons_of_mem _ mem_cons_self)
      rw [on_pair h hpair, hdiscrete.isEq_iff h hy (mem_source ha)]
      show (if a.side = b.side then _ else _) = true ↔ _
      rw [if_pos ((h.source.side_of_mem ha).trans (h.source.side_of_mem hb).symm), Choice.isEq_iff,
        hblocks]
      refine or_iff_left ?_
      rintro ⟨-, i, hi, -⟩
      cases hi
    · have hkind : b.kind = kind := Template.kind_of_mem_symbolsOf hb
      subst hkind
      have hne : ¬ a.side = b.side := by
        rw [h.source.side_of_mem ha, h.target.side_of_mem hb]
        decide
      show (if a.side = b.side then _ else _) = true ↔ _
      rw [if_neg hne]
      exact decide_eq_true_iff.trans (hcopies b (mem_of_mem_filter hb) a).symm
  have hrest : catalog.integrity.map (y.on catalog) =
      List.replicate catalog.integrity.length false := by
    refine eq_replicate_iff.mpr ⟨length_map _, fun f hf => ?_⟩
    obtain ⟨e, he, rfl⟩ := mem_map.mp hf
    rw [on_integrity he]
    exact hdiscrete.flag e
  unfold flags
  rw [flags_ofCatalog, hintegrity, append_nil, length_nil, Nat.sub_zero,
    ← hrest, entries_eq, map_append, ← map_congr_left hstruct]

end Discrete

end Parts

/-- **When numbers of output columns stay different.** Let the plans of a choice that has sources
and copies only differ in their numbers of output columns. Every well-formed assignment that
completes the choice can be made concrete, and its numbers of output columns are `sourceWidth` and
`targetWidth`. They differ again if the tables that only one root shows keep their numbers of
columns; and they differ whatever is equal if one root shows all tables of the other, and no fewer
projections. -/
theorem TemplatePair.output_check_conservative (p : TemplatePair) {catalog : Catalog}
    (hread : p.catalog = .ok catalog) {settings : Settings} {oracle : Oracle} {clock : Nat → Nat}
    {t : SearchTask} (ht : t = .ofCatalog catalog settings oracle clock) {c : Choice}
    (hblocks : c.blocks = []) (hintegrity : c.integrity = []) {start r : Rule}
    (hstart : start = t.rule (t.flags c false)) {before : ConcreteRule}
    (hbefore : start.concrete = .ok before)
    (hprunes : before.source.outputColumns.length ≠ before.target.outputColumns.length)
    {flags : Assignment} (hflags : catalog.Completes flags c) (hr : r = t.rule flags) :
    ∃ after, r.concrete = .ok after ∧
      after.source.outputColumns.length = r.sourceWidth ∧
      after.target.outputColumns.length = r.targetWidth ∧
      ((∀ t, (t ∈ r.sourceTables ↔ t ∉ r.targetTables) → r.width t = start.width t) →
        after.source.outputColumns.length ≠ after.target.outputColumns.length) ∧
      ((r.targetTables ⊆ r.sourceTables ∧
          r.target.shownProjections ≤ r.source.shownProjections ∨
        r.sourceTables ⊆ r.targetTables ∧
          r.source.shownProjections ≤ r.target.shownProjections) →
        after.source.outputColumns.length ≠ after.target.outputColumns.length) := by
  have h := p.wellBound hread
  subst ht
  -- The completion is made of parts. The pruned state is what is left of them without equalities
  -- and integrity constraints.
  obtain ⟨x, hx, rfl⟩ := exists_parts h hflags.wellFormed
  obtain ⟨y, hy, hdiscrete, hsource, hcopied⟩ := Parts.exists_discrete hx
  have hstate : (ofCatalog catalog settings oracle clock).flags c false =
      y.flags catalog := by
    refine hdiscrete.flags_eq h hy hblocks hintegrity (fun a s => ?_) (fun b hb a => ?_) _ _ _
    · rw [← hflags.draws, Parts.draws_iff h hy, Parts.draws_iff h hx, hsource]
    · have hb' := Parts.mem_targets.mpr hb
      rw [← hflags.copies b hb, Parts.copies_iff h hy hb', Parts.copies_iff h hx hb', hcopied]
  have hstart : start = catalog.rule (y.flags catalog) := hstate ▸ hstart
  have hr : r = catalog.rule (x.flags catalog) := hr
  have hgrounded : r.Grounded := hr ▸ Parts.grounded h hx hflags.wellFormed
  have hgrounded₀ : start.Grounded := hstart ▸
    Parts.grounded h hy (hdiscrete.wellFormed h hy hx hflags.wellFormed hsource hcopied)
  obtain ⟨inst, after, hmade⟩ := hgrounded.exists_madeWith
  obtain ⟨inst₀, before', hmade₀⟩ := hgrounded₀.exists_madeWith
  obtain rfl : before' = before := Except.ok.inj (hmade₀.concrete.symm.trans hbefore)
  -- The two rules show the same tables.
  have htables : start.targetTables = r.targetTables := by
    subst hstart hr
    refine map_congr_left fun b hb => ?_
    have hb' := Parts.mem_targets.mpr
      (catalog.target.exposed_sublist.subset (mem_of_mem_filter hb))
    rw [Rule.original_eq (Parts.copiedBy?_rule h hy hb'),
      Rule.original_eq (Parts.copiedBy?_rule h hx hb'), hcopied]
  have hS : r.sourceTables.Nodup :=
    (hgrounded.source.nodup_symbols.sublist r.source.exposed_sublist).filter _
  have hT : r.targetTables.Nodup :=
    (Instance.standing_target hgrounded hmade.finished).distinct.sublist
      ((r.target.exposed_sublist.filter _).map _)
  have hdiffer : r.source.shownProjections + (r.sourceTables.map start.width).sum ≠
      r.target.shownProjections + (r.targetTables.map start.width).sum := by
    rw [(hmade₀.outputColumns hgrounded₀).1, (hmade₀.outputColumns hgrounded₀).2] at hprunes
    unfold Rule.sourceWidth Rule.targetWidth at hprunes
    rw [htables] at hprunes
    subst hstart hr
    exact hprunes
  obtain ⟨hcount, hcount'⟩ := hmade.outputColumns hgrounded
  refine ⟨after, hmade.concrete, hcount, hcount', ?_, ?_⟩
  · intro hkeep
    rw [hcount, hcount']
    exact shown_sums_differ hS hT hdiffer hkeep
  · rw [hcount, hcount']
    rintro (⟨hsub, hle⟩ | ⟨hsub, hle⟩)
    · exact nested_sums_differ hS hT hdiffer hsub hle r.width_pos
    · exact (nested_sums_differ hT hS hdiffer.symm hsub hle r.width_pos).symm

/-- A choice without its equalities and integrity constraints. -/
def Choice.bare (c : Choice) : Choice :=
  { c with blocks := [], integrity := [] }

/-- The flags of a choice that is reached complete its sources and copies. -/
theorem Catalog.completes_of_reaches {catalog : Catalog} (h : catalog.WellBound)
    {settings : Settings} {oracle : Oracle} {clock : Nat → Nat} {c : Choice}
    (hc : catalog.Reaches settings oracle clock c) :
    catalog.Completes ((ofCatalog catalog settings oracle clock).flags c false)
      c.bare := by
  have hwell := wellFormed_of_reaches h hc
  obtain ⟨x, hx, -, rfl⟩ :=
    (mem_completeChoices h).mp (mem_completeChoices_of_reaches hc)
  rw [Parts.flags_eq] at hwell ⊢
  refine ⟨hwell, fun a s => ?_, fun b hb a => ?_⟩
  · exact (Parts.draws_iff h hx).trans (Parts.source?_choice h).symm
  · have hb' := Parts.mem_targets.mpr hb
    rw [Parts.copies_iff h hx hb']
    exact (and_iff_right hb').symm.trans (Parts.lookup_copies (Parts.nodup_targets h)).symm

/-- A search that leaves out both checks. -/
def Settings.unchecked (timeout : Option Nat) : Settings :=
  { timeout := timeout, skipOutputCheck := true, skipTableCheck := true }

/-- A join against one of its tables. The joined tables are made equal, and the join still has more
columns. -/
theorem TemplatePair.output_check_conservative_join :
    ∃ (catalog : Catalog) (t : SearchTask) (c : Choice) (flags : Assignment)
      (before after : ConcreteRule),
      (⟨"InnerJoin<a0 a1>(Input<t0>,Input<t1>)", "Input<t2>"⟩ : TemplatePair).catalog =
        .ok catalog ∧
      t = ofCatalog catalog {} Oracle.strict id ∧ c.blocks = [] ∧ c.integrity = [] ∧
      (t.rule (t.flags c false)).concrete = .ok before ∧
      before.source.outputColumns.length ≠ before.target.outputColumns.length ∧
      catalog.Completes flags c ∧
      (t.rule flags).classes.same ⟨.source, .table, 0⟩ ⟨.source, .table, 1⟩ = true ∧
      (t.rule flags).concrete = .ok after ∧
      after.source.outputColumns.length ≠ after.target.outputColumns.length := by
  have hsome : ((⟨"InnerJoin<a0 a1>(Input<t0>,Input<t1>)", "Input<t2>"⟩ :
      TemplatePair).catalog.toOption.any fun catalog =>
        (catalog.search (.unchecked (some 1)) Oracle.strict id).final.answered.any fun z =>
          (catalog.rule ((ofCatalog catalog {} Oracle.strict id).flags z.1.bare
            false)).concrete.toOption.any (fun before =>
              before.source.outputColumns.length ≠ before.target.outputColumns.length) &&
          (catalog.rule ((ofCatalog catalog {} Oracle.strict id).flags z.1
            false)).classes.same ⟨.source, .table, 0⟩ ⟨.source, .table, 1⟩ &&
          decide ((catalog.rule ((ofCatalog catalog {} Oracle.strict id).flags z.1
            false)).targetTables ⊆ catalog.source.shownTables ∧
            catalog.target.shownProjections ≤ catalog.source.shownProjections)) = true := by
    decide +kernel
  obtain ⟨catalog, hread, hsome⟩ := exists_ok_of_any hsome
  obtain ⟨z, hz, htest⟩ := any_eq_true.mp hsome
  rw [Bool.and_eq_true, Bool.and_eq_true, decide_eq_true_eq] at htest
  obtain ⟨⟨hbefore, hsame⟩, hnested⟩ := htest
  obtain ⟨before, hbefore, hdiffer⟩ := exists_ok_of_any hbefore
  have hcompletes := completes_of_reaches (TemplatePair.wellBound hread)
    (reaches_of_answered hz)
  obtain ⟨after, hafter, -, -, -, hlast⟩ := TemplatePair.output_check_conservative _ hread rfl
    rfl rfl rfl hbefore (of_decide_eq_true hdiffer) hcompletes rfl
  exact ⟨catalog, _, z.1.bare, _, before, after, hread, rfl, rfl, rfl, hbefore,
    of_decide_eq_true hdiffer, hcompletes, hsame, hafter, hlast (.inl hnested)⟩

/-- Numbers of output columns may become equal. An `IN` filter shows its first table, which has two
columns, and the target the second one, which has one column. If the two tables are made equal, both
have two. The search gives the choice up before it comes to that. -/
theorem TemplatePair.output_check_not_conservative :
    ∃ (catalog : Catalog) (t : SearchTask) (c : Choice) (flags : Assignment)
      (before after : ConcreteRule),
      (⟨"InSubFilter<a0>(Input<t0>,Input<t1>)", "Input<t2>"⟩ : TemplatePair).catalog =
        .ok catalog ∧
      t = ofCatalog catalog {} Oracle.strict id ∧ c.blocks = [] ∧ c.integrity = [] ∧
      (t.rule (t.flags c false)).concrete = .ok before ∧
      before.source.outputColumns.length ≠ before.target.outputColumns.length ∧
      (catalog.search {} Oracle.strict id).final.stats.outputHits = 1 ∧
      catalog.Completes flags c ∧ (t.rule flags).concrete = .ok after ∧
      after.source.outputColumns.length = after.target.outputColumns.length := by
  have hsome : ((⟨"InSubFilter<a0>(Input<t0>,Input<t1>)", "Input<t2>"⟩ :
      TemplatePair).catalog.toOption.any fun catalog =>
        decide ((catalog.search {} Oracle.strict id).final.stats.outputHits = 1) &&
        (catalog.search (.unchecked none) Oracle.strict id).final.answered.any fun z =>
          (catalog.rule ((ofCatalog catalog {} Oracle.strict id).flags z.1.bare
            false)).concrete.toOption.any (fun before =>
              before.source.outputColumns.length ≠ before.target.outputColumns.length) &&
          (catalog.rule ((ofCatalog catalog {} Oracle.strict id).flags z.1
            false)).concrete.toOption.any fun after =>
              after.source.outputColumns.length = after.target.outputColumns.length) = true := by
    decide +kernel
  obtain ⟨catalog, hread, hsome⟩ := exists_ok_of_any hsome
  rw [Bool.and_eq_true, decide_eq_true_eq] at hsome
  obtain ⟨z, hz, htest⟩ := any_eq_true.mp hsome.2
  rw [Bool.and_eq_true] at htest
  obtain ⟨before, hbefore, hdiffer⟩ := exists_ok_of_any htest.1
  obtain ⟨after, hafter, hagree⟩ := exists_ok_of_any htest.2
  exact ⟨catalog, _, z.1.bare, _, before, after, hread, rfl, rfl, rfl, hbefore,
    of_decide_eq_true hdiffer, hsome.1, completes_of_reaches (TemplatePair.wellBound hread)
      (reaches_of_answered hz), hafter, of_decide_eq_true hagree⟩

end QueryRules
