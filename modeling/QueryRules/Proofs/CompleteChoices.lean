import QueryRules.Proofs.ChoiceParts

/-!
# QueryRules — which choices a dry run visits

The choices that a dry run visits are listed stage by stage. Here they are described at once: the
parts of such a choice fit the catalog and satisfy what the stages ask (`Parts.IsComplete`), and
the stages ask nothing else (`Catalog.mem_completeChoices`). No choice is listed twice
(`Catalog.nodup_completeChoices`).
-/

namespace QueryRules

open List Catalog

/-! ## What the search asks of the parts -/

namespace Parts

variable {catalog : Catalog} {x y : Parts} {a b s : Symbol} {kind : SymbolKind} {e : Constraint}

/-- What the stages ask of the parts of a choice. A target symbol is compared with what was copied
before it only. -/
structure IsComplete (x : Parts) (catalog : Catalog) : Prop where
  mayCopy : ∀ before b after, catalog.targets = before ++ b :: after →
    (⟨x.sources catalog, x.copies before, [], []⟩ : Choice).mayCopy catalog b (x.copied b) = true
  free : (x.choice catalog).hasConflict
    (pairs (catalog.source.symbolsOf .attrs)) = false
  agrees : ∀ kind, (x.choice catalog).Agrees kind
    ((x.decisions catalog.integrity).filter fun z => z.1.kind = kind)

end Parts

section Listing

variable {catalog : Catalog} {x : Parts}

/-- Decisions that may be made one after the other are those that agree, kind by kind. Induction
from the end, with one more decision each time. -/
theorem decideOptions_iff {c : Choice} (l : List (Constraint × Bool)) :
    (∀ before e flag after, l = before ++ (e, flag) :: after →
        flag ∈ decideOptions c before e) ↔
      ∀ kind, c.Agrees kind (l.filter fun z => z.1.kind = kind) := by
  have hallows : ∀ (done : List (Constraint × Bool)) e flag,
      flag ∈ decideOptions c done e ↔
        Choice.Allows (c.forced (done.filter fun z => z.1.kind = e.kind) e) flag := by
    intro done e flag
    unfold decideOptions Choice.Allows
    dsimp only
    set forced := c.forced (done.filter fun z => z.1.kind = e.kind) e
    cases flag <;> cases forced.mustDisable <;> cases forced.mustEnable <;> simp
  induction l using List.reverseRecOn with
  | nil =>
    refine ⟨fun _ kind => Choice.agrees_nil c kind, fun _ before e flag after hsplit => ?_⟩
    exact absurd (congrArg List.length hsplit) (by simp)
  | append_singleton l z ih =>
    obtain ⟨e, flag⟩ := z
    have hlast : (∀ before e' flag' after, l ++ [(e, flag)] = before ++ (e', flag') :: after →
        flag' ∈ decideOptions c before e') ↔
        (∀ before e' flag' after, l = before ++ (e', flag') :: after →
          flag' ∈ decideOptions c before e') ∧ flag ∈ decideOptions c l e := by
      constructor
      · intro hall
        refine ⟨fun before e' flag' after hsplit => ?_, hall l e flag [] rfl⟩
        exact hall before e' flag' (after ++ [(e, flag)]) (by rw [hsplit]; simp)
      · rintro ⟨hall, hend⟩ before e' flag' after hsplit
        -- The split lies at the end or within the list.
        rcases eq_nil_or_concat after with rfl | ⟨after', z, rfl⟩
        · obtain ⟨rfl, hz⟩ := append_inj' hsplit rfl
          cases hz
          exact hend
        · rw [concat_eq_append, ← cons_append, ← append_assoc] at hsplit
          obtain ⟨rfl, -⟩ := append_inj' hsplit rfl
          exact hall before e' flag' after' rfl
    refine hlast.trans ((and_congr ih (hallows l e flag)).trans ?_)
    have hfilter : ∀ kind, (l ++ [(e, flag)]).filter (fun z => z.1.kind = kind) =
        l.filter (fun z => z.1.kind = kind) ++ if e.kind = kind then [(e, flag)] else [] := by
      intro kind
      rw [filter_append, filter_singleton]
      simp
    simp only [hfilter]
    constructor
    · rintro ⟨hall, hallow⟩ kind
      split
      · next hkind =>
        subst hkind
        exact Choice.agrees_concat.mpr ⟨hall e.kind, rfl, hallow⟩
      · rw [append_nil]
        exact hall kind
    · intro hall
      have hkind := hall e.kind
      rw [if_pos rfl, Choice.agrees_concat] at hkind
      refine ⟨fun kind => ?_, hkind.2.2⟩
      by_cases hsame : e.kind = kind
      · exact hsame ▸ hkind.1
      · have hother := hall kind
        rwa [if_neg hsame, append_nil] at hother

/-- Only the partitions of tables and attribute lists have a say in conflicts. -/
theorem hasConflict_congr (h : catalog.WellBound) (hx : x.Fits catalog) {c d : Choice}
    (kinds kinds' : List SymbolKind) (hkinds : kinds.Nodup) (hkinds' : kinds'.Nodup)
    (hsub : ∀ kind ≠ SymbolKind.pred, kind ∈ kinds ∧ kind ∈ kinds')
    (hc : c.sources = x.sources catalog) (hd : d.sources = x.sources catalog)
    (hcb : c.blocks = catalog.blocksOf (x.groups kinds))
    (hdb : d.blocks = catalog.blocksOf (x.groups kinds')) :
    c.hasConflict (pairs (catalog.source.symbolsOf .attrs)) =
      d.hasConflict (pairs (catalog.source.symbolsOf .attrs)) := by
  have hisEq : ∀ {a b}, a.kind ≠ .pred → a ∈ catalog.source.symbols → c.isEq a b = d.isEq a b := by
    intro a b hkind ha
    rw [Bool.eq_iff_iff, Parts.isEq_iff_block h hx hkinds hcb (hsub _ hkind).1 ha,
      Parts.isEq_iff_block h hx hkinds' hdb (hsub _ hkind).2 ha]
  have hsource : ∀ {c : Choice} {a}, c.sources = x.sources catalog →
      a ∈ catalog.source.symbolsOf .attrs → c.source? a = some (x.source a) := by
    intro c a hc ha
    have hlookup := (Parts.source?_choice (x := x) h).mpr ⟨ha, rfl⟩
    unfold Choice.source? at hlookup ⊢
    rw [hc]
    exact hlookup
  unfold Choice.hasConflict
  rw [Bool.eq_iff_iff, any_eq_true, any_eq_true]
  refine exists_congr fun ⟨a, b⟩ => and_congr_right fun hpair => ?_
  have hpairSub := mem_pairs_iff.mp hpair
  have ha := hpairSub.subset mem_cons_self
  have hb := hpairSub.subset (mem_cons_of_mem _ mem_cons_self)
  have hakind : a.kind ≠ .pred := by
    rw [Template.kind_of_mem_symbolsOf ha]
    nofun
  obtain ⟨hsa, hskind⟩ := h.source.mem_of_mem_viableSources (hx.source a ha)
  have hsources : c.sourcesEq a b = d.sourcesEq a b := by
    unfold Choice.sourcesEq
    rw [hsource hc ha, hsource hc hb, hsource hd ha, hsource hd hb]
    exact hisEq hskind (mem_of_mem_filter hsa)
  dsimp only
  rw [hisEq hakind (mem_of_mem_filter ha), hsources]

/-- The stage of the attribute lists finds a conflict if the whole choice has one. -/
theorem conflicts_attrs (h : catalog.WellBound) (hx : x.Fits catalog) :
    Search.conflicts .attrs
        ⟨x.sources catalog, [], catalog.blocksOf (x.groups [.table]), []⟩
        (catalog.source.symbolsOf .attrs) (x.partition .attrs) =
      (x.choice catalog).hasConflict (pairs (catalog.source.symbolsOf .attrs)) := by
  refine hasConflict_congr h hx [.table, .attrs] SymbolKind.all (by decide) (by decide)
    (fun kind hkind => ?_) rfl rfl ?_ rfl
  · cases kind with
    | table | attrs => exact ⟨by decide, by decide⟩
    | pred => exact absurd rfl hkind
  · show catalog.blocksOf (x.groups [.table]) ++ x.blocks catalog .attrs = _
    unfold blocksOf Parts.groups Parts.blocks
    simp

/-- The partitions that are listed are those without a conflict. -/
theorem groups_mem_iff (h : catalog.WellBound) (hx : x.Fits catalog) :
    x.groups SymbolKind.all ∈
        assignAll (catalog.groupOptions (x.sources catalog)) [] SymbolKind.all ↔
      (x.choice catalog).hasConflict
        (pairs (catalog.source.symbolsOf .attrs)) = false := by
  -- It does not matter that predicates are not partitioned yet when attribute lists are checked.
  have hoption : ∀ done kind, x.partition kind ∈
      catalog.groupOptions (x.sources catalog) done kind ↔
        Search.conflicts kind ⟨x.sources catalog, [], catalog.blocksOf done, []⟩
          (catalog.source.symbolsOf kind) (x.partition kind) = false := by
    intro done kind
    unfold groupOptions
    rw [mem_filter, and_iff_right (hx.partition kind), Bool.not_eq_true']
  have hother : ∀ done {kind}, kind ≠ SymbolKind.attrs →
      x.partition kind ∈ catalog.groupOptions (x.sources catalog) done kind := by
    intro done kind hkind
    rw [hoption, Search.conflicts, decide_eq_false hkind, Bool.false_and]
  rw [mem_assignAll]
  constructor
  · rintro ⟨rest, heq, -, hrest⟩
    rw [nil_append] at heq
    subst heq
    have hattrs := hrest (x.groups [.table]) .attrs (x.partition .attrs) (x.groups [.pred]) rfl
    rw [nil_append, hoption, conflicts_attrs h hx] at hattrs
    exact hattrs
  · intro hfree
    refine ⟨x.groups SymbolKind.all, rfl, rfl, fun before kind p after hsplit => ?_⟩
    rw [nil_append]
    -- The three kinds one by one.
    rcases before with _ | ⟨z₁, _ | ⟨z₂, _ | ⟨z₃, before⟩⟩⟩
    · cases hsplit
      exact hother _ (by decide)
    · cases hsplit
      exact (hoption _ _).mpr ((conflicts_attrs h hx).trans hfree)
    · cases hsplit
      exact hother _ (by decide)
    · exact absurd (congrArg List.length hsplit) (by simp [Parts.groups, SymbolKind.all])

end Listing

namespace Catalog

variable {catalog : Catalog}

theorem nodup_integrity (h : catalog.WellBound) : catalog.integrity.Nodup := by
  have hnodup := nodup_entries h
  rw [entries_eq] at hnodup
  exact hnodup.of_append_right

/-- **The complete choices of the search** are those whose parts fit and are complete. -/
theorem mem_completeChoices (h : catalog.WellBound) {c : Choice} :
    c ∈ catalog.completeChoices ↔
      ∃ x : Parts, x.Fits catalog ∧ x.IsComplete catalog ∧ c = x.choice catalog := by
  have hattrs := h.source.nodup_symbolsOf .attrs
  have htargets := Parts.nodup_targets h
  unfold completeChoices copiedChoices groupedChoices decidedChoices
  simp only [mem_flatMap, mem_map]
  constructor
  · rintro ⟨sources, hsources, copies, hcopies, groups, hgroups, decided, hdecided, rfl⟩
    obtain ⟨source, rfl, hsource⟩ := (mem_assignAll_map hattrs id).mp hsources
    obtain ⟨copied, rfl, hcopied⟩ := (mem_assignAll_map htargets id).mp hcopies
    obtain ⟨partition, rfl, hpartition⟩ :=
      (mem_assignAll_map (by decide : SymbolKind.all.Nodup) fun _ => []).mp hgroups
    obtain ⟨flag, rfl, -⟩ :=
      (mem_assignAll_map (nodup_integrity h) fun _ => false).mp hdecided
    -- The four lists of a choice are those of four functions.
    set x : Parts := ⟨source, copied, partition, flag⟩
    have hfits : x.Fits catalog := by
      refine ⟨fun a ha => ?_, fun b hb => ?_, fun kind => ?_⟩
      · obtain ⟨before, after, hsplit⟩ := append_of_mem ha
        exact hsource before a after hsplit
      · obtain ⟨before, after, hsplit⟩ := append_of_mem hb
        exact mem_of_mem_filter (hcopied before b after hsplit)
      · obtain ⟨before, after, hsplit⟩ := append_of_mem
          (show kind ∈ SymbolKind.all by cases kind <;> decide)
        exact mem_of_mem_filter (hpartition before kind after hsplit)
    refine ⟨x, hfits, ⟨fun before b after hsplit => ?_, ?_, ?_⟩, ?_⟩
    · exact (mem_filter.mp (hcopied before b after hsplit)).2
    · exact (groups_mem_iff h hfits).mp hgroups
    · obtain ⟨rest, heq, -, hrest⟩ := mem_assignAll.mp hdecided
      rw [nil_append] at heq
      subst heq
      intro kind
      have hagrees := (decideOptions_iff _).mp hrest kind
      exact ⟨hagrees.kinds, hagrees.conforms, hagrees.alike, hagrees.trivial⟩
    · unfold Parts.choice
      congr 1
      rw [map_map]
      rfl
  · rintro ⟨x, hfits, hx, rfl⟩
    refine ⟨x.sources catalog, (mem_assignAll_map hattrs id).mpr ⟨x.source, rfl, ?_⟩,
      x.copies catalog.targets, (mem_assignAll_map htargets id).mpr ⟨x.copied, rfl, ?_⟩,
      x.groups SymbolKind.all, (groups_mem_iff h hfits).mpr hx.free,
      x.decisions catalog.integrity, mem_assignAll.mpr ⟨_, rfl, ?_, ?_⟩, ?_⟩
    · intro before a after hsplit
      exact hfits.source a (hsplit ▸ mem_append_right _ mem_cons_self)
    · intro before b after hsplit
      refine mem_filter.mpr ⟨hfits.copied b ?_, hx.mayCopy before b after hsplit⟩
      exact hsplit ▸ mem_append_right _ mem_cons_self
    · rw [map_map]
      exact map_id _
    · simp only [nil_append]
      refine (decideOptions_iff _).mpr fun kind => ?_
      have hagrees := hx.agrees kind
      exact ⟨hagrees.kinds, hagrees.conforms, hagrees.alike, hagrees.trivial⟩
    · unfold Parts.choice Parts.decisions
      congr 1
      rw [map_map]
      rfl

/-! ## No choice twice -/

/-- The blocks of given kinds tell their partitions. -/
theorem blocksOf_inj {groups groups' : List (SymbolKind × Partition)}
    (hkeys : groups.map Prod.fst = groups'.map Prod.fst)
    (hlen : ∀ z ∈ groups, z.2.length = (catalog.source.symbolsOf z.1).length)
    (hlen' : ∀ z ∈ groups', z.2.length = (catalog.source.symbolsOf z.1).length)
    (heq : catalog.blocksOf groups = catalog.blocksOf groups') : groups = groups' := by
  induction groups generalizing groups' with
  | nil => exact (map_eq_nil_iff.mp hkeys.symm).symm
  | cons z groups ih =>
    obtain ⟨⟨kind', p'⟩, groups', rfl, hkind, hrest⟩ := map_eq_cons_iff.mp hkeys.symm
    obtain ⟨kind, p⟩ := z
    obtain rfl : kind' = kind := hkind
    have hp : p.length = _ := hlen (kind', p) mem_cons_self
    have hp' : p'.length = _ := hlen' (kind', p') mem_cons_self
    unfold blocksOf at heq
    rw [flatMap_cons, flatMap_cons] at heq
    obtain ⟨hzip, htail⟩ := append_inj heq (by
      rw [length_zip, length_zip, hp, hp'])
    have hpp : p = p' := by
      have hsnd := congrArg (List.map Prod.snd) hzip
      rwa [map_snd_zip (Nat.le_of_eq hp), map_snd_zip (Nat.le_of_eq hp')] at hsnd
    rw [hpp, ih hrest.symm (fun z hz => hlen z (mem_cons_of_mem _ hz))
      (fun z hz => hlen' z (mem_cons_of_mem _ hz)) htail]

/-- The partitions that are listed: one for each kind, of all symbols of the kind. -/
theorem shape_of_mem_groups {sources : List (Symbol × Symbol)}
    {groups : List (SymbolKind × Partition)}
    (h : groups ∈ assignAll (catalog.groupOptions sources) [] SymbolKind.all) :
    groups.map Prod.fst = SymbolKind.all ∧
      ∀ z ∈ groups, z.2.length = (catalog.source.symbolsOf z.1).length := by
  obtain ⟨groups, rfl, hkeys, hoptions⟩ := mem_assignAll.mp h
  refine ⟨hkeys, fun z hz => ?_⟩
  obtain ⟨before, after, hsplit⟩ := append_of_mem hz
  exact Partition.length_of_mem_all (mem_of_mem_filter (hoptions before z.1 z.2 after hsplit))

theorem frame_decidedChoices {c d : Choice} (hd : d ∈ catalog.decidedChoices c) :
    d.sources = c.sources ∧ d.copies = c.copies ∧ d.blocks = c.blocks := by
  obtain ⟨decided, -, rfl⟩ := mem_map.mp hd
  exact ⟨rfl, rfl, rfl⟩

theorem frame_groupedChoices {c d : Choice} (hd : d ∈ catalog.groupedChoices c) :
    d.sources = c.sources ∧ d.copies = c.copies := by
  obtain ⟨groups, -, hd⟩ := mem_flatMap.mp hd
  exact ⟨(frame_decidedChoices hd).1, (frame_decidedChoices hd).2.1⟩

theorem frame_copiedChoices {c d : Choice} (hd : d ∈ catalog.copiedChoices c) :
    d.sources = c.sources := by
  obtain ⟨copies, -, hd⟩ := mem_flatMap.mp hd
  exact (frame_groupedChoices hd).1

theorem nodup_decidedChoices (catalog : Catalog) (c : Choice) :
    (catalog.decidedChoices c).Nodup := by
  refine (nodup_assignAll (fun done e => ?_) [] _).map_on fun l hl l' hl' heq => ?_
  · unfold decideOptions
    dsimp only
    split <;> split <;> decide
  · -- Keys and flags are the same.
    obtain ⟨l, rfl, hkeys, -⟩ := mem_assignAll.mp hl
    obtain ⟨l', rfl, hkeys', -⟩ := mem_assignAll.mp hl'
    have hflags : l.map Prod.snd = l'.map Prod.snd := (Choice.mk.inj heq).2.2.2
    rw [← zip_unzip l, ← zip_unzip l', unzip_eq_map, unzip_eq_map, hkeys,
      hkeys', hflags]

theorem nodup_groupedChoices (catalog : Catalog) (c : Choice) :
    (catalog.groupedChoices c).Nodup := by
  refine nodup_flatMap_of_unique (nodup_assignAll (fun done kind => ?_) [] _)
    (fun groups _ => nodup_decidedChoices catalog _)
    fun groups hgroups groups' hgroups' d hd hd' => ?_
  · exact (Partition.nodup_all _).filter _
  · have hblocks := (frame_decidedChoices hd).2.2.symm.trans (frame_decidedChoices hd').2.2
    have hshape := shape_of_mem_groups hgroups
    have hshape' := shape_of_mem_groups hgroups'
    exact blocksOf_inj (hshape.1.trans hshape'.1.symm) hshape.2 hshape'.2 hblocks

/-- No complete choice is listed twice: what was decided first can be seen in the choice. -/
theorem nodup_completeChoices (h : catalog.WellBound) : catalog.completeChoices.Nodup := by
  have hcopied : ∀ c, (catalog.copiedChoices c).Nodup := by
    intro c
    refine nodup_flatMap_of_unique (nodup_assignAll (fun done b => ?_) [] _)
      (fun copies _ => nodup_groupedChoices catalog _) fun copies _ copies' _ d hd hd' => ?_
    · exact (h.source.nodup_symbolsOf b.kind).filter _
    · exact (frame_groupedChoices hd).2.symm.trans (frame_groupedChoices hd').2
  refine nodup_flatMap_of_unique
    (nodup_assignAll (fun done a => h.source.nodup_viableSources a) [] _)
    (fun sources _ => hcopied _) fun sources _ sources' _ d hd hd' => ?_
  exact (frame_copiedChoices hd).symm.trans (frame_copiedChoices hd')

end Catalog

end QueryRules
