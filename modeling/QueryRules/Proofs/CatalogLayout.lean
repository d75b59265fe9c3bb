import QueryRules.Proofs.RuleTexts

/-!
# QueryRules — the layout of a catalog

A search fixes flags by place: by the span of a kind, the span of one symbol, or the place of one
constraint. All of these are numbers that are recorded while the constraints are listed, so they
have to agree with the list.
-/

namespace QueryRules

open List

/-! ## Spans -/

namespace Span

instance : Membership Nat Span where
  mem s i := s.start ≤ i ∧ i < s.stop

instance (i : Nat) (s : Span) : Decidable (i ∈ s) :=
  inferInstanceAs (Decidable (_ ∧ _))

theorem mem_iff {s : Span} {i : Nat} : i ∈ s ↔ s.start ≤ i ∧ i < s.stop := Iff.rfl

/-- Spans that follow each other without a gap, from one place to another. -/
def Chain : Nat → List Span → Nat → Prop
  | first, [], last => first = last
  | first, s :: spans, last => s.start = first ∧ s.start ≤ s.stop ∧ Chain s.stop spans last

/-- Two spans that follow each other hold together what lies between their ends. -/
theorem mem_join {s t : Span} {i : Nat} (h : Chain s.start [s, t] t.stop) :
    i ∈ (⟨s.start, t.stop⟩ : Span) ↔ i ∈ s ∨ i ∈ t := by
  obtain ⟨-, hs, hmeet, ht, -⟩ := h
  simp only [mem_iff]
  omega

end Span

namespace Catalog

variable {catalog : Catalog} {b : Block} {e : Constraint} {i : Nat}

/-! ## Consecutive spans -/

theorem start_eq {before after : List Block} (hsplit : Block.all = before ++ b :: after) :
    catalog.start b = (before.flatMap catalog.block).length := by
  have hnodup : Block.all.Nodup := by decide
  have hb : b ∉ before := by
    rw [hsplit] at hnodup
    exact fun hmem => (nodup_append.mp hnodup).2.2 b hmem b mem_cons_self rfl
  unfold start
  rw [hsplit, takeWhile_ne_append hb]

/-- The blocks from some block on fill the places up to the last one. -/
theorem chain_blocks (catalog : Catalog) (after : List Block) :
    ∀ before, Block.all = before ++ after →
      Span.Chain (before.flatMap catalog.block).length (after.map catalog.blockSpan)
        catalog.entries.length := by
  rw [entries_eq_blocks]
  induction after with
  | nil =>
    intro before hsplit
    rw [hsplit, append_nil]
    rfl
  | cons b after ih =>
    intro before hsplit
    have hstart : catalog.start b = (before.flatMap catalog.block).length := start_eq hsplit
    have hrest := ih (before ++ [b]) (by rw [hsplit, append_assoc]; rfl)
    rw [flatMap_append, flatMap_singleton, length_append, ← hstart] at hrest
    exact ⟨hstart, Nat.le_add_right _ _, hrest⟩

/-- The spans of the kinds join the spans of the blocks. -/
theorem chain_kinds (catalog : Catalog) :
    Span.Chain 0 (ConstraintKind.all.map catalog.kindSpan) catalog.entries.length := by
  have hblocks := chain_blocks catalog Block.all [] rfl
  simp only [Block.all, ConstraintKind.all, List.map, Span.Chain, kindSpan_eq, layout,
    flatMap_nil, length_nil] at hblocks ⊢
  omega

/-- The copies of a kind follow the equalities of the kind. -/
theorem chain_eqs (catalog : Catalog) (kind : SymbolKind) :
    Span.Chain (catalog.blockSpan (.eq kind)).start
      [catalog.blockSpan (.eq kind), catalog.blockSpan (.copies kind)]
      (catalog.blockSpan (.copies kind)).stop := by
  have hblocks := chain_blocks catalog Block.all [] rfl
  simp only [Block.all, List.map, Span.Chain, true_and, and_true] at hblocks ⊢
  cases kind <;> omega

/-- The places of a kind are those of its blocks. -/
theorem mem_kindSpan_iff_blockSpan {kind : ConstraintKind} :
    i ∈ catalog.kindSpan kind ↔ ∃ b : Block, b.constraintKind = kind ∧ i ∈ catalog.blockSpan b := by
  cases kind with
  | eq kind =>
    rw [kindSpan_eq]
    show i ∈ (⟨(catalog.blockSpan (.eq kind)).start, (catalog.blockSpan (.copies kind)).stop⟩ :
      Span) ↔ _
    rw [Span.mem_join (chain_eqs catalog kind)]
    constructor
    · rintro (hi | hi)
      · exact ⟨_, rfl, hi⟩
      · exact ⟨_, rfl, hi⟩
    · rintro ⟨b, hb, hi⟩
      cases b <;> cases hb
      · exact .inl hi
      · exact .inr hi
  | _ =>
    rw [kindSpan_eq]
    refine ⟨fun hi => ⟨_, rfl, hi⟩, ?_⟩
    rintro ⟨b, hb, hi⟩
    cases b <;> cases hb
    exact hi

theorem constraintKind_blockOf (e : Constraint) : (blockOf e).constraintKind = e.kind := by
  cases e with
  | eq kind x y => cases hy : y.side <;> simp [blockOf, Block.constraintKind, Constraint.kind, hy]
  | _ => rfl

/-! ## What stands at a place -/

section Places

variable (h : catalog.WellBound)

include h

/-- A constraint of the catalog stands in its block. -/
theorem mem_block_of_mem_entries (he : e ∈ catalog.entries) : e ∈ catalog.block (blockOf e) := by
  rw [entries_eq_blocks] at he
  obtain ⟨b, -, hb⟩ := mem_flatMap.mp he
  rwa [blockOf_of_mem h hb]

/-- The constraint at a place is at no other. -/
theorem place_unique {j : Nat} (hi : catalog.entries[i]? = some e)
    (hj : catalog.entries[j]? = some e) : i = j := by
  have hlt : i < catalog.entries.length := (List.getElem?_eq_some_iff.mp hi).1
  exact (getElem?_inj hlt (nodup_entries h)).mp (hi.trans hj.symm)

/-- A span of places holds what stands in the slice it was recorded for. As no constraint stands
twice, it holds all of it. -/
theorem mem_slice_iff {before slice after : List Constraint} {test : Constraint → Prop}
    (hsplit : catalog.entries = before ++ slice ++ after)
    (htest : ∀ e ∈ catalog.entries, test e ↔ e ∈ slice) :
    i ∈ (⟨before.length, before.length + slice.length⟩ : Span) ↔
      ∃ e, catalog.entries[i]? = some e ∧ test e := by
  have hat : ∀ k, k < slice.length → catalog.entries[before.length + k]? = slice[k]? := by
    intro k hk
    rw [hsplit, append_assoc, getElem?_append_right (Nat.le_add_right _ _),
      Nat.add_sub_cancel_left, getElem?_append_left hk]
  rw [Span.mem_iff]
  constructor
  · rintro ⟨hle, hlt⟩
    obtain ⟨k, rfl⟩ := Nat.exists_eq_add_of_le hle
    have hk : k < slice.length := Nat.lt_of_add_lt_add_left hlt
    have hentry : catalog.entries[before.length + k]? = some slice[k] := by
      rw [hat k hk, getElem?_eq_getElem hk]
    refine ⟨slice[k], hentry, (htest _ (mem_of_getElem? hentry)).mpr (getElem_mem hk)⟩
  · rintro ⟨e, hentry, he⟩
    obtain ⟨k, hk, rfl⟩ :=
      mem_iff_getElem.mp ((htest e (mem_of_getElem? hentry)).mp he)
    -- The constraint stands in the slice, and it stands nowhere else.
    obtain rfl := place_unique h hentry ((hat k hk).trans (getElem?_eq_getElem hk))
    dsimp only
    omega

/-- The places of a block are those of the constraints that belong to it. -/
theorem mem_blockSpan_iff :
    i ∈ catalog.blockSpan b ↔ ∃ e, catalog.entries[i]? = some e ∧ blockOf e = b := by
  obtain ⟨before, after, hsplit, hlen⟩ := entries_split catalog b
  unfold blockSpan
  rw [← hlen]
  refine mem_slice_iff h hsplit fun e he => ⟨?_, blockOf_of_mem h⟩
  rintro rfl
  exact mem_block_of_mem_entries h he

/-- A look-up in a map finds the constraints of its blocks, at their places. -/
theorem place?_eq_some_iff {m : PlaceMap} {a a' : Symbol} :
    catalog.index.place? m a a' = some i ↔
      catalog.entries[i]? = some (m.constraint a a') ∧ blockOf (m.constraint a a') ∈ m.blocks := by
  constructor
  · intro hplace
    obtain ⟨hentry, b, hb, hkey⟩ := getElem?_of_place hplace
    have hmem : m.constraint a a' ∈ catalog.block b := by
      rw [block_eq_map_keys hb]
      exact mem_map_of_mem (f := fun p => m.constraint p.1 p.2) hkey
    exact ⟨hentry, (blockOf_of_mem h hmem).symm ▸ hb⟩
  · rintro ⟨hentry, hb⟩
    have hmem := mem_block_of_mem_entries h (mem_of_getElem? hentry)
    rw [block_eq_map_keys hb] at hmem
    obtain ⟨p, hkey, heq⟩ := mem_map.mp hmem
    obtain rfl : p = (a, a') := PlaceMap.constraint_inj heq
    obtain ⟨j, hj⟩ := Option.isSome_iff_exists.mp (isSome_place hb hkey)
    rw [hj, place_unique h hentry (getElem?_of_place hj).1]

/-- The two symbols of an equality have its kind, and the first is of the source. -/
theorem eq_of_mem_entries {kind : SymbolKind} {x y : Symbol} (he : .eq kind x y ∈ catalog.entries) :
    x.kind = kind ∧ y.kind = kind ∧ x.side = .source := by
  rcases Parts.mem_entries_eq he with hpair | ⟨hy, hx⟩
  · have hsub := (Catalog.mem_pairs_iff.mp hpair).subset
    have hx := hsub mem_cons_self
    have hy := hsub (mem_cons_of_mem _ mem_cons_self)
    exact ⟨Template.kind_of_mem_symbolsOf hx, Template.kind_of_mem_symbolsOf hy,
      h.source.side_of_mem hx⟩
  · exact ⟨Template.kind_of_mem_symbolsOf hx, Template.kind_of_mem_symbolsOf hy,
      h.source.side_of_mem hx⟩

/-- The equality of two source symbols belongs to the equalities, that with a target symbol to the
copies. -/
theorem blockOf_eq_iff {kind : SymbolKind} (side : Side) (he : e ∈ catalog.entries) :
    blockOf e = (if side = .source then .eq kind else .copies kind) ↔
      e.kind = .eq kind ∧ e.symbols.map (·.side) = [.source, side] := by
  cases e with
  | eq k x y =>
    have hx : x.side = .source := (eq_of_mem_entries h he).2.2
    cases hy : y.side <;> cases side <;> simp [blockOf, Constraint.kind, Constraint.symbols, hx, hy]
  | _ => cases side <;> simp [blockOf, Constraint.kind]

/-- The span of a kind holds the places of the constraints of this kind. -/
theorem mem_kindSpan_iff {kind : ConstraintKind} :
    i ∈ catalog.kindSpan kind ↔ ∃ e, catalog.entries[i]? = some e ∧ e.kind = kind := by
  rw [mem_kindSpan_iff_blockSpan]
  constructor
  · rintro ⟨b, rfl, hi⟩
    obtain ⟨e, hentry, rfl⟩ := (mem_blockSpan_iff h).mp hi
    exact ⟨e, hentry, (constraintKind_blockOf e).symm⟩
  · rintro ⟨e, hentry, rfl⟩
    exact ⟨blockOf e, constraintKind_blockOf e, (mem_blockSpan_iff h).mpr ⟨e, hentry, rfl⟩⟩

/-- Every place belongs to one kind. -/
theorem existsUnique_kindSpan :
    i < catalog.entries.length ↔ ∃! kind, i ∈ catalog.kindSpan kind := by
  simp only [mem_kindSpan_iff h]
  constructor
  · intro hlt
    refine ⟨_, ⟨_, getElem?_eq_getElem hlt, rfl⟩, ?_⟩
    rintro kind ⟨e, hentry, rfl⟩
    rw [getElem?_eq_getElem hlt] at hentry
    rw [Option.some.inj hentry]
  · rintro ⟨kind, ⟨e, hentry, -⟩, -⟩
    exact (List.getElem?_eq_some_iff.mp hentry).1

/-- The constraints of a catalog pass the check of the symbols' kinds. The names of the symbols play
no part. -/
theorem ofSymbols_of_mem_entries (he : e ∈ catalog.entries) :
    Constraint.ofSymbols e.kind e.symbols = .ok e := by
  let names : Names :=
    ⟨(catalog.source.symbols ++ catalog.target.symbols).map fun s => (s, ""), [], 0, 0, 0⟩
  have hnamed : names.symbols = catalog.source.symbols ++ catalog.target.symbols := by
    unfold Names.symbols
    rw [map_map]
    exact map_id _
  have hfits : e.Fits names :=
    fits_of_mem_entries (⟨h.source, h.target⟩ : WellBound ⟨catalog.source, catalog.target, names⟩)
      hnamed he
  exact hfits.accepted

/-! ## Look-ups -/

omit h in
/-- Whether an equality belongs to the equalities or to the copies is up to its second symbol. -/
theorem blockOf_eq_mem_iff {kind : SymbolKind} {x y : Symbol} {m : PlaceMap} {side : Side}
    (hm : m.blocks = SymbolKind.all.map (if side = .source then .eq else .copies)) :
    blockOf (.eq kind x y) ∈ m.blocks ↔ y.side = side := by
  rw [hm]
  cases hy : y.side <;> cases side <;> cases kind <;> simp [blockOf, hy, SymbolKind.all]

/-- The place of an equality is found for either order of its sides. -/
theorem eqPlace?_eq_some_iff {a b : Symbol} :
    catalog.eqPlace? a b = some i ↔ a.side = .source ∧ b.side = .source ∧
      ∃ kind, catalog.entries[i]? = some (.eq kind a b) ∨
        catalog.entries[i]? = some (.eq kind b a) := by
  have hplace : ∀ {x y}, catalog.index.place? .eq x y = some i ↔
      catalog.entries[i]? = some (.eq x.kind x y) ∧ y.side = .source := by
    intro x y
    rw [place?_eq_some_iff h]
    exact and_congr Iff.rfl (blockOf_eq_mem_iff rfl)
  unfold eqPlace?
  rw [Option.orElse_eq_some, hplace, hplace]
  constructor
  · rintro (⟨hentry, hb⟩ | ⟨-, hentry, ha⟩)
    · exact ⟨(eq_of_mem_entries h (mem_of_getElem? hentry)).2.2, hb, _, .inl hentry⟩
    · exact ⟨ha, (eq_of_mem_entries h (mem_of_getElem? hentry)).2.2, _, .inr hentry⟩
  · rintro ⟨ha, hb, kind, hentry | hentry⟩
    · obtain ⟨rfl, -, -⟩ := eq_of_mem_entries h (mem_of_getElem? hentry)
      exact .inl ⟨hentry, hb⟩
    · have hmem := mem_of_getElem? hentry
      obtain ⟨rfl, hkind, -⟩ := eq_of_mem_entries h hmem
      refine .inr ⟨?_, hentry, ha⟩
      -- A pair stands in one order only.
      by_contra hsome
      obtain ⟨j, hj⟩ := Option.ne_none_iff_exists'.mp hsome
      exact not_mem_entries_swap h (mem_pairs_of_place hj) (hkind ▸ hmem)

theorem copyPlace?_eq_some_iff {source target : Symbol} :
    catalog.copyPlace? source target = some i ↔ target.side = .target ∧
      ∃ kind, catalog.entries[i]? = some (.eq kind source target) := by
  have hplace : catalog.copyPlace? source target = some i ↔
      catalog.entries[i]? = some (.eq target.kind source target) ∧ target.side = .target :=
    (place?_eq_some_iff h).trans (and_congr Iff.rfl (blockOf_eq_mem_iff rfl))
  rw [hplace]
  constructor
  · rintro ⟨hentry, hside⟩
    exact ⟨hside, _, hentry⟩
  · rintro ⟨hside, kind, hentry⟩
    obtain ⟨-, rfl, -⟩ := eq_of_mem_entries h (mem_of_getElem? hentry)
    exact ⟨hentry, hside⟩

theorem subPlace?_eq_some_iff {attrs source : Symbol} :
    catalog.subPlace? attrs source = some i ↔
      catalog.entries[i]? = some (.attrsSub attrs source) :=
  (place?_eq_some_iff h).trans (and_iff_left (mem_singleton_self _))

theorem viable_of_mem_entries {attrs source : Symbol}
    (he : .attrsSub attrs source ∈ catalog.entries) :
    attrs ∈ catalog.source.symbolsOf .attrs ∧ source ∈ catalog.source.viableSources attrs := by
  obtain ⟨a, ha, hmem⟩ := mem_flatMap.mp (mem_block_of_mem_entries h he)
  obtain ⟨s, hs, heq⟩ := mem_map.mp hmem
  cases heq
  exact ⟨ha, hs⟩

/-- The span of an attribute list holds its sources. -/
theorem mem_subSpan_iff {attrs : Symbol} :
    i ∈ catalog.subSpan attrs ↔
      ∃ source, catalog.entries[i]? = some (.attrsSub attrs source) := by
  have hexists : (∃ source, catalog.entries[i]? = some (.attrsSub attrs source)) ↔
      ∃ e, catalog.entries[i]? = some e ∧ ∃ source, .attrsSub attrs source = e := by
    simp
  by_cases ha : attrs ∈ catalog.source.symbolsOf .attrs
  · obtain ⟨before, after, hsplit, hspan⟩ := subSpan_split ha
    rw [hexists, hspan, ← length_map (Constraint.attrsSub attrs)]
    refine mem_slice_iff h hsplit fun e he => ?_
    rw [mem_map]
    constructor
    · rintro ⟨source, rfl⟩
      exact ⟨source, (viable_of_mem_entries h he).2, rfl⟩
    · rintro ⟨source, -, rfl⟩
      exact ⟨source, rfl⟩
  · constructor
    · intro hi
      unfold subSpan at hi
      rw [symbolSpan_eq_empty fun b hb => mem_singleton.mp hb ▸ ha] at hi
      exact absurd hi.2 (Nat.not_lt_zero _)
    · rintro ⟨source, hentry⟩
      exact absurd (viable_of_mem_entries h (mem_of_getElem? hentry)).1 ha

/-- The span of a target symbol holds its copies. -/
theorem mem_copySpan_iff {target : Symbol} :
    i ∈ catalog.copySpan target ↔ target.side = .target ∧
      ∃ kind source, catalog.entries[i]? = some (.eq kind source target) := by
  -- An equality whose second side is in the target is a copy.
  have hsources : ∀ {kind source}, target.side = .target →
      .eq kind source target ∈ catalog.entries → target ∈ catalog.target.symbolsOf target.kind ∧
        source ∈ catalog.source.symbolsOf target.kind ∧ target.kind = kind := by
    intro kind source hside he
    obtain ⟨-, hkind, -⟩ := eq_of_mem_entries h he
    rcases Parts.mem_entries_eq he with hpair | ⟨ht, hs⟩
    · have ht := Catalog.snd_mem_of_mem_pairs hpair
      rw [h.source.side_of_mem ht] at hside
      cases hside
    · rw [hkind]
      exact ⟨ht, hs, rfl⟩
  have hexists : (target.side = .target ∧
        ∃ kind source, catalog.entries[i]? = some (.eq kind source target)) ↔
      ∃ e, catalog.entries[i]? = some e ∧ target.side = .target ∧
        ∃ kind source, .eq kind source target = e := by
    constructor
    · rintro ⟨hside, kind, source, hentry⟩
      exact ⟨_, hentry, hside, kind, source, rfl⟩
    · rintro ⟨_, hentry, hside, kind, source, rfl⟩
      exact ⟨hside, kind, source, hentry⟩
  by_cases ht : target ∈ catalog.target.symbolsOf target.kind
  · obtain ⟨before, after, hsplit, hspan⟩ := copySpan_split ht
    rw [hexists, hspan, ← length_map (Constraint.eq target.kind · target)]
    refine mem_slice_iff h hsplit fun e he => ?_
    rw [mem_map]
    constructor
    · rintro ⟨hside, kind, source, rfl⟩
      obtain ⟨-, hs, rfl⟩ := hsources hside he
      exact ⟨source, hs, rfl⟩
    · rintro ⟨source, -, rfl⟩
      exact ⟨h.target.side_of_mem ht, _, source, rfl⟩
  · constructor
    · intro hi
      have hnot : ∀ b ∈ PlaceMap.copy.blocks, target ∉ catalog.owners b := by
        rintro b hb howner
        obtain ⟨kind, -, rfl⟩ := mem_map.mp hb
        exact ht (Template.kind_of_mem_symbolsOf howner ▸ howner)
      unfold copySpan at hi
      rw [symbolSpan_eq_empty hnot] at hi
      exact absurd hi.2 (Nat.not_lt_zero _)
    · rintro ⟨hside, kind, source, hentry⟩
      exact absurd (hsources hside (mem_of_getElem? hentry)).1 ht

end Places

/-! ## The layout -/

/-- The spans and look-ups of a catalog agree with its list of constraints. -/
structure Laid (catalog : Catalog) : Prop where
  nodup : catalog.entries.Nodup
  /-- The spans of the kinds follow each other from the first place to the last. -/
  consecutive : Span.Chain 0 (ConstraintKind.all.map catalog.kindSpan) catalog.entries.length
  partition : ∀ i, i < catalog.entries.length ↔ ∃! kind, i ∈ catalog.kindSpan kind
  kindSpan : ∀ kind i,
    i ∈ catalog.kindSpan kind ↔ ∃ e, catalog.entries[i]? = some e ∧ e.kind = kind
  accepted : ∀ e ∈ catalog.entries, Constraint.ofSymbols e.kind e.symbols = .ok e
  /-- The equalities within the source come first, then the copies. -/
  eqs : ∀ kind, Span.Chain (catalog.kindSpan (.eq kind)).start
    [catalog.eqsSpan kind, catalog.copiesSpan kind]
    (catalog.kindSpan (.eq kind)).stop
  withinSource : ∀ kind i, i ∈ catalog.eqsSpan kind ↔ ∃ e, catalog.entries[i]? = some e ∧
    e.kind = .eq kind ∧ e.symbols.map (·.side) = [.source, .source]
  copies : ∀ kind i, i ∈ catalog.copiesSpan kind ↔ ∃ e, catalog.entries[i]? = some e ∧
    e.kind = .eq kind ∧ e.symbols.map (·.side) = [.source, .target]
  eqPlace : ∀ a b i, catalog.eqPlace? a b = some i ↔ a.side = .source ∧ b.side = .source ∧
    ∃ kind, catalog.entries[i]? = some (.eq kind a b) ∨ catalog.entries[i]? = some (.eq kind b a)
  copyPlace : ∀ source target i, catalog.copyPlace? source target = some i ↔
    target.side = .target ∧ ∃ kind, catalog.entries[i]? = some (.eq kind source target)
  subPlace : ∀ attrs source i, catalog.subPlace? attrs source = some i ↔
    catalog.entries[i]? = some (.attrsSub attrs source)
  subSpan : ∀ attrs i, i ∈ catalog.subSpan attrs ↔
    ∃ source, catalog.entries[i]? = some (.attrsSub attrs source)
  copySpan : ∀ target i, i ∈ catalog.copySpan target ↔ target.side = .target ∧
    ∃ kind source, catalog.entries[i]? = some (.eq kind source target)

/-- **The layout of a catalog agrees with its constraints**, if the two templates were read,
whatever was named before. -/
theorem layout_of_reads {source target : String} {s t : Template}
    {first second third fourth : Names}
    (hsource : Template.read source .source first = (.ok s, second))
    (htarget : Template.read target .target third = (.ok t, fourth)) (names : Names) :
    Laid ⟨s, t, names⟩ := by
  have h : WellBound ⟨s, t, names⟩ :=
    ⟨Template.wellBound_of_read hsource, Template.wellBound_of_read htarget⟩
  refine ⟨nodup_entries h, chain_kinds _, fun i => existsUnique_kindSpan h,
    fun kind i => mem_kindSpan_iff h, fun e he => ofSymbols_of_mem_entries h he, fun kind => ?_,
    fun kind i => ?_, fun kind i => ?_, fun a b i => eqPlace?_eq_some_iff h,
    fun a b i => copyPlace?_eq_some_iff h, fun a b i => subPlace?_eq_some_iff h,
    fun a i => mem_subSpan_iff h, fun a i => mem_copySpan_iff h⟩
  · rw [eqsSpan_eq, copiesSpan_eq, kindSpan_eq]
    exact chain_eqs _ kind
  · rw [eqsSpan_eq, mem_blockSpan_iff h]
    exact exists_congr fun e => and_congr_right fun hentry =>
      blockOf_eq_iff h .source (mem_of_getElem? hentry)
  · rw [copiesSpan_eq, mem_blockSpan_iff h]
    exact exists_congr fun e => and_congr_right fun hentry =>
      blockOf_eq_iff h .target (mem_of_getElem? hentry)

/-- A join against a single table: no kind but the equality of predicates is without entries. -/
theorem layout_of_reads_join :
    ∃ catalog, (⟨"InnerJoin<a0 a1>(Input<t0>,Input<t1>)", "Input<t2>"⟩ :
        TemplatePair).catalog = .ok catalog ∧
      ConstraintKind.all.map catalog.kindSpan =
        [⟨0, 2⟩, ⟨2, 5⟩, ⟨5, 6⟩, ⟨6, 6⟩, ⟨6, 8⟩, ⟨8, 10⟩, ⟨10, 12⟩] ∧ Laid catalog := by
  have hspans : ((⟨"InnerJoin<a0 a1>(Input<t0>,Input<t1>)", "Input<t2>"⟩ :
      TemplatePair).catalog.toOption.any fun catalog =>
        ConstraintKind.all.map catalog.kindSpan =
          [⟨0, 2⟩, ⟨2, 5⟩, ⟨5, 6⟩, ⟨6, 6⟩, ⟨6, 8⟩, ⟨8, 10⟩, ⟨10, 12⟩]) = true := by
    decide +kernel
  unfold TemplatePair.catalog at hspans ⊢
  rcases hsource : Template.read "InnerJoin<a0 a1>(Input<t0>,Input<t1>)" .source Names.empty with
    ⟨source, first⟩
  rcases htarget : Template.read "Input<t2>" .target first with ⟨target, names⟩
  simp only [hsource, htarget] at hspans ⊢
  cases source with
  | error e => cases hspans
  | ok s =>
    cases target with
    | error e => cases hspans
    | ok t => exact ⟨_, rfl, of_decide_eq_true hspans, layout_of_reads hsource htarget names⟩

end Catalog

end QueryRules
