import QueryRules.Proofs.CatalogEntries

/-!
# QueryRules — complete choices taken apart

A complete choice consists of functions: the source of an attribute list, what a target symbol
copies, the partition of a kind, the flag of an integrity constraint. Its assignment chooses
constraints, and what is chosen can be read off these functions.
-/

namespace QueryRules

open List Catalog

/-! ## What an assignment says -/

namespace Catalog

/-- The assignment draws an attribute list of the source from a symbol. -/
def Draws (catalog : Catalog) (flags : Assignment) (attrs source : Symbol) : Prop :=
  .attrsSub attrs source ∈ catalog.chosen flags

/-- The assignment lets a target symbol copy a source symbol. -/
def Copies (catalog : Catalog) (flags : Assignment) (target source : Symbol) : Prop :=
  .eq target.kind source target ∈ catalog.chosen flags

/-- The assignment makes two source symbols equal. The catalog has one constraint for both
orders. -/
def Equates (catalog : Catalog) (flags : Assignment) (a b : Symbol) : Prop :=
  a = b ∨ .eq a.kind a b ∈ catalog.chosen flags ∨ .eq a.kind b a ∈ catalog.chosen flags

/-- The assignment draws every attribute list of an integrity constraint from the table next to
it. -/
def Conforms (catalog : Catalog) (flags : Assignment) (e : Constraint) : Prop :=
  ∀ x ∈ Choice.columnsOf e, catalog.Draws flags x.2 x.1

end Catalog

/-! ## Complete choices taken apart -/

/-- The parts of a complete choice. -/
structure Parts where
  source : Symbol → Symbol
  copied : Symbol → Symbol
  partition : SymbolKind → Partition
  flag : Constraint → Bool

namespace Parts

variable {catalog : Catalog} {x y : Parts} {a b s : Symbol} {kind : SymbolKind} {e : Constraint}

def sources (x : Parts) (catalog : Catalog) : List (Symbol × Symbol) :=
  (catalog.source.symbolsOf .attrs).map fun a => (a, x.source a)

def copies (x : Parts) (targets : List Symbol) : List (Symbol × Symbol) :=
  targets.map fun b => (b, x.copied b)

def groups (x : Parts) (kinds : List SymbolKind) : List (SymbolKind × Partition) :=
  kinds.map fun kind => (kind, x.partition kind)

def decisions (x : Parts) (es : List Constraint) : List (Constraint × Bool) :=
  es.map fun e => (e, x.flag e)

/-- The choice with these parts. -/
def choice (x : Parts) (catalog : Catalog) : Choice :=
  ⟨x.sources catalog, x.copies catalog.targets, catalog.blocksOf (x.groups SymbolKind.all),
    catalog.integrity.map x.flag⟩

/-- The parts stay within the catalog. -/
structure Fits (x : Parts) (catalog : Catalog) : Prop where
  source : ∀ a ∈ catalog.source.symbolsOf .attrs, x.source a ∈ catalog.source.viableSources a
  copied : ∀ b ∈ catalog.targets, x.copied b ∈ catalog.source.symbolsOf b.kind
  partition : ∀ kind, x.partition kind ∈ Partition.all (catalog.source.symbolsOf kind).length

/-- The test that gives the assignment of the parts. -/
def on (x : Parts) (catalog : Catalog) : Constraint → Bool
  | .attrsSub a s => SearchTask.enables (x.choice catalog) (.attrsSub a s)
  | .eq kind a b => SearchTask.enables (x.choice catalog) (.eq kind a b)
  | e => x.flag e

/-- The assignment of the parts. -/
def flags (x : Parts) (catalog : Catalog) : Assignment :=
  catalog.entries.map (x.on catalog)

/-! ## What the parts say -/

section Reading

variable (h : catalog.WellBound) (hx : x.Fits catalog)

include h in
theorem nodup_targets : catalog.targets.Nodup := by
  unfold targets
  rw [nodup_append, nodup_append]
  refine ⟨⟨h.target.nodup_symbolsOf _, h.target.nodup_symbolsOf _, ?_⟩,
    h.target.nodup_symbolsOf _, ?_⟩
  · rintro a ha _ hb rfl
    cases (Template.kind_of_mem_symbolsOf ha).symm.trans (Template.kind_of_mem_symbolsOf hb)
  · rintro a ha _ hb rfl
    rcases mem_append.mp ha with ha | ha
    · cases (Template.kind_of_mem_symbolsOf ha).symm.trans (Template.kind_of_mem_symbolsOf hb)
    · cases (Template.kind_of_mem_symbolsOf ha).symm.trans (Template.kind_of_mem_symbolsOf hb)

theorem mem_targets : b ∈ catalog.targets ↔ b ∈ catalog.target.symbols := by
  unfold targets Template.symbolsOf
  simp only [mem_append, mem_filter, decide_eq_true_eq]
  rcases b with ⟨side, _ | _ | _, id⟩ <;> simp

theorem mem_targets_of_mem (hb : b ∈ catalog.target.symbolsOf kind) : b ∈ catalog.targets :=
  mem_targets.mpr (mem_of_mem_filter hb)

include h in
theorem source?_choice : (x.choice catalog).source? a = some s ↔
    a ∈ catalog.source.symbolsOf .attrs ∧ x.source a = s := by
  have hkeys : ((x.sources catalog).map Prod.fst).Nodup := by
    rw [sources, map_map]
    exact (map_id _).symm ▸ h.source.nodup_symbolsOf .attrs
  show (x.sources catalog).lookup a = some s ↔ _
  rw [lookup_eq_some_iff_mem hkeys, sources, mem_map]
  constructor
  · rintro ⟨a', ha', heq⟩
    cases heq
    exact ⟨ha', rfl⟩
  · rintro ⟨ha, rfl⟩
    exact ⟨a, ha, rfl⟩

theorem lookup_copies {targets : List Symbol} (hnodup : targets.Nodup) :
    (x.copies targets).lookup b = some a ↔ b ∈ targets ∧ x.copied b = a := by
  have hkeys : ((x.copies targets).map Prod.fst).Nodup := by
    rw [copies, map_map]
    exact (map_id _).symm ▸ hnodup
  rw [lookup_eq_some_iff_mem hkeys, copies, mem_map]
  constructor
  · rintro ⟨b', hb', heq⟩
    cases heq
    exact ⟨hb', rfl⟩
  · rintro ⟨hb, rfl⟩
    exact ⟨b, hb, rfl⟩

/-- The blocks of the symbols of one kind. -/
def blocks (x : Parts) (catalog : Catalog) (kind : SymbolKind) : List (Symbol × Nat) :=
  (catalog.source.symbolsOf kind).zip (x.partition kind)

include hx in
theorem map_fst_blocks : (x.blocks catalog kind).map Prod.fst = catalog.source.symbolsOf kind :=
  map_fst_zip (Nat.le_of_eq (Partition.length_of_mem_all (hx.partition kind)).symm)

theorem kind_of_mem_blocks {i : Nat} (hmem : (a, i) ∈ x.blocks catalog kind) : a.kind = kind :=
  Template.kind_of_mem_symbolsOf (of_mem_zip hmem).1

theorem mem_blocksOf {kinds : List SymbolKind} {i : Nat} :
    (a, i) ∈ catalog.blocksOf (x.groups kinds) ↔
      a.kind ∈ kinds ∧ (a, i) ∈ x.blocks catalog a.kind := by
  unfold blocksOf groups
  rw [flatMap_map, mem_flatMap]
  constructor
  · rintro ⟨kind, hkind, hmem⟩
    obtain rfl : a.kind = kind := kind_of_mem_blocks hmem
    exact ⟨hkind, hmem⟩
  · rintro ⟨hkind, hmem⟩
    exact ⟨a.kind, hkind, hmem⟩

include h hx in
theorem nodup_blocksOf {kinds : List SymbolKind} (hkinds : kinds.Nodup) :
    ((catalog.blocksOf (x.groups kinds)).map Prod.fst).Nodup := by
  unfold blocksOf groups
  rw [flatMap_map, map_flatMap]
  refine nodup_flatMap_of_unique hkinds (fun kind _ => ?_) fun kind _ kind' _ a ha ha' => ?_
  · show ((x.blocks catalog kind).map Prod.fst).Nodup
    rw [map_fst_blocks hx]
    exact h.source.nodup_symbolsOf kind
  · obtain ⟨⟨_, i⟩, hi, rfl⟩ := mem_map.mp ha
    obtain ⟨⟨_, i'⟩, hi', heq⟩ := mem_map.mp ha'
    cases heq
    exact (kind_of_mem_blocks hi).symm.trans (kind_of_mem_blocks hi')

include hx in
/-- Every source symbol is in a block. -/
theorem exists_block (ha : a ∈ catalog.source.symbols) :
    ∃ i, (a, i) ∈ x.blocks catalog a.kind := by
  have hmem : a ∈ (x.blocks catalog a.kind).map Prod.fst := by
    rw [map_fst_blocks hx]
    exact Template.mem_symbolsOf_kind ha
  obtain ⟨⟨_, i⟩, hi, rfl⟩ := mem_map.mp hmem
  exact ⟨i, hi⟩

include h hx in
/-- Two source symbols are equal if they are in one block. Only the partition of their kind
matters. -/
theorem isEq_iff_block {c : Choice} {kinds : List SymbolKind} (hkinds : kinds.Nodup)
    (hc : c.blocks = catalog.blocksOf (x.groups kinds)) (hkind : a.kind ∈ kinds)
    (ha : a ∈ catalog.source.symbols) : c.isEq a b = true ↔
      ∃ i, (a, i) ∈ x.blocks catalog a.kind ∧ (b, i) ∈ x.blocks catalog a.kind := by
  have hlookup : ∀ {d i}, d.kind = a.kind →
      (c.blocks.lookup d = some i ↔ (d, i) ∈ x.blocks catalog a.kind) := by
    intro d i hd
    rw [hc, lookup_eq_some_iff_mem (nodup_blocksOf h hx hkinds), mem_blocksOf, hd]
    exact and_iff_right hkind
  rw [Choice.isEq_iff]
  constructor
  · rintro (rfl | ⟨hkindEq, i, hai, hbi⟩)
    · obtain ⟨i, hi⟩ := exists_block hx ha
      exact ⟨i, hi, hi⟩
    · exact ⟨i, (hlookup rfl).mp hai, (hlookup hkindEq.symm).mp hbi⟩
  · rintro ⟨i, hai, hbi⟩
    have hbkind := kind_of_mem_blocks hbi
    exact .inr ⟨hbkind.symm, i, (hlookup rfl).mpr hai, (hlookup hbkind).mpr hbi⟩

include h hx in
theorem isEq_choice (ha : a ∈ catalog.source.symbols) : (x.choice catalog).isEq a b = true ↔
    ∃ i, (a, i) ∈ x.blocks catalog a.kind ∧ (b, i) ∈ x.blocks catalog a.kind :=
  isEq_iff_block h hx (by decide) rfl (by cases a.kind <;> decide) ha

/-! ## What the assignment of the parts chooses -/

theorem mem_chosen_flags : e ∈ catalog.chosen (x.flags catalog) ↔
    e ∈ catalog.entries ∧ x.on catalog e = true :=
  mem_chosen_map

include h hx in
theorem draws_iff : catalog.Draws (x.flags catalog) a s ↔
    a ∈ catalog.source.symbolsOf .attrs ∧ x.source a = s := by
  unfold Catalog.Draws
  rw [mem_chosen_flags]
  constructor
  · rintro ⟨-, hon⟩
    exact (source?_choice h).mp (of_decide_eq_true hon)
  · rintro ⟨ha, rfl⟩
    refine ⟨?_, decide_eq_true ((source?_choice h).mpr ⟨ha, rfl⟩)⟩
    rw [entries_eq]
    exact mem_append_left _ (mem_structural.mpr
      (.inl ⟨a, ha, x.source a, hx.source a ha, rfl⟩))

/-- An equality of the catalog is one of two source symbols or a copy. -/
theorem mem_entries_eq (he : .eq kind a b ∈ catalog.entries) :
    (a, b) ∈ pairs (catalog.source.symbolsOf kind) ∨
      (b ∈ catalog.target.symbolsOf kind ∧ a ∈ catalog.source.symbolsOf kind) := by
  rw [entries_eq, mem_append] at he
  rcases he with he | he
  · rcases mem_structural.mp he with ⟨_, _, _, _, heq⟩ | ⟨kind', a', b', hpair, heq⟩ |
      ⟨kind', b', hb', a', ha', heq⟩
    · cases heq
    · cases heq
      exact .inl hpair
    · cases heq
      exact .inr ⟨hb', ha'⟩
  · exact absurd rfl (columnsOf_ne_nil he)

include h hx in
/-- A flag of a copy says what was copied. -/
theorem copies_iff (hb : b ∈ catalog.targets) :
    catalog.Copies (x.flags catalog) b a ↔ x.copied b = a := by
  have hside : b.side = .target := h.target.numbers.sides b (mem_targets.mp hb)
  have hon : ∀ {a}, a.side = .source →
      (x.on catalog (.eq b.kind a b) = true ↔ x.copied b = a) := by
    intro a ha
    have hne : ¬ a.side = b.side := by
      rw [ha, hside]
      nofun
    show (if a.side = b.side then _ else _) = true ↔ _
    rw [if_neg hne, decide_eq_true_eq]
    show (x.copies catalog.targets).lookup b = some a ↔ _
    rw [lookup_copies (nodup_targets h)]
    exact and_iff_right hb
  unfold Catalog.Copies
  rw [mem_chosen_flags]
  constructor
  · rintro ⟨he, htest⟩
    rcases mem_entries_eq he with hpair | ⟨-, ha⟩
    · -- A pair consists of source symbols.
      have hmem : b ∈ catalog.source.symbolsOf b.kind :=
        snd_mem_of_mem_pairs hpair
      cases hside.symm.trans (h.source.side_of_mem hmem)
    · exact (hon (h.source.side_of_mem ha)).mp htest
  · rintro rfl
    have ha := hx.copied b hb
    refine ⟨?_, (hon (h.source.side_of_mem ha)).mpr rfl⟩
    rw [entries_eq]
    refine mem_append_left _ (mem_structural.mpr (.inr (.inr ⟨b.kind, b, ?_, _, ha,
      rfl⟩)))
    exact mem_filter.mpr ⟨mem_targets.mp hb, decide_eq_true rfl⟩

include h in
/-- An equality of two source symbols is chosen as the choice says. -/
theorem on_pair (hpair : (a, b) ∈ pairs (catalog.source.symbolsOf kind)) :
    .eq kind a b ∈ catalog.chosen (x.flags catalog) ↔ (x.choice catalog).isEq a b = true := by
  have hsub := mem_pairs_iff.mp hpair
  have ha := h.source.side_of_mem (hsub.subset mem_cons_self)
  have hb := h.source.side_of_mem (hsub.subset (mem_cons_of_mem _ mem_cons_self))
  have hentry : .eq kind a b ∈ catalog.entries := by
    rw [entries_eq]
    exact mem_append_left _ (mem_structural.mpr
      (.inr (.inl ⟨kind, a, b, hpair, rfl⟩)))
  rw [mem_chosen_flags, and_iff_right hentry]
  show (if a.side = b.side then _ else _) = true ↔ _
  rw [if_pos (ha.trans hb.symm)]

include h in
/-- A flag of an equality says that two symbols share a class. -/
theorem equates_iff (ha : a ∈ catalog.source.symbols) (hb : b ∈ catalog.source.symbols) :
    catalog.Equates (x.flags catalog) a b ↔ (x.choice catalog).isEq a b = true := by
  have hpairOf : ∀ {kind c d}, d ∈ catalog.source.symbols →
      .eq kind c d ∈ catalog.chosen (x.flags catalog) → (x.choice catalog).isEq c d = true := by
    intro kind c d hd hchosen
    rcases mem_entries_eq (mem_entries_of_mem_chosen hchosen) with hpair | ⟨htarget, -⟩
    · exact (on_pair h hpair).mp hchosen
    · cases (h.source.numbers.sides d hd).symm.trans (h.target.side_of_mem htarget)
  unfold Catalog.Equates
  constructor
  · rintro (rfl | hab | hba)
    · exact Choice.isEq_refl _ a
    · exact hpairOf hb hab
    · rw [Choice.isEq_comm]
      exact hpairOf ha hba
  · intro heq
    by_cases hab : a = b
    · exact .inl hab
    have hkind : a.kind = b.kind := ((Choice.isEq_iff.mp heq).resolve_left hab).1
    have ha' : a ∈ catalog.source.symbolsOf a.kind := Template.mem_symbolsOf_kind ha
    have hb' : b ∈ catalog.source.symbolsOf a.kind :=
      mem_filter.mpr ⟨hb, decide_eq_true hkind.symm⟩
    -- The catalog has one of the two orders.
    rcases mem_pairs ha' hb' hab with hpair | hpair
    · exact .inr (.inl ((on_pair h hpair).mpr heq))
    · rw [Choice.isEq_comm] at heq
      exact .inr (.inr ((on_pair h hpair).mpr heq))

theorem on_integrity (he : e ∈ catalog.integrity) : x.on catalog e = x.flag e := by
  have hne := columnsOf_ne_nil he
  cases e with
  | attrsSub | eq => exact absurd rfl hne
  | unique | notNull | reference => rfl

/-- Integrity constraints are chosen by their flags. -/
theorem chosen_iff (he : e ∈ catalog.integrity) :
    e ∈ catalog.chosen (x.flags catalog) ↔ x.flag e = true := by
  have hentry : e ∈ catalog.entries := by
    rw [entries_eq]
    exact mem_append_right _ he
  rw [mem_chosen_flags, and_iff_right hentry, on_integrity he]

include h hx in
theorem conforms_iff : catalog.Conforms (x.flags catalog) e ↔
    (x.choice catalog).conforms e = true := by
  unfold Catalog.Conforms Choice.conforms
  rw [all_eq_true]
  refine forall_congr' fun col => imp_congr_right fun _ => ?_
  rw [draws_iff h hx, decide_eq_true_eq, source?_choice h]

/-- The assignment of the parts is the one of their choice. -/
theorem flags_eq (settings : Settings) (oracle : Oracle) (clock : Nat → Nat) :
    (SearchTask.ofCatalog catalog settings oracle clock).flags (x.choice catalog) false =
      x.flags catalog := by
  rw [SearchTask.flags_ofCatalog,
    show (x.choice catalog).integrity = catalog.integrity.map x.flag from rfl, length_map,
    Nat.sub_self, replicate_zero, append_nil, flags, entries_eq, map_append]
  congr 1
  · refine map_congr_left fun e he => ?_
    rcases mem_structural.mp he with ⟨_, _, _, _, rfl⟩ | ⟨_, _, _, _, rfl⟩ |
      ⟨_, _, _, _, _, rfl⟩
    · rfl
    · rfl
    · rfl
  · exact map_congr_left fun e he => (on_integrity he).symm

end Reading

end Parts

/-! ## Symbols of what is chosen -/

namespace Catalog

variable {catalog : Catalog} {flags : Assignment}

/-- The symbols of an equality or a source that is chosen belong to the catalog. -/
theorem mem_viableSources_of_draws {a s : Symbol} (hdraws : catalog.Draws flags a s) :
    s ∈ catalog.source.viableSources a := by
  have hentry := mem_entries_of_mem_chosen hdraws
  rw [entries_eq, mem_append] at hentry
  rcases hentry with hstruct | hintegrity
  · rcases mem_structural.mp hstruct with ⟨_, _, _, hs, heq⟩ | ⟨_, _, _, _, heq⟩ |
      ⟨_, _, _, _, _, heq⟩
    · cases heq
      exact hs
    · cases heq
    · cases heq
  · exact absurd rfl (columnsOf_ne_nil hintegrity)

theorem mem_symbolsOf_of_copies (h : catalog.WellBound) {a b : Symbol}
    (hb : b ∈ catalog.target.symbols) (hcopies : catalog.Copies flags b a) :
    a ∈ catalog.source.symbolsOf b.kind := by
  rcases Parts.mem_entries_eq (mem_entries_of_mem_chosen hcopies) with hpair | ⟨-, ha⟩
  · have hmem : b ∈ catalog.source.symbolsOf b.kind :=
      snd_mem_of_mem_pairs hpair
    cases (h.target.numbers.sides b hb).symm.trans (h.source.side_of_mem hmem)
  · exact ha

/-- The catalog has two source symbols in one order only, that of their numbers. -/
theorem not_mem_entries_swap (h : catalog.WellBound) {kind : SymbolKind} {a b : Symbol}
    (hpair : (a, b) ∈ pairs (catalog.source.symbolsOf kind)) : .eq kind b a ∉ catalog.entries := by
  have hlt : ∀ {c d}, (c, d) ∈ pairs (catalog.source.symbolsOf kind) → c.id < d.id := by
    intro c d hcd
    have hsorted := (h.source.pairwise_lt.filter _).sublist (mem_pairs_iff.mp hcd)
    exact (pairwise_cons.mp hsorted).1 d mem_cons_self
  have ha : a ∈ catalog.source.symbolsOf kind := fst_mem_of_mem_pairs hpair
  intro hswap
  rcases Parts.mem_entries_eq hswap with hpair' | ⟨htarget, -⟩
  · exact absurd (hlt hpair) (Nat.lt_asymm (hlt hpair'))
  · cases (h.source.side_of_mem ha).symm.trans (h.target.side_of_mem htarget)

end Catalog

end QueryRules
