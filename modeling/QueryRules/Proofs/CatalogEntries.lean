import QueryRules.Proofs.DryRuns

/-!
# QueryRules — assignments and the constraints they choose

An assignment is a list of flags, and what it says is which constraints of the catalog it chooses.
In the catalog of two templates that were read no constraint stands twice, so an assignment of the
right length is known from what it chooses (`Catalog.eq_map_chosen`).
-/

namespace QueryRules

open List Constraint

namespace Catalog

variable {catalog : Catalog} {e : Constraint} {flags : Assignment} {kind : SymbolKind}

/-! ## The constraints of a catalog -/

/-- Structural constraints come first, then the integrity constraints. -/
theorem entries_eq (catalog : Catalog) :
    catalog.entries = catalog.structural ++ catalog.integrity := by
  unfold structural integrity
  rw [entries_eq_blocks, ← take_append_drop 7 Block.all, flatMap_append]
  show _ ++ [Block.unique, .notNull, .reference].flatMap catalog.block = _
  rw [flatMap_cons, flatMap_cons, flatMap_singleton, append_assoc]
  rfl

/-- The structural constraints: sources, equalities, copies. -/
theorem mem_structural : e ∈ catalog.structural ↔
    (∃ a ∈ catalog.source.symbolsOf .attrs, ∃ s ∈ catalog.source.viableSources a,
        e = .attrsSub a s) ∨
      (∃ kind a b, (a, b) ∈ pairs (catalog.source.symbolsOf kind) ∧ e = .eq kind a b) ∨
      (∃ kind, ∃ b ∈ catalog.target.symbolsOf kind, ∃ a ∈ catalog.source.symbolsOf kind,
        e = .eq kind a b) := by
  have hsub : e ∈ catalog.block .attrsSub ↔ ∃ a ∈ catalog.source.symbolsOf .attrs,
      ∃ s ∈ catalog.source.viableSources a, e = .attrsSub a s := by
    simp only [block, mem_flatMap, mem_map, eq_comm (a := e)]
  have heq : ∀ kind, e ∈ catalog.block (.eq kind) ↔
      ∃ a b, (a, b) ∈ pairs (catalog.source.symbolsOf kind) ∧ e = .eq kind a b := by
    intro kind
    simp only [block, mem_map, Prod.exists, eq_comm (a := e)]
  have hcopies : ∀ kind, e ∈ catalog.block (.copies kind) ↔
      ∃ b ∈ catalog.target.symbolsOf kind, ∃ a ∈ catalog.source.symbolsOf kind,
        e = .eq kind a b := by
    intro kind
    simp only [block, mem_flatMap, mem_map, eq_comm (a := e)]
  have hsplit : e ∈ catalog.structural ↔ e ∈ catalog.block .attrsSub ∨
      (∃ kind, e ∈ catalog.block (.eq kind)) ∨ ∃ kind, e ∈ catalog.block (.copies kind) := by
    unfold structural
    rw [mem_flatMap]
    constructor
    · rintro ⟨b, hb, he⟩
      cases b with
      | attrsSub => exact .inl he
      | eq kind => exact .inr (.inl ⟨kind, he⟩)
      | copies kind => exact .inr (.inr ⟨kind, he⟩)
      | unique | notNull | reference => exact absurd hb (by decide)
    · rintro (he | ⟨kind, he⟩ | ⟨kind, he⟩)
      · exact ⟨_, by decide, he⟩
      · exact ⟨.eq kind, by cases kind <;> decide, he⟩
      · exact ⟨.copies kind, by cases kind <;> decide, he⟩
  simp only [hsplit, hsub, heq, hcopies]

/-- The integrity constraints are those with tables in them. -/
theorem columnsOf_ne_nil (h : e ∈ catalog.integrity) : Choice.columnsOf e ≠ [] := by
  unfold integrity at h
  rw [mem_append, mem_append] at h
  rcases h with (h | h) | h
  · have hkind := kind_of_mem_block h
    cases e <;> cases hkind
    nofun
  · have hkind := kind_of_mem_block h
    cases e <;> cases hkind
    nofun
  · have hkind := kind_of_mem_block h
    cases e <;> cases hkind
    nofun

/-! ## No constraint twice -/

/-- The block that a constraint belongs to. -/
def blockOf : Constraint → Block
  | .attrsSub .. => .attrsSub
  | .eq kind _ b => if b.side = .source then .eq kind else .copies kind
  | .unique .. => .unique
  | .notNull .. => .notNull
  | .reference .. => .reference

/-- A constraint tells the block it stands in. -/
theorem blockOf_of_mem (h : catalog.WellBound) {b : Block} (he : e ∈ catalog.block b) :
    blockOf e = b := by
  cases b with
  | attrsSub =>
    obtain ⟨a, -, he⟩ := mem_flatMap.mp he
    obtain ⟨s, -, rfl⟩ := mem_map.mp he
    rfl
  | eq kind =>
    obtain ⟨⟨x, y⟩, hpair, rfl⟩ := mem_map.mp he
    have hy : y ∈ catalog.source.symbolsOf kind :=
      Catalog.snd_mem_of_mem_pairs hpair
    exact if_pos (h.source.side_of_mem hy)
  | copies kind =>
    obtain ⟨y, hy, he⟩ := mem_flatMap.mp he
    obtain ⟨x, -, rfl⟩ := mem_map.mp he
    refine if_neg ?_
    rw [h.target.side_of_mem hy]
    nofun
  | unique =>
    have hkind := kind_of_mem_block he
    cases e <;> cases hkind
    rfl
  | notNull =>
    have hkind := kind_of_mem_block he
    cases e <;> cases hkind
    rfl
  | reference =>
    have hkind := kind_of_mem_block he
    cases e <;> cases hkind
    rfl

theorem nodup_tableSources (h : catalog.WellBound) (a : Symbol) : (catalog.tableSources a).Nodup :=
  (h.source.nodup_viableSources a).filter _

/-- No constraint stands twice in a block. -/
theorem nodup_block (h : catalog.WellBound) (b : Block) : (catalog.block b).Nodup := by
  have hattrs := h.source.nodup_symbolsOf .attrs
  cases b with
  | attrsSub =>
    refine nodup_flatMap_of_unique hattrs (fun a _ => ?_) fun a _ b _ e ha hb => ?_
    · exact (h.source.nodup_viableSources a).map fun _ _ heq => (attrsSub.inj heq).2
    · obtain ⟨s, -, rfl⟩ := mem_map.mp ha
      obtain ⟨s', -, heq⟩ := mem_map.mp hb
      exact (attrsSub.inj heq).1.symm
  | eq kind =>
    refine (nodup_pairs (h.source.nodup_symbolsOf kind)).map ?_
    rintro ⟨a, b⟩ ⟨a', b'⟩ heq
    cases heq
    rfl
  | copies kind =>
    refine nodup_flatMap_of_unique (h.target.nodup_symbolsOf kind) (fun b _ => ?_)
      fun a _ b _ e ha hb => ?_
    · exact (h.source.nodup_symbolsOf kind).map fun _ _ heq => (eq.inj heq).2.1
    · obtain ⟨s, -, rfl⟩ := mem_map.mp ha
      obtain ⟨s', -, heq⟩ := mem_map.mp hb
      exact (eq.inj heq).2.2.symm
  | unique =>
    refine nodup_flatMap_of_unique hattrs (fun a _ => ?_) fun a _ b _ e ha hb => ?_
    · exact (nodup_tableSources h a).map fun _ _ heq => (unique.inj heq).1
    · obtain ⟨s, -, rfl⟩ := mem_map.mp ha
      obtain ⟨s', -, heq⟩ := mem_map.mp hb
      exact (unique.inj heq).2.symm
  | notNull =>
    refine nodup_flatMap_of_unique hattrs (fun a _ => ?_) fun a _ b _ e ha hb => ?_
    · exact (nodup_tableSources h a).map fun _ _ heq => (notNull.inj heq).1
    · obtain ⟨s, -, rfl⟩ := mem_map.mp ha
      obtain ⟨s', -, heq⟩ := mem_map.mp hb
      exact (notNull.inj heq).2.symm
  | reference =>
    -- The four symbols are taken apart one after the other.
    have hshape : ∀ {a b : Symbol} {e : Constraint},
        e ∈ (if a = b then [] else (catalog.tableSources a).flatMap fun t =>
          (catalog.tableSources b).map (.reference t a · b)) →
        ∃ t u, e = .reference t a u b := by
      intro a b e he
      split at he
      · cases he
      · obtain ⟨t, -, he⟩ := mem_flatMap.mp he
        obtain ⟨u, -, rfl⟩ := mem_map.mp he
        exact ⟨t, u, rfl⟩
    refine nodup_flatMap_of_unique hattrs (fun a _ => ?_) fun a _ a' _ e ha ha' => ?_
    · refine nodup_flatMap_of_unique hattrs (fun b _ => ?_) fun b _ b' _ e hb hb' => ?_
      · split
        · exact nodup_nil
        · refine nodup_flatMap_of_unique (nodup_tableSources h a) (fun t _ => ?_)
            fun t _ t' _ e ht ht' => ?_
          · exact (nodup_tableSources h b).map fun _ _ heq => (reference.inj heq).2.2.1
          · obtain ⟨u, -, rfl⟩ := mem_map.mp ht
            obtain ⟨u', -, heq⟩ := mem_map.mp ht'
            exact (reference.inj heq).1.symm
      · obtain ⟨t, u, rfl⟩ := hshape hb
        obtain ⟨t', u', heq⟩ := hshape hb'
        exact (reference.inj heq).2.2.2
    · obtain ⟨b, -, hb⟩ := mem_flatMap.mp ha
      obtain ⟨b', -, hb'⟩ := mem_flatMap.mp ha'
      obtain ⟨t, u, rfl⟩ := hshape hb
      obtain ⟨t', u', heq⟩ := hshape hb'
      exact (reference.inj heq).2.1

/-- **No constraint stands twice in the catalog** of two templates that were read. -/
theorem nodup_entries (h : catalog.WellBound) : catalog.entries.Nodup := by
  rw [entries_eq_blocks]
  exact nodup_flatMap_of_unique (by decide) (fun b _ => nodup_block h b) fun _ _ _ _ _ hb hb' =>
    (blockOf_of_mem h hb).symm.trans (blockOf_of_mem h hb')

/-! ## Chosen constraints -/

theorem mem_chosen : e ∈ catalog.chosen flags ↔ (e, true) ∈ catalog.entries.zip flags := by
  unfold chosen
  rw [mem_filterMap]
  constructor
  · rintro ⟨⟨e', on⟩, hmem, hsome⟩
    cases on with
    | false => cases hsome
    | true =>
      cases hsome
      exact hmem
  · intro hmem
    exact ⟨(e, true), hmem, rfl⟩

/-- Only constraints of the catalog are chosen. -/
theorem mem_entries_of_mem_chosen (h : e ∈ catalog.chosen flags) : e ∈ catalog.entries :=
  (of_mem_zip (mem_chosen.mp h)).1

/-- Flags that are given by a test choose what passes the test. -/
theorem mem_chosen_map {test : Constraint → Bool} :
    e ∈ catalog.chosen (catalog.entries.map test) ↔ e ∈ catalog.entries ∧ test e = true := by
  rw [mem_chosen, ← map_prod_left_eq_zip, mem_map]
  constructor
  · rintro ⟨e', hmem, heq⟩
    obtain ⟨rfl, htest⟩ := Prod.mk.inj heq
    exact ⟨hmem, htest⟩
  · rintro ⟨hmem, htest⟩
    exact ⟨e, hmem, by rw [htest]⟩

/-- An assignment of the right length is known from what it chooses. -/
theorem eq_map_chosen (h : catalog.WellBound) (hlen : flags.length = catalog.entries.length) :
    flags = catalog.entries.map fun e => decide (e ∈ catalog.chosen flags) := by
  have hkeys : ((catalog.entries.zip flags).map Prod.fst).Nodup := by
    rw [map_fst_zip (Nat.le_of_eq hlen.symm)]
    exact nodup_entries h
  refine ext_getElem (by rw [hlen, length_map]) fun i hi hi' => ?_
  have hi'' : i < catalog.entries.length := hlen ▸ hi
  rw [getElem_map]
  have hzip : (catalog.entries[i], flags[i]) ∈ catalog.entries.zip flags := by
    rw [← getElem_zip (h := by rw [length_zip]; omega)]
    exact getElem_mem _
  -- The flag next to a constraint is the only one that stands next to it.
  cases hflag : flags[i] with
  | true =>
    rw [hflag] at hzip
    exact (decide_eq_true (mem_chosen.mpr hzip)).symm
  | false =>
    refine (decide_eq_false fun hchosen => ?_).symm
    have htrue := (lookup_eq_some_iff_mem hkeys).mpr (mem_chosen.mp hchosen)
    have hfalse := (lookup_eq_some_iff_mem hkeys).mpr hzip
    rw [htrue, hflag] at hfalse
    cases hfalse

end Catalog

end QueryRules
