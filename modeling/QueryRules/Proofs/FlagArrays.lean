import QueryRules.Proofs.CatalogLayout

/-!
# QueryRules — assignments in an array

An assignment can be kept in an array that the stages of a search write to. Each stage fills the
places of its constraints with one flag and then sets some of them. So it does not matter what was
left there by an earlier round: after its writes the array has the flags of the choice at these
places and is unchanged elsewhere (`Parts.after_writes`).

Tables are compared before the stages for nulls and references have written. At their places there
is what they left when they were run last (`Parts.Late.leave`), or `false` if they were never run
(`Parts.Late.replicate`): this is `SearchState.integrityReached`.
-/

namespace QueryRules

open List Catalog

/-- A write to an array of flags. -/
inductive Write where
  | put (place : Nat) (flag : Bool)
  | fill (span : Span) (flag : Bool)

namespace Write

/-- The flag at a place after a write. -/
def flagAt (i : Nat) (old : Bool) : Write → Bool
  | .put place flag => if i = place then flag else old
  | .fill span flag => if i ∈ span then flag else old

/-- The array after some writes. -/
def run (ws : List Write) (array : Assignment) : Assignment :=
  ws.foldl (fun array w => array.mapIdx fun i old => w.flagAt i old) array

/-- The flag at a place after some writes. -/
def after (ws : List Write) (i : Nat) (old : Bool) : Bool :=
  ws.foldl (fun old w => w.flagAt i old) old

variable {i : Nat} {old : Bool}

theorem getElem?_run (ws : List Write) (array : Assignment) (i : Nat) :
    (run ws array)[i]? = array[i]?.map (after ws i) := by
  induction ws generalizing array with
  | nil => exact (congrFun Option.map_id _).symm
  | cons w ws ih =>
    rw [run, foldl_cons]
    refine (ih _).trans ?_
    rw [getElem?_mapIdx, Option.map_map]
    rfl

theorem length_run (ws : List Write) (array : Assignment) :
    (run ws array).length = array.length := by
  induction ws generalizing array with
  | nil => rfl
  | cons w ws ih => exact (ih _).trans length_mapIdx

theorem after_append (ws ws' : List Write) :
    after (ws ++ ws') i old = after ws' i (after ws i old) :=
  foldl_append

theorem after_puts (places : List Nat) :
    after (places.map (.put · true)) i old = (decide (i ∈ places) || old) := by
  induction places generalizing old with
  | nil => rfl
  | cons place places ih =>
    rw [map_cons, after, foldl_cons]
    refine ih.trans ?_
    by_cases hi : i = place <;> simp [flagAt, hi]

/-- A stage that clears its places and then sets some of them. -/
theorem after_fill_puts {span : Span} {places : List Nat} {on : Prop} [Decidable on]
    (hplaces : i ∈ places ↔ i ∈ span ∧ on) :
    after (.fill span false :: places.map (.put · true)) i old =
      if i ∈ span then decide on else old := by
  rw [after, foldl_cons]
  refine (after_puts places).trans ?_
  unfold flagAt
  by_cases hi : i ∈ span <;> simp [hplaces, hi]

/-- Writes to consecutive places. -/
theorem after_consecutive {α : Type} (f : α → Bool) (l : List α) (first : Nat) :
    after ((l.zipIdx first).map fun x => .put x.2 (f x.1)) i old =
      if first ≤ i then (l[i - first]?.map f).getD old else old := by
  induction l generalizing first old with
  | nil => simp [after]
  | cons a l ih =>
    rw [zipIdx_cons, map_cons, after, foldl_cons]
    refine (ih _).trans ?_
    show (if first + 1 ≤ i then (l[i - (first + 1)]?.map f).getD (if i = first then f a else old)
      else if i = first then f a else old) = _
    rcases Nat.lt_trichotomy i first with hi | rfl | hi
    · rw [if_neg (by omega), if_neg (by omega), if_neg (by omega)]
    · simp
    · have hnext : i - first = i - (first + 1) + 1 := by omega
      rw [if_pos (Nat.succ_le_of_lt hi), if_neg (by omega), if_pos (by omega), hnext,
        getElem?_cons_succ]

end Write

namespace Parts

variable {catalog : Catalog} {x : Parts} {i : Nat} {e : Constraint} {old : Bool} {b : Block}

/-- The writes for one attribute list: none if it has a single source. -/
def sourceWrites (x : Parts) (catalog : Catalog) (a : Symbol) : List Write :=
  if (catalog.subSpan a).stop - (catalog.subSpan a).start ≤ 1 then []
  else .fill (catalog.subSpan a) false ::
    ([(a, x.source a)].filterMap fun p => catalog.subPlace? p.1 p.2).map (.put · true)

/-- The writes of a stage. -/
def writes (x : Parts) (catalog : Catalog) : Block → List Write
  | .attrsSub =>
    .fill (catalog.kindSpan .attrsSub) true ::
      (catalog.source.symbolsOf .attrs).flatMap (x.sourceWrites catalog)
  | .eq kind =>
    .fill (catalog.eqsSpan kind) false ::
      (((pairs (catalog.source.symbolsOf kind)).filter fun p =>
        (x.choice catalog).isEq p.1 p.2).filterMap fun p => catalog.eqPlace? p.1 p.2).map
          (.put · true)
  | .copies kind =>
    .fill (catalog.copiesSpan kind) false ::
      (((catalog.target.symbolsOf kind).map fun target => (x.copied target, target)).filterMap
        fun p => catalog.copyPlace? p.1 p.2).map (.put · true)
  | b =>
    .fill (catalog.kindSpan b.constraintKind) true ::
      ((catalog.ofKind b.constraintKind).zipIdx (catalog.kindSpan b.constraintKind).start).map
        fun z => .put z.2 (x.flag z.1)

theorem on_eq_flag (hkind : e.kind = .unique ∨ e.kind = .notNull ∨ e.kind = .reference) :
    x.on catalog e = x.flag e := by
  cases e with
  | attrsSub | eq => simp [Constraint.kind] at hkind
  | unique | notNull | reference => rfl

section Stages

variable (h : catalog.WellBound) (hi : catalog.entries[i]? = some e)

include h hi

theorem mem_blockSpan : i ∈ catalog.blockSpan b ↔ blockOf e = b := by
  rw [mem_blockSpan_iff h]
  constructor
  · rintro ⟨e', he', hb⟩
    rwa [Option.some.inj (hi.symm.trans he')]
  · exact fun hb => ⟨e, hi, hb⟩

/-- The recorded places of some pairs are those of their constraints. -/
theorem mem_places {m : PlaceMap} {marks : List (Symbol × Symbol)} (hb : b ∈ m.blocks)
    (hmarks : ∀ p ∈ marks, p ∈ catalog.keys b) :
    i ∈ marks.filterMap (fun p => catalog.index.place? m p.1 p.2) ↔
      ∃ p ∈ marks, e = m.constraint p.1 p.2 := by
  rw [mem_filterMap]
  refine exists_congr fun p => and_congr_right fun hp => ?_
  constructor
  · intro hplace
    exact Option.some.inj (hi.symm.trans (getElem?_of_place hplace).1)
  · rintro rfl
    obtain ⟨j, hj⟩ := Option.isSome_iff_exists.mp (isSome_place hb (hmarks p hp))
    rw [hj, place_unique h hi (getElem?_of_place hj).1]

/-- A stage clears its places and sets those of some pairs. -/
theorem after_marks {m : PlaceMap} {row marks : List (Symbol × Symbol)} {span : Span}
    (hb : b ∈ m.blocks) (hrow : ∀ p ∈ row, p ∈ catalog.keys b) (hmarks : ∀ p ∈ marks, p ∈ row)
    (hspan : i ∈ span ↔ ∃ p ∈ row, e = m.constraint p.1 p.2)
    (hon : ∀ p ∈ row, e = m.constraint p.1 p.2 → (p ∈ marks ↔ x.on catalog e = true)) :
    Write.after (.fill span false ::
        (marks.filterMap fun p => catalog.index.place? m p.1 p.2).map (.put · true)) i old =
      if i ∈ span then x.on catalog e else old := by
  have hplaces : i ∈ marks.filterMap (fun p => catalog.index.place? m p.1 p.2) ↔
      i ∈ span ∧ x.on catalog e = true := by
    rw [mem_places h hi hb fun p hp => hrow p (hmarks p hp), hspan]
    constructor
    · rintro ⟨p, hp, he⟩
      exact ⟨⟨p, hmarks p hp, he⟩, (hon p (hmarks p hp) he).mp hp⟩
    · rintro ⟨⟨p, hp, he⟩, hflag⟩
      exact ⟨p, (hon p hp he).mpr hflag, he⟩
  rw [Write.after_fill_puts hplaces, Bool.decide_eq_true]

theorem mem_blockSpan_keys {m : PlaceMap} (hb : b ∈ m.blocks) :
    i ∈ catalog.blockSpan b ↔ ∃ p ∈ catalog.keys b, e = m.constraint p.1 p.2 := by
  have hblock : blockOf e = b ↔ e ∈ catalog.block b := by
    refine ⟨?_, blockOf_of_mem h⟩
    rintro rfl
    exact mem_block_of_mem_entries h (mem_of_getElem? hi)
  rw [mem_blockSpan h hi, hblock, block_eq_map_keys hb, mem_map]
  exact exists_congr fun p => and_congr_right fun _ => eq_comm

omit h in
theorem on_iff_mem_chosen : x.on catalog e = true ↔ e ∈ catalog.chosen (x.flags catalog) := by
  rw [mem_chosen_flags]
  exact (and_iff_right (mem_of_getElem? hi)).symm

/-- The block of equalities is written in full. -/
theorem after_eqs (kind : SymbolKind) : Write.after (x.writes catalog (.eq kind)) i old =
    if blockOf e = .eq kind then x.on catalog e else old := by
  have hb := mem_blocks_eq kind
  -- Each pair is looked up in the order in which it is recorded.
  have hplaces : ∀ p ∈ (pairs (catalog.source.symbolsOf kind)).filter fun p =>
      (x.choice catalog).isEq p.1 p.2,
      catalog.eqPlace? p.1 p.2 = catalog.index.place? .eq p.1 p.2 := by
    intro p hp
    obtain ⟨j, hj⟩ := Option.isSome_iff_exists.mp
      (isSome_place hb (show p ∈ catalog.keys (.eq kind) from (mem_filter.mp hp).1))
    unfold eqPlace?
    rw [hj]
    rfl
  rw [writes, filterMap_congr hplaces, eqsSpan_eq]
  refine (after_marks h hi hb (fun _ hp => hp) (fun _ hp => (mem_filter.mp hp).1)
    (mem_blockSpan_keys h hi hb) ?_).trans (if_congr (mem_blockSpan h hi) rfl rfl)
  intro p hp he
  have hkind : p.1.kind = kind := Template.kind_of_mem_symbolsOf (fst_mem_of_mem_pairs hp)
  rw [on_iff_mem_chosen hi, he, PlaceMap.constraint, hkind, on_pair h hp, mem_filter]
  exact and_iff_right hp

/-- The block of copies is written in full. -/
theorem after_copies (hx : x.Fits catalog) (kind : SymbolKind) :
    Write.after (x.writes catalog (.copies kind)) i old =
      if blockOf e = .copies kind then x.on catalog e else old := by
  have hb := mem_blocks_copy kind
  have hkeys : ∀ {p}, p ∈ catalog.keys (.copies kind) ↔
      p.2 ∈ catalog.target.symbolsOf kind ∧ p.1 ∈ catalog.source.symbolsOf kind := by
    rintro ⟨a, target⟩
    simp [Catalog.keys, owners, row]
  have hmarks : ∀ p ∈ (catalog.target.symbolsOf kind).map fun target => (x.copied target, target),
      p ∈ catalog.keys (.copies kind) := by
    intro p hp
    obtain ⟨target, htarget, rfl⟩ := mem_map.mp hp
    have hcopied := hx.copied target (mem_targets_of_mem htarget)
    rw [Template.kind_of_mem_symbolsOf htarget] at hcopied
    exact hkeys.mpr ⟨htarget, hcopied⟩
  rw [writes, copiesSpan_eq]
  refine (after_marks h hi hb (fun _ hp => hp) hmarks (mem_blockSpan_keys h hi hb) ?_).trans
    (if_congr (mem_blockSpan h hi) rfl rfl)
  rintro ⟨a, target⟩ hp he
  have htarget := (hkeys.mp hp).1
  rw [on_iff_mem_chosen hi, he]
  refine Iff.trans ?_ (copies_iff h hx (mem_targets_of_mem htarget)).symm
  rw [mem_map]
  constructor
  · rintro ⟨target', -, heq⟩
    cases heq
    rfl
  · intro heq
    exact ⟨target, htarget, Prod.ext heq rfl⟩

/-- The writes for an attribute list. What is not written is the flag of a single source. -/
theorem after_sourceWrites (hx : x.Fits catalog) {a : Symbol}
    (ha : a ∈ catalog.source.symbolsOf .attrs)
    (hold : i ∈ catalog.subSpan a → old = true ∨ old = x.on catalog e) :
    Write.after (x.sourceWrites catalog a) i old =
      if i ∈ catalog.subSpan a then x.on catalog e else old := by
  have hspan : i ∈ catalog.subSpan a ↔ ∃ p ∈ catalog.row .attrsSub a, e = .attrsSub p.1 p.2 := by
    rw [mem_subSpan_iff h, hi]
    simp only [Option.some.injEq, row, mem_map, exists_exists_and_eq_and]
    refine exists_congr fun s => (and_iff_right_of_imp ?_).symm
    rintro rfl
    exact (viable_of_mem_entries h (mem_of_getElem? hi)).2
  have hon : ∀ s, e = .attrsSub a s → (x.on catalog e = true ↔ x.source a = s) := by
    rintro s rfl
    exact (on_iff_mem_chosen hi).trans ((draws_iff h hx).trans (and_iff_right ha))
  unfold sourceWrites
  split
  next hsingle =>
    -- A list with one source is left as it was filled.
    show old = _
    split
    next hmem =>
      obtain ⟨p, hp, he⟩ := hspan.mp hmem
      obtain ⟨s, hs, rfl⟩ := mem_map.mp hp
      obtain ⟨before, after, -, heq⟩ := subSpan_split ha
      rw [heq, Nat.add_sub_cancel_left] at hsingle
      have hsame : x.source a = s := by
        obtain ⟨y, hy⟩ :=
          length_eq_one_iff.mp (Nat.le_antisymm hsingle (length_pos_of_mem hs))
        have hsource := hx.source a ha
        rw [hy, mem_singleton] at hs hsource
        exact hsource.trans hs.symm
      rw [(hon s he).mpr hsame]
      exact (hold hmem).elim id fun hold => hold.trans ((hon s he).mpr hsame)
    next => rfl
  next =>
    have hrow : ∀ p ∈ catalog.row .attrsSub a, p ∈ catalog.keys .attrsSub :=
      fun p hp => mem_flatMap.mpr ⟨a, ha, hp⟩
    have hmarks : ∀ p ∈ [(a, x.source a)], p ∈ catalog.row .attrsSub a := by
      intro p hp
      rw [mem_singleton.mp hp]
      exact mem_map_of_mem (hx.source a ha)
    refine after_marks h hi (m := .sub) (mem_singleton_self _) hrow hmarks hspan ?_
    · intro p hp he
      obtain ⟨s, -, rfl⟩ := mem_map.mp hp
      rw [hon s he, mem_singleton]
      exact ⟨fun heq => (Prod.mk.inj heq).2.symm, fun heq => by rw [heq]⟩

/-- Attribute lists are written one after another, and what is written stays. -/
theorem after_flatMap_sourceWrites (hx : x.Fits catalog) {l : List Symbol}
    (hl : ∀ a ∈ l, a ∈ catalog.source.symbolsOf .attrs)
    (hold : (∃ a ∈ l, i ∈ catalog.subSpan a) → old = true ∨ old = x.on catalog e) :
    Write.after (l.flatMap (x.sourceWrites catalog)) i old =
      if ∃ a ∈ l, i ∈ catalog.subSpan a then x.on catalog e else old := by
  induction l generalizing old with
  | nil => rfl
  | cons a l ih =>
    have hfirst := after_sourceWrites h hi hx (hl a mem_cons_self)
      fun hmem => hold ⟨a, mem_cons_self, hmem⟩
    have hrest := fun a' ha' => hl a' (mem_cons_of_mem _ ha')
    rw [flatMap_cons, Write.after_append, hfirst]
    by_cases hmem : i ∈ catalog.subSpan a
    · rw [if_pos hmem, ih hrest fun _ => .inr rfl, ite_self,
        if_pos ⟨a, mem_cons_self, hmem⟩]
    · have hold' : (∃ a ∈ l, i ∈ catalog.subSpan a) → old = true ∨ old = x.on catalog e := by
        rintro ⟨a', ha', hmem'⟩
        exact hold ⟨a', mem_cons_of_mem _ ha', hmem'⟩
      rw [if_neg hmem, ih hrest hold']
      refine if_congr ?_ rfl rfl
      rw [exists_mem_cons_iff]
      exact (or_iff_right hmem).symm

theorem after_sources (hx : x.Fits catalog) : Write.after (x.writes catalog .attrsSub) i old =
    if blockOf e = .attrsSub then x.on catalog e else old := by
  have hspans : (∃ a ∈ catalog.source.symbolsOf .attrs, i ∈ catalog.subSpan a) ↔
      blockOf e = .attrsSub := by
    simp only [mem_subSpan_iff h, hi, Option.some.injEq]
    constructor
    · rintro ⟨a, -, s, rfl⟩
      rfl
    · intro hblock
      obtain ⟨a, ha, he⟩ := mem_flatMap.mp
        (hblock ▸ mem_block_of_mem_entries h (mem_of_getElem? hi))
      obtain ⟨s, -, rfl⟩ := mem_map.mp he
      exact ⟨a, ha, s, rfl⟩
  have hkind : catalog.kindSpan .attrsSub = catalog.blockSpan .attrsSub := kindSpan_eq _ _
  rw [writes, Write.after, foldl_cons, hkind, Write.flagAt, if_congr (mem_blockSpan h hi) rfl rfl]
  refine (after_flatMap_sourceWrites h hi hx (fun _ ha => ha) fun hexists => ?_).trans ?_
  · rw [if_pos (hspans.mp hexists)]
    exact .inl rfl
  · rw [if_congr hspans rfl rfl]
    split <;> rfl

omit h in
/-- A place of a span is a place of the block. -/
theorem getElem?_block (hle : (catalog.blockSpan b).start ≤ i) :
    (catalog.block b)[i - (catalog.blockSpan b).start]? =
      if i ∈ catalog.blockSpan b then some e else none := by
  obtain ⟨before, after, hsplit, hlen⟩ := entries_split catalog b
  split
  next hspan =>
    have hlt : i - (catalog.blockSpan b).start < (catalog.block b).length := by
      have := hspan.2
      unfold blockSpan at this hle ⊢
      dsimp only at this hle ⊢
      omega
    rw [hsplit, append_assoc, getElem?_append_right (hlen.trans_le hle)] at hi
    rw [getElem?_append_left] at hi
    · rwa [hlen] at hi
    · rwa [hlen]
  next hspan =>
    rw [List.getElem?_eq_none_iff]
    by_contra hlt
    refine hspan ⟨hle, ?_⟩
    unfold blockSpan at hlt hle ⊢
    dsimp only at hlt hle ⊢
    omega

/-- A stage that decides constraints one after the other. -/
theorem after_decisions (hkind : catalog.kindSpan b.constraintKind = catalog.blockSpan b)
    (hflag : blockOf e = b → x.on catalog e = x.flag e) :
    Write.after (.fill (catalog.kindSpan b.constraintKind) true ::
        ((catalog.ofKind b.constraintKind).zipIdx (catalog.kindSpan b.constraintKind).start).map
          fun z => .put z.2 (x.flag z.1)) i old =
      if blockOf e = b then x.on catalog e else old := by
  unfold ofKind
  rw [hkind, extract_blockSpan, Write.after, foldl_cons]
  refine (Write.after_consecutive x.flag _ _).trans ?_
  rw [Write.flagAt, ← if_congr (mem_blockSpan h hi) rfl rfl]
  by_cases hspan : i ∈ catalog.blockSpan b
  · rw [if_pos hspan.1, getElem?_block hi hspan.1]
    simp only [if_pos hspan, hflag ((mem_blockSpan h hi).mp hspan)]
    rfl
  · rw [if_neg hspan, if_neg hspan]
    split
    next hle =>
      rw [getElem?_block hi hle, if_neg hspan]
      rfl
    next => rfl

/-- **Every stage overwrites its places**, whatever was there before, and no others. -/
theorem after_writes (hx : x.Fits catalog) (b : Block) : Write.after (x.writes catalog b) i old =
    if blockOf e = b then x.on catalog e else old := by
  cases b with
  | attrsSub => exact after_sources h hi hx
  | eq kind => exact after_eqs h hi kind
  | copies kind => exact after_copies h hi hx kind
  | unique | notNull | reference =>
    refine after_decisions h hi (kindSpan_eq _ _) fun hblock => on_eq_flag ?_
    rw [← constraintKind_blockOf, hblock]
    decide

theorem after_flatMap_writes (hx : x.Fits catalog) (bs : List Block) :
    Write.after (bs.flatMap (x.writes catalog)) i old =
      if blockOf e ∈ bs then x.on catalog e else old := by
  induction bs generalizing old with
  | nil => rfl
  | cons b bs ih =>
    rw [flatMap_cons, Write.after_append, ih, after_writes h hi hx]
    by_cases hb : blockOf e = b <;> simp [hb]

end Stages

/-! ## Arrays -/

/-- The array after writes that leave a given flag at each place. -/
theorem run_eq_map {ws : List Write} {array : Assignment} {flag : Constraint → Bool}
    (hlen : array.length = catalog.entries.length)
    (hws : ∀ i e, catalog.entries[i]? = some e → Write.after ws i (array[i]?.getD false) = flag e) :
    Write.run ws array = catalog.entries.map flag := by
  refine ext_getElem? fun i => ?_
  rw [Write.getElem?_run, getElem?_map]
  by_cases hi : i < catalog.entries.length
  · have hat : array[i]? = some array[i] := getElem?_eq_getElem (hlen ▸ hi)
    have hflag := hws i _ (getElem?_eq_getElem hi)
    rw [hat] at hflag ⊢
    rw [getElem?_eq_getElem hi, Option.map_some, Option.map_some, ← hflag]
    rfl
  · rw [getElem?_eq_none (hlen ▸ Nat.le_of_not_lt hi),
      getElem?_eq_none (Nat.le_of_not_lt hi)]
    rfl

/-! ## Places of the late stages -/

/-- The stages before tables are compared. -/
def earlyBlocks : List Block :=
  Block.all.take 8

theorem late_of_notMem : b ∉ earlyBlocks → b = .notNull ∨ b = .reference := by
  cases b with
  | eq kind | copies kind => cases kind <;> decide
  | _ => decide

/-- The places of the stages for nulls and references hold one flag. -/
def Late (catalog : Catalog) (flag : Bool) (array : Assignment) : Prop :=
  array.length = catalog.entries.length ∧
    ∀ (i : Nat) (e : Constraint), catalog.entries[i]? = some e →
      blockOf e ∉ earlyBlocks → array[i]? = some flag

/-- What the stages for nulls and references write when they are left. -/
def resets (catalog : Catalog) : List Write :=
  [.fill (catalog.kindSpan .notNull) true, .fill (catalog.kindSpan .reference) true]

namespace Late

variable {flag : Bool} {array : Assignment}

/-- At first every flag is off. -/
theorem replicate (catalog : Catalog) :
    Late catalog false (List.replicate catalog.entries.length false) :=
  ⟨length_replicate, fun _ _ hi _ =>
    getElem?_replicate_of_lt (List.getElem?_eq_some_iff.mp hi).1⟩

/-- The late stages leave their flags on. -/
theorem leave (h : catalog.WellBound) (hlen : array.length = catalog.entries.length) :
    Late catalog true (Write.run (resets catalog) array) := by
  refine ⟨by rw [Write.length_run, hlen], fun i e hi hlate => ?_⟩
  have hnotNull : catalog.kindSpan .notNull = catalog.blockSpan .notNull := kindSpan_eq _ _
  have hreference : catalog.kindSpan .reference = catalog.blockSpan .reference :=
    kindSpan_eq _ _
  have hat := getElem?_eq_getElem (hlen ▸ (List.getElem?_eq_some_iff.mp hi).1)
  rw [Write.getElem?_run, hat]
  simp only [resets, Write.after, foldl_cons, foldl_nil, Write.flagAt, hnotNull,
    hreference, mem_blockSpan h hi, Option.map_some]
  rcases late_of_notMem hlate with hb | hb <;> simp [hb]

/-- The other stages do not write there. -/
theorem writes (h : catalog.WellBound) (hx : x.Fits catalog) (ha : Late catalog flag array)
    {bs : List Block} (hbs : ∀ b ∈ bs, b ∈ earlyBlocks) :
    Late catalog flag (Write.run (bs.flatMap (x.writes catalog)) array) := by
  refine ⟨by rw [Write.length_run, ha.1], fun i e hi hlate => ?_⟩
  rw [Write.getElem?_run, ha.2 i e hi hlate, Option.map_some, after_flatMap_writes h hi hx,
    if_neg fun hb => hlate (hbs _ hb)]

end Late

section Rounds

variable (h : catalog.WellBound) (hx : x.Fits catalog)
  (settings : Settings) (oracle : Oracle) (clock : Nat → Nat)

include h hx

/-- **The array of a complete choice holds its assignment**, in whatever order the stages write to
it and whatever it held before. -/
theorem run_writes {array : Assignment} (hlen : array.length = catalog.entries.length)
    {bs : List Block} (hbs : ∀ b, b ∈ bs) :
    Write.run (bs.flatMap (x.writes catalog)) array =
      (SearchTask.ofCatalog catalog settings oracle clock).flags (x.choice catalog) false := by
  rw [flags_eq]
  refine run_eq_map hlen fun i e hi => ?_
  rw [after_flatMap_writes h hi hx, if_pos (hbs _)]

/-- The choice when tables are compared: only unique keys are decided. -/
def earlyChoice (x : Parts) (catalog : Catalog) : Choice :=
  { x.choice catalog with integrity := (catalog.block .unique).map x.flag }

omit hx in
/-- Blocks after the early ones have the flag for what is undecided. -/
theorem flags_early (undecided : Bool) :
    (SearchTask.ofCatalog catalog settings oracle clock).flags (x.earlyChoice catalog) undecided =
      catalog.entries.map fun e =>
        if blockOf e ∈ earlyBlocks then x.on catalog e else undecided := by
  have hblock : ∀ {b e}, e ∈ catalog.block b →
      (if blockOf e ∈ earlyBlocks then x.on catalog e else undecided) =
        if b ∈ earlyBlocks then x.on catalog e else undecided :=
    fun he => by rw [blockOf_of_mem h he]
  have hstructural : ∀ e ∈ catalog.structural, SearchTask.enables (x.earlyChoice catalog) e =
      if blockOf e ∈ earlyBlocks then x.on catalog e else undecided := by
    intro e he
    obtain ⟨b, hb, hmem⟩ := mem_flatMap.mp he
    have hearly : b ∈ earlyBlocks := take_subset_take_left _ (by decide) hb
    rw [hblock hmem, if_pos hearly]
    rcases mem_structural.mp he with ⟨_, _, _, _, rfl⟩ | ⟨_, _, _, _, rfl⟩ |
      ⟨_, _, _, _, _, rfl⟩
    · rfl
    · rfl
    · rfl
  have hunique : ∀ e ∈ catalog.block .unique, x.flag e =
      if blockOf e ∈ earlyBlocks then x.on catalog e else undecided := by
    intro e he
    rw [hblock he, if_pos (by decide), on_eq_flag (.inl (kind_of_mem_block he))]
  -- The last two blocks are those that no flag was given for.
  have hlate : ∀ e ∈ catalog.block .notNull ++ catalog.block .reference, undecided =
      if blockOf e ∈ earlyBlocks then x.on catalog e else undecided := by
    intro e he
    rcases mem_append.mp he with he | he <;> rw [hblock he, if_neg (by decide)]
  rw [SearchTask.flags_ofCatalog, entries_eq, integrity,
    append_assoc (catalog.block .unique), map_append, map_append,
    ← map_congr_left hstructural, ← map_congr_left hunique,
    ← map_congr_left hlate, map_const', append_assoc]
  simp only [earlyChoice, length_map, length_append, Nat.add_sub_cancel_left]

/-- **The array when tables are compared** has the flags of the choice so far. A constraint that is
not decided has the flag that its stage left. -/
theorem run_early_writes {undecided : Bool} {array : Assignment} (ha : Late catalog undecided array)
    {bs : List Block} (hbs : ∀ b, b ∈ bs ↔ b ∈ earlyBlocks) :
    Write.run (bs.flatMap (x.writes catalog)) array =
      (SearchTask.ofCatalog catalog settings oracle clock).flags (x.earlyChoice catalog)
        undecided := by
  rw [flags_early h]
  refine run_eq_map ha.1 fun i e hi => ?_
  rw [after_flatMap_writes h hi hx, if_congr (hbs _) rfl rfl]
  split
  next => rfl
  next hlate =>
    rw [ha.2 i e hi hlate]
    rfl

end Rounds

end Parts

end QueryRules
