import QueryRules.Proofs.Partitions
import QueryRules.Proofs.SearchFaults

/-!
# QueryRules — what a dry run visits

A dry run answers every complete choice with `eq`, so no answer cuts anything off and the stages do
no more than list choices. All of them list in the same way: some keys get values one after the
other, and which values a key may get depends on what was given before.

That the stages list choices in this way has nothing to do with dry runs: it is proved once for all
properties of a part of a search and a list of choices that go from the parts of a stage to the
stage.

That a partition stage never answers `neq`, which would cut off finer partitions, is due to the
finest partition: it makes no two attribute lists equal and so is not left out.
-/

namespace QueryRules

open List

/-! ## Giving values to keys -/

section AssignAll

variable {α β : Type} {options : List (α × β) → α → List β}

/-- All ways to give values to keys, after some that are done. -/
def assignAll (options : List (α × β) → α → List β) :
    (done : List (α × β)) → (keys : List α) → List (List (α × β))
  | done, [] => [done]
  | done, x :: keys => (options done x).flatMap fun b => assignAll options (done ++ [(x, b)]) keys

/-- Every key has a value that it may get after those before it. -/
theorem mem_assignAll {done l : List (α × β)} {keys : List α} :
    l ∈ assignAll options done keys ↔ ∃ rest, l = done ++ rest ∧ rest.map Prod.fst = keys ∧
      ∀ before x b after, rest = before ++ (x, b) :: after → b ∈ options (done ++ before) x := by
  induction keys generalizing done with
  | nil =>
    rw [assignAll, mem_singleton]
    constructor
    · rintro rfl
      refine ⟨[], (append_nil _).symm, rfl, fun before x b after h => ?_⟩
      exact absurd (congrArg List.length h) (by simp)
    · rintro ⟨rest, rfl, hkeys, -⟩
      rw [map_eq_nil_iff.mp hkeys, append_nil]
  | cons x keys ih =>
    rw [assignAll, mem_flatMap]
    simp only [ih]
    constructor
    · rintro ⟨b, hb, rest, rfl, hkeys, hrest⟩
      refine ⟨(x, b) :: rest, append_assoc .., congrArg (x :: ·) hkeys, ?_⟩
      intro before y c after hsplit
      -- The split lies at the first key or within the rest.
      rcases cons_eq_append_iff.mp hsplit with ⟨rfl, hhead⟩ | ⟨before', rfl, htail⟩
      · cases hhead
        rw [append_nil]
        exact hb
      · rw [append_cons]
        exact hrest before' y c after htail
    · rintro ⟨rest, rfl, hkeys, hrest⟩
      obtain ⟨⟨y, b⟩, rest, rfl, rfl, htail⟩ := map_eq_cons_iff.mp hkeys
      refine ⟨b, ?_, rest, append_cons .., htail, fun before z c after hsplit => ?_⟩
      · have hfirst := hrest [] y b rest rfl
        rwa [append_nil] at hfirst
      · rw [← append_cons]
        exact hrest ((y, b) :: before) z c after (congrArg ((y, b) :: ·) hsplit)

/-- The same for keys that differ: the values are those of a function. -/
theorem mem_assignAll_map [BEq α] [LawfulBEq α] {l : List (α × β)} {keys : List α}
    (hkeys : keys.Nodup) (default : α → β) :
    l ∈ assignAll options [] keys ↔ ∃ f : α → β, l = keys.map (fun x => (x, f x)) ∧
      ∀ before x after, keys = before ++ x :: after →
        f x ∈ options (before.map fun y => (y, f y)) x := by
  rw [mem_assignAll]
  simp only [nil_append]
  constructor
  · rintro ⟨rest, rfl, rfl, hrest⟩
    set f := fun x => (l.lookup x).getD (default x)
    have hl : l = (l.map Prod.fst).map fun x => (x, f x) := by
      rw [map_map]
      refine (map_id l).symm.trans (map_congr_left fun x hx => ?_)
      show x = (x.1, (l.lookup x.1).getD (default x.1))
      rw [(lookup_eq_some_iff_mem hkeys).mpr hx, Option.getD_some]
    refine ⟨f, hl, fun before x after hsplit => ?_⟩
    rw [hsplit, map_append, map_cons] at hl
    exact hrest _ _ _ _ hl
  · rintro ⟨f, rfl, hf⟩
    refine ⟨_, rfl, by rw [map_map]; exact map_id _, fun before x b after hsplit => ?_⟩
    obtain ⟨before', rest, rfl, rfl, hrest⟩ := map_eq_append_iff.mp hsplit
    obtain ⟨y, after', rfl, hy, -⟩ := map_eq_cons_iff.mp hrest
    cases hy
    exact hf before' x after' rfl

/-- The same up to some key, and there the values are related by `S`. -/
def PartAt (S : α → β → β → Prop) (l l' : List (α × β)) : Prop :=
  ∃ before x b b' after after',
    l = before ++ (x, b) :: after ∧ l' = before ++ (x, b') :: after' ∧ S x b b'

theorem pairwise_assignAll {S : α → β → β → Prop}
    (h : ∀ done x, (options done x).Pairwise (S x)) (done : List (α × β)) (keys : List α) :
    (assignAll options done keys).Pairwise (PartAt S) := by
  induction keys generalizing done with
  | nil => exact pairwise_singleton _ _
  | cons x keys ih =>
    rw [assignAll, pairwise_flatMap]
    refine ⟨fun b _ => ih _, (h done x).imp fun {b b'} hs l hl l' hl' => ?_⟩
    -- Different values for the first key: the lists part right there.
    obtain ⟨rest, rfl, -⟩ := mem_assignAll.mp hl
    obtain ⟨rest', rfl, -⟩ := mem_assignAll.mp hl'
    exact ⟨done, x, b, b', rest, rest', append_assoc .., append_assoc .., hs⟩

theorem nodup_assignAll (h : ∀ done x, (options done x).Nodup) (done : List (α × β))
    (keys : List α) : (assignAll options done keys).Nodup := by
  refine (pairwise_assignAll (S := fun _ b b' => b ≠ b') h done keys).imp ?_
  rintro l l' ⟨before, x, b, b', after, after', rfl, rfl, hne⟩ heq
  have hhead := (List.cons.inj (append_cancel_left heq)).1
  exact hne (Prod.mk.inj hhead).2

end AssignAll

/-! ## Complete choices -/

namespace Catalog

/-- The source symbols that a target symbol may copy, after others. -/
def copyOptions (catalog : Catalog) (sources : List (Symbol × Symbol))
    (done : List (Symbol × Symbol)) (target : Symbol) : List Symbol :=
  (catalog.source.symbolsOf target.kind).filter fun source =>
    (⟨sources, done, [], []⟩ : Choice).mayCopy catalog target source

/-- The blocks of the source symbols of the kinds that are partitioned. -/
def blocksOf (catalog : Catalog) (groups : List (SymbolKind × Partition)) : List (Symbol × Nat) :=
  groups.flatMap fun (kind, p) => (catalog.source.symbolsOf kind).zip p

/-- The partitions of the source symbols of a kind, after those of other kinds. -/
def groupOptions (catalog : Catalog) (sources : List (Symbol × Symbol))
    (done : List (SymbolKind × Partition)) (kind : SymbolKind) : List Partition :=
  (Partition.all (catalog.source.symbolsOf kind).length).filter fun p =>
    !Search.conflicts kind ⟨sources, [], catalog.blocksOf done, []⟩
      (catalog.source.symbolsOf kind) p

/-- What may be decided on an integrity constraint, after others. Only decisions on constraints of
the same kind have a say. -/
def decideOptions (c : Choice) (done : List (Constraint × Bool)) (e : Constraint) : List Bool :=
  let forced := c.forced (done.filter fun x => x.1.kind = e.kind) e
  (if forced.mustDisable then [] else [true]) ++ (if forced.mustEnable then [] else [false])

/-- The target symbols in the order in which they are copied. -/
def targets (catalog : Catalog) : List Symbol :=
  catalog.target.symbolsOf .table ++ catalog.target.symbolsOf .attrs
    ++ catalog.target.symbolsOf .pred

/-- The choices below one in which everything but the integrity constraints is decided. -/
def decidedChoices (catalog : Catalog) (c : Choice) : List Choice :=
  (assignAll (decideOptions c) [] catalog.integrity).map fun decided =>
    { c with integrity := decided.map Prod.snd }

/-- The choices below one in which sources and copies are decided. -/
def groupedChoices (catalog : Catalog) (c : Choice) : List Choice :=
  (assignAll (catalog.groupOptions c.sources) [] SymbolKind.all).flatMap fun groups =>
    catalog.decidedChoices { c with blocks := catalog.blocksOf groups }

/-- The choices below one in which sources are decided. -/
def copiedChoices (catalog : Catalog) (c : Choice) : List Choice :=
  (assignAll (catalog.copyOptions c.sources) [] catalog.targets).flatMap fun copies =>
    catalog.groupedChoices { c with copies := copies }

/-- All complete choices. -/
def completeChoices (catalog : Catalog) : List Choice :=
  (assignAll (fun _ a => catalog.source.viableSources a) []
    (catalog.source.symbolsOf .attrs)).flatMap fun sources =>
      catalog.copiedChoices { Choice.none with sources := sources }

/-- One decision: first what follows with the constraint, then what follows without it. -/
theorem map_assignAll_decide {α : Type} (f : List (Constraint × Bool) → α) {c : Choice}
    {done : List (Constraint × Bool)} {e : Constraint} {es : List Constraint} :
    (assignAll (decideOptions c) done (e :: es)).map f =
      (if (c.forced (done.filter fun x => x.1.kind = e.kind) e).mustDisable then []
        else (assignAll (decideOptions c) (done ++ [(e, true)]) es).map f) ++
      (if (c.forced (done.filter fun x => x.1.kind = e.kind) e).mustEnable then []
        else (assignAll (decideOptions c) (done ++ [(e, false)]) es).map f) := by
  rw [assignAll, decideOptions, flatMap_append, map_append]
  congr 1 <;> split <;> simp

end Catalog

/-! ## Traversals -/

namespace Search

variable {α : Type} {t : SearchTask} {kind : SymbolKind}

/-- A part of a search, as a function of the last stage. -/
abbrev Program :=
  (Choice → Search Answer) → Search Answer

/-- The search with another last stage. -/
def exploreWith (t : SearchTask) : Program :=
  fun last => runFrom 0 ((stages t).dropLast ++ [fun _ => last]) Choice.none

theorem exploreWith_leafStage (t : SearchTask) : exploreWith t (leafStage t) = explore t :=
  rfl

/-- Programs that go through lists of choices: `G` says so up to the partitions, and `H` from the
copies on. -/
structure Traversal (t : SearchTask) (G H : Program → List Choice → Prop) : Prop where
  leaf : ∀ c, G (fun last => clockStage t last c) [c]
  /-- One decision: both branches are gone through, the one with the constraint first. -/
  decide : ∀ {f : (Choice → Search Answer) → Choice → Search Answer}
    {earlier : List (Constraint × Bool)} {e : Constraint} {es : List Constraint} {c : Choice}
    {on off : List Choice}, c.forced earlier e ≠ .conflict →
    ((c.forced earlier e).mustDisable = false →
      G (fun last => decideAll t (f last) (earlier ++ [(e, true)]) es (c.decide true)) on) →
    ((c.forced earlier e).mustEnable = false →
      G (fun last => decideAll t (f last) (earlier ++ [(e, false)]) es (c.decide false)) off) →
    G (fun last => decideAll t (f last) earlier (e :: es) c)
      ((if (c.forced earlier e).mustDisable then [] else on)
        ++ (if (c.forced earlier e).mustEnable then [] else off))
  compare : ∀ {f : (Choice → Search Answer) → Choice → Search Answer} {c : Choice}
    {choices : List Choice}, G (fun last => decideAll t (f last) [] t.notNulls c) choices →
    G (fun last => tableStage t (notNullStage t (f last)) c) choices
  /-- Partitions are gone through one after the other. For a well-bound catalog one of them is not
  left out. -/
  partition : ∀ {kind : SymbolKind} {f : (Choice → Search Answer) → Choice → Search Answer}
    {symbols : List Symbol} {c : Choice} {below : Partition → List Choice},
    (∀ p, conflicts kind c symbols p = false →
      G (fun last => f last (c.group symbols p)) (below p)) →
    (t.catalog.WellBound →
      ∃ p ∈ Partition.all symbols.length, conflicts kind c symbols p = false) →
    G (fun last => partitionFrom kind symbols (f last) c (Partition.bound symbols.length)
        (Partition.single symbols.length) [] true)
      (((Partition.all symbols.length).filter fun p => !conflicts kind c symbols p).flatMap below)
  output : ∀ {f : (Choice → Search Answer) → Choice → Search Answer} {c : Choice}
    {choices : List Choice}, G (fun last => f last c) choices →
    H (fun last => outputStage t (f last) c) choices
  tryAll : ∀ {f : (Choice → Search Answer) → Symbol → Search Answer} {below : Symbol → List Choice}
    {as : List Symbol}, (∀ a ∈ as, H (fun last => f last a) (below a)) →
    H (fun last => tryAll (f last) as) (as.flatMap below)

/-! ### Decisions and partitions -/

section Kinds

variable {ckind : ConstraintKind} {kinds : List ConstraintKind} {done : List (Constraint × Bool)}
  {e : Constraint} {flag : Bool}

/-- One more decision of the kind. -/
theorem filter_kind_concat (he : e.kind = ckind) :
    (done ++ [(e, flag)]).filter (fun x => x.1.kind = ckind) =
      done.filter (fun x => x.1.kind = ckind) ++ [(e, flag)] := by
  rw [filter_append, filter_singleton]
  simp [he]

theorem filter_kind_nil (hnew : ckind ∉ kinds) (hkinds : ∀ x ∈ done, x.1.kind ∈ kinds) :
    done.filter (fun x => x.1.kind = ckind) = [] := by
  rw [filter_eq_nil_iff]
  intro x hx heq
  exact hnew (of_decide_eq_true heq ▸ hkinds x hx)

theorem kind_mem_concat (he : e.kind ∈ kinds) (hdone : ∀ x ∈ done, x.1.kind ∈ kinds) :
    ∀ x ∈ done ++ [(e, flag)], x.1.kind ∈ kinds := by
  intro x hx
  rcases mem_append.mp hx with hx | hx
  · exact hdone x hx
  · rw [mem_singleton.mp hx]
    exact he

end Kinds

/-- The finest partition makes no two symbols equal, so there is nothing to be in conflict. -/
theorem exists_free_partition {c : Choice} {symbols : List Symbol} {kinds : List SymbolKind}
    (hsym : ∀ a ∈ symbols, a.kind = kind) (hnodup : symbols.Nodup)
    (hc : c.Ungrouped (kind :: kinds)) :
    ∃ p ∈ Partition.all symbols.length, conflicts kind c symbols p = false := by
  obtain ⟨p, hp, hmatch⟩ := Partition.exists_mem_all eq_equivalence symbols
  refine ⟨p, hp, ?_⟩
  unfold conflicts
  rw [Bool.and_eq_false_iff]
  refine .inr (any_eq_false.mpr ?_)
  rintro ⟨a, b⟩ hpair hboth
  rw [Bool.and_eq_true] at hboth
  have hne : a ≠ b := Catalog.ne_of_mem_pairs hnodup hpair
  have ha : a.kind = kind := hsym a (Catalog.fst_mem_of_mem_pairs hpair)
  rcases Choice.isEq_iff.mp hboth.1 with heq | ⟨hkind, i, hai, hbi⟩
  · exact hne heq
  · rw [Choice.lookup_group hc ha] at hai
    rw [Choice.lookup_group hc (hkind ▸ ha)] at hbi
    exact hne ((hmatch _ (mem_of_lookup hai) _
      (mem_of_lookup hbi)).mp rfl)

/-- Symbols get blocks only with the partition of their kind. -/
theorem ungrouped_of_blocksOf {catalog : Catalog} {c : Choice}
    {done : List (SymbolKind × Partition)} (hc : c.blocks = catalog.blocksOf done)
    (hkind : kind ∉ done.map Prod.fst) : c.Ungrouped [kind] := by
  intro a ha
  rw [hc, lookup_eq_none_iff]
  intro x hx
  obtain ⟨⟨kind', p⟩, hmem, hzip⟩ := mem_flatMap.mp hx
  have hx' : x.1.kind = kind' := Template.kind_of_mem_symbolsOf (of_mem_zip hzip).1
  have hne : a ≠ x.1 := by
    rintro rfl
    rw [hx', mem_singleton] at ha
    exact hkind (ha ▸ mem_map_of_mem hmem)
  simpa using hne

section Grouped

variable {catalog : Catalog} {c : Choice} {done : List (SymbolKind × Partition)}

/-- The partitions that a stage lists are those without a conflict. -/
theorem groupOptions_eq (hc : c.blocks = catalog.blocksOf done) :
    catalog.groupOptions c.sources done kind =
      (Partition.all (catalog.source.symbolsOf kind).length).filter
        fun p => !conflicts kind c (catalog.source.symbolsOf kind) p := by
  unfold Catalog.groupOptions conflicts
  rw [← hc]
  rfl

/-- The choice after a partition, seen as one with one more kind done. -/
theorem blocks_group (hc : c.blocks = catalog.blocksOf done) (p : Partition) :
    (c.group (catalog.source.symbolsOf kind) p).blocks =
      catalog.blocksOf (done ++ [(kind, p)]) := by
  show c.blocks ++ (catalog.source.symbolsOf kind).zip p = _
  rw [hc, Catalog.blocksOf, Catalog.blocksOf, flatMap_append, flatMap_singleton]

/-- Without symbols there is a single partition. -/
theorem filter_conflicts_nil : ((Partition.all ([] : List Symbol).length).filter
    fun p => !conflicts kind c [] p) = [[]] := by
  simp [conflicts, Choice.hasConflict, Catalog.pairs, Partition.all, Partition.bound,
    Partition.single, Partition.visitFrom, Partition.next?]

theorem group_nil (c : Choice) (symbols : List Symbol) : c.group symbols [] = c := by
  unfold Choice.group
  rw [zip_nil_right, append_nil]

end Grouped

/-- Whether a symbol may be copied depends on sources and copies only. -/
theorem mayCopy_eq (c : Choice) (catalog : Catalog) (target source : Symbol) :
    c.mayCopy catalog target source =
      (⟨c.sources, c.copies, [], []⟩ : Choice).mayCopy catalog target source := by
  have hreaches : ∀ wanted bound attrs, c.reaches wanted bound attrs =
      (⟨c.sources, c.copies, [], []⟩ : Choice).reaches wanted bound attrs := by
    intro wanted bound
    induction bound with
    | zero => exact fun _ => rfl
    | succ bound ih =>
      intro attrs
      rw [Choice.reaches, Choice.reaches]
      simp only [ih]
      rfl
  unfold Choice.mayCopy
  simp only [hreaches]
  rfl

namespace Traversal

variable {G H : Program → List Choice → Prop} (h : Traversal t G H)
  {next : (Choice → Search Answer) → Choice → Search Answer}

include h

/-- Deciding constraints of one kind goes on with what the later stages go through. The decisions of
this kind so far are the ones that have a say. -/
theorem decideAll {ckind : ConstraintKind} {kinds : List ConstraintKind} {later : List Constraint}
    (hckind : ckind ∈ kinds)
    (hnext : ∀ c done, c.integrity = done.map Prod.snd → (∀ x ∈ done, x.1.kind ∈ kinds) →
      G (fun last => next last c) ((assignAll (Catalog.decideOptions c) done later).map
        fun decided => { c with integrity := decided.map Prod.snd }))
    {es : List Constraint} (hkind : ∀ e ∈ es, e.kind = ckind) :
    ∀ (c : Choice) (done : List (Constraint × Bool)), c.integrity = done.map Prod.snd →
      (∀ x ∈ done, x.1.kind ∈ kinds) → c.Agrees ckind (done.filter fun x => x.1.kind = ckind) →
      G (fun last => Search.decideAll t (next last) (done.filter fun x => x.1.kind = ckind) es c)
        ((assignAll (Catalog.decideOptions c) done (es ++ later)).map fun decided =>
          { c with integrity := decided.map Prod.snd }) := by
  induction es with
  | nil => exact fun c done hdone hkinds _ => hnext c done hdone hkinds
  | cons e es ih =>
    intro c done hdone hkinds hagrees
    have he := hkind e mem_cons_self
    set earlier := done.filter fun x => x.1.kind = ckind with hearlier
    -- What a branch goes through, said for both at once.
    have hbranch : ∀ flag, Choice.Allows (c.forced earlier e) flag →
        G (fun last => Search.decideAll t (next last) (earlier ++ [(e, flag)]) es (c.decide flag))
          ((assignAll (Catalog.decideOptions c) (done ++ [(e, flag)]) (es ++ later)).map
            fun decided => { c with integrity := decided.map Prod.snd }) := by
      intro flag hallow
      have hmore := hagrees.concat he hallow
      have hfilter : (done ++ [(e, flag)]).filter (fun x => x.1.kind = ckind) =
          earlier ++ [(e, flag)] := filter_kind_concat he
      have hrest := ih (fun e' he' => hkind e' (mem_cons_of_mem _ he'))
        (c.decide flag) (done ++ [(e, flag)])
        (by rw [map_append, ← hdone]; rfl) (kind_mem_concat (he ▸ hckind) hkinds)
        (by rw [hfilter]; exact ⟨hmore.kinds, hmore.conforms, hmore.alike, hmore.trivial⟩)
      rw [hfilter] at hrest
      exact hrest
    rw [cons_append, Catalog.map_assignAll_decide, he, ← hearlier]
    exact h.decide (hagrees.forced_ne_conflict he) (hbranch true) (hbranch false)

/-- A stage that decides the constraints of one kind, after those of other kinds. -/
theorem decideStage {ckind : ConstraintKind} {kinds : List ConstraintKind}
    (es : List Constraint) {later : List Constraint} (hkind : ∀ e ∈ es, e.kind = ckind)
    (hnew : ckind ∉ kinds)
    (hnext : ∀ c done, c.integrity = done.map Prod.snd →
      (∀ x ∈ done, x.1.kind ∈ ckind :: kinds) →
      G (fun last => next last c) ((assignAll (Catalog.decideOptions c) done later).map
        fun decided => { c with integrity := decided.map Prod.snd }))
    (c : Choice) (done : List (Constraint × Bool)) (hdone : c.integrity = done.map Prod.snd)
    (hkinds : ∀ x ∈ done, x.1.kind ∈ kinds) :
    G (fun last => Search.decideAll t (next last) [] es c)
      ((assignAll (Catalog.decideOptions c) done (es ++ later)).map fun decided =>
        { c with integrity := decided.map Prod.snd }) := by
  have hnil := filter_kind_nil hnew hkinds
  have hall := h.decideAll mem_cons_self hnext hkind c done hdone
    (fun x hx => mem_cons_of_mem _ (hkinds x hx)) (hnil ▸ Choice.agrees_nil c ckind)
  rwa [hnil] at hall

/-- The partitions of a kind are tried in turn, and below each of them the later kinds. -/
theorem partitionStage (kind : SymbolKind) {later : List SymbolKind} {below : Choice → List Choice}
    (hnext : ∀ c done, c.integrity = [] → c.blocks = t.catalog.blocksOf done →
      (done.map Prod.fst ++ later).Nodup →
      G (fun last => next last c) ((assignAll (t.catalog.groupOptions c.sources) done later).flatMap
        fun groups => below { c with blocks := t.catalog.blocksOf groups }))
    (c : Choice) (done : List (SymbolKind × Partition)) (hc : c.integrity = [])
    (hblocks : c.blocks = t.catalog.blocksOf done)
    (hnodup : (done.map Prod.fst ++ kind :: later).Nodup) :
    G (fun last => Search.partitionStage t kind (next last) c)
      ((assignAll (t.catalog.groupOptions c.sources) done (kind :: later)).flatMap
        fun groups => below { c with blocks := t.catalog.blocksOf groups }) := by
  set symbols := t.catalog.source.symbolsOf kind with hsymbols
  have hgroup : ∀ p, G (fun last => next last (c.group symbols p))
      ((assignAll (t.catalog.groupOptions c.sources) (done ++ [(kind, p)]) later).flatMap
        fun groups => below { c with blocks := t.catalog.blocksOf groups }) := by
    intro p
    refine hnext (c.group symbols p) (done ++ [(kind, p)]) hc (blocks_group hblocks p) ?_
    rw [map_append, append_assoc]
    exact hnodup
  rw [assignAll, flatMap_assoc, groupOptions_eq hblocks, ← hsymbols]
  unfold Search.partitionStage
  dsimp only
  rw [← hsymbols]
  split
  · -- Without symbols there is a single partition, and it changes nothing.
    next hzero =>
    have hnil : symbols = [] := length_eq_zero_iff.mp hzero
    rw [hnil, filter_conflicts_nil, flatMap_singleton]
    have hlists := hgroup []
    rwa [group_nil] at hlists
  · rw [unplaced_eq_none]
    have hkind : kind ∉ done.map Prod.fst := by
      intro hmem
      rw [nodup_append] at hnodup
      exact hnodup.2.2 kind hmem kind mem_cons_self rfl
    exact h.partition (fun p _ => hgroup p) fun ht => exists_free_partition
      (fun a ha => Template.kind_of_mem_symbolsOf ha) (ht.source.nodup_symbolsOf kind)
      (ungrouped_of_blocksOf hblocks hkind)

/-! ### Sources and copies -/

theorem copyAll (kind : SymbolKind) {later : List Symbol} {below : Choice → List Choice}
    (hnext : ∀ c, c.blocks = [] → c.integrity = [] → H (fun last => next last c)
      ((assignAll (t.catalog.copyOptions c.sources) c.copies later).flatMap
        fun copies => below { c with copies := copies }))
    {targets : List Symbol} (htargets : ∀ b ∈ targets, b ∈ t.catalog.target.symbolsOf kind) :
    ∀ c, c.blocks = [] → c.integrity = [] →
      H (fun last => Search.copyAll t (t.catalog.source.symbolsOf kind) (next last) targets c)
        ((assignAll (t.catalog.copyOptions c.sources) c.copies (targets ++ later)).flatMap
          fun copies => below { c with copies := copies }) := by
  induction targets with
  | nil => exact hnext
  | cons target targets ih =>
    intro c hblocks hintegrity
    have htarget := htargets target mem_cons_self
    have hkind : target.kind = kind := Template.kind_of_mem_symbolsOf htarget
    rw [cons_append, assignAll, flatMap_assoc, Catalog.copyOptions, hkind]
    simp only [Search.copyAll, mayCopy_eq c]
    refine h.tryAll fun source hsource => ?_
    have hplaced : (t.catalog.copyPlace? source target).isNone = false := by
      rw [← Option.not_isSome,
        Catalog.isSome_copyPlace (mem_of_mem_filter hsource) htarget]
      rfl
    rw [hplaced]
    exact ih (fun b hb => htargets b (mem_cons_of_mem _ hb)) (c.copy target source) hblocks
      hintegrity

/-- Each way to draw the attribute lists is tried. -/
theorem drawAll {sourcesOf : Symbol → List Symbol} (below : Choice → List Choice)
    (hnext : ∀ c, c.copies = [] → c.blocks = [] → c.integrity = [] →
      H (fun last => next last c) (below c))
    {attrs : List Symbol} :
    ∀ c : Choice, c.copies = [] → c.blocks = [] → c.integrity = [] →
      H (fun last => Search.drawAll (next last) (attrs.map fun a => (a, sourcesOf a)) c)
        ((assignAll (fun _ a => sourcesOf a) c.sources attrs).flatMap
          fun sources => below { c with sources := sources }) := by
  induction attrs with
  | nil =>
    intro c hcopies hblocks hintegrity
    rw [assignAll, flatMap_singleton]
    exact hnext c hcopies hblocks hintegrity
  | cons a attrs ih =>
    intro c hcopies hblocks hintegrity
    rw [assignAll, flatMap_assoc, map_cons]
    have hdraw : ∀ source ∈ sourcesOf a, H
        (fun last => Search.drawAll (next last) (attrs.map fun a => (a, sourcesOf a))
          (c.draw a source))
        ((assignAll (fun _ a => sourcesOf a) (c.sources ++ [(a, source)]) attrs).flatMap
          fun sources => below { c with sources := sources }) :=
      fun source _ => ih (c.draw a source) hcopies hblocks hintegrity
    -- A single source is taken without trying.
    cases hsources : sourcesOf a with
    | nil =>
      rw [hsources] at hdraw
      exact h.tryAll hdraw
    | cons source rest =>
      rw [hsources] at hdraw
      cases rest with
      | nil =>
        rw [flatMap_singleton]
        exact hdraw source mem_cons_self
      | cons source' rest => exact h.tryAll hdraw

end Traversal

/-! ### The whole search -/

/-- **A search goes through its complete choices.** -/
theorem Traversal.exploreWith {catalog : Catalog} {settings : Settings} {oracle : Oracle}
    {clock : Nat → Nat} {G H : Program → List Choice → Prop}
    (h : Traversal (.ofCatalog catalog settings oracle clock) G H) :
    H (exploreWith (.ofCatalog catalog settings oracle clock)) catalog.completeChoices := by
  rw [SearchTask.ofCatalog_eq] at h ⊢
  set t : SearchTask := ⟨catalog, settings, oracle, clock, catalog.structural,
    catalog.block .unique, catalog.block .notNull, catalog.block .reference⟩
  -- From the last stage to the first: complete choices, and the integrity constraints.
  have hleaf : ∀ c done, c.integrity = done.map Prod.snd →
      (∀ x ∈ done, x.1.kind ∈ [ConstraintKind.reference, .notNull, .unique]) →
      G (fun last => clockStage t last c) ((assignAll (Catalog.decideOptions c) done []).map
        fun decided => { c with integrity := decided.map Prod.snd }) := by
    intro c done hdone _
    rw [assignAll, map_singleton, ← hdone]
    exact h.leaf c
  have hreferences := h.decideStage (catalog.block .reference)
    (fun _ he => Catalog.kind_of_mem_block he) (by decide) hleaf
  have hnotNulls := h.decideStage (catalog.block .notNull)
    (fun _ he => Catalog.kind_of_mem_block he) (by decide) hreferences
  have huniques : ∀ c done, c.integrity = [] → c.blocks = catalog.blocksOf done →
      (done.map Prod.fst ++ []).Nodup →
      G (fun last => uniqueStage t (tableStage t (notNullStage t (referenceStage t
        (clockStage t last)))) c)
        ((assignAll (catalog.groupOptions c.sources) done []).flatMap fun groups =>
          catalog.decidedChoices { c with blocks := catalog.blocksOf groups }) := by
    intro c done hc hblocks _
    rw [assignAll, flatMap_singleton, ← hblocks]
    have hdecided := h.decideStage (catalog.block .unique)
      (fun _ he => Catalog.kind_of_mem_block he) (by decide)
      (fun c done hdone hkinds => h.compare (hnotNulls c done hdone hkinds)) c [] hc
      (fun _ hx => absurd hx not_mem_nil)
    rw [append_nil, ← append_assoc] at hdecided
    exact hdecided
  -- Partitions.
  have hgrouped := h.partitionStage .table
    (h.partitionStage .attrs (h.partitionStage .pred huniques))
  -- Copies and sources.
  have hcopied : ∀ c : Choice, c.blocks = [] → c.integrity = [] →
      H (fun last => outputStage t (Search.partitionStage t .table (Search.partitionStage t .attrs
        (Search.partitionStage t .pred (uniqueStage t (tableStage t (notNullStage t
          (referenceStage t (clockStage t last)))))))) c)
        ((assignAll (catalog.copyOptions c.sources) c.copies []).flatMap fun copies =>
          catalog.groupedChoices { c with copies := copies }) := by
    intro c hblocks hc
    rw [assignAll, flatMap_singleton]
    exact h.output (hgrouped c [] hc hblocks (by decide))
  have hcopyTables := h.copyAll .table (h.copyAll .attrs (h.copyAll .pred hcopied fun _ => id)
    fun _ => id) fun _ => id
  refine h.drawAll catalog.copiedChoices (fun c hcopies hblocks hc => ?_) Choice.none rfl rfl rfl
  have hcopies' := hcopyTables c hblocks hc
  rw [hcopies, append_nil, ← append_assoc] at hcopies'
  exact hcopies'

/-! ## Parts that list choices -/

variable {next : Choice → Search Answer}

/-- The part answers the complete choices in order, all with `eq`, and answers `eq` itself. -/
def Lists (m : Search Answer) (choices : List Choice) : Prop :=
  ∀ s, ∃ s', Ends m s .eq s' ∧ s'.answered = s.answered ++ choices.map (·, Answer.eq)

/-- The part answers the complete choices in order, all with `eq`, and does not run out of time. -/
def Visits (m : Search Answer) (choices : List Choice) : Prop :=
  ∀ s, ∃ a s', a ≠ .timeout ∧ Ends m s a s' ∧
    s'.answered = s.answered ++ choices.map (·, Answer.eq)

theorem Lists.visits {m : Search Answer} {choices : List Choice} (h : Lists m choices) :
    Visits m choices := by
  intro s
  obtain ⟨s', hends, hanswered⟩ := h s
  exact ⟨.eq, s', nofun, hends, hanswered⟩

/-- Two lists of answers, one after the other. -/
theorem answered_trans {s s₁ s₂ : SearchState} {xs ys : List Choice}
    (h₁ : s₁.answered = s.answered ++ xs.map (·, Answer.eq))
    (h₂ : s₂.answered = s₁.answered ++ ys.map (·, Answer.eq)) :
    s₂.answered = s.answered ++ (xs ++ ys).map (·, Answer.eq) := by
  rw [h₂, h₁, map_append, append_assoc]

/-- A complete choice in a dry run: its assignment is remembered, and the answer is recorded. -/
theorem ends_leafStage (hdry : t.settings.isDryRun = true) (c : Choice) (s : SearchState) :
    Ends (leafStage t c) s .eq
      (((s.count fun s => { s with leaves := s.leaves + 1 }).rememberEq (t.flags c false)).record
        (.leaf c .eq)) := by
  set s₁ := (s.count fun s => { s with leaves := s.leaves + 1 }).rememberEq (t.flags c false)
  have hanswer : Ends (answerLeaf t c) s .eq s₁ := by
    unfold answerLeaf
    simp only [hdry, if_true, ends_bind, ends_modify, ends_get, ends_pure]
    exact ⟨⟨⟩, _, rfl, _, _, ⟨rfl, rfl⟩, ⟨⟩, _, rfl, trivial, rfl⟩
  unfold leafStage
  simp only [ends_bind, ends_modify, ends_pure]
  exact ⟨.eq, s₁, hanswer, ⟨⟩, _, rfl, rfl, rfl⟩

theorem lists_leafStage (hdry : t.settings.isDryRun = true) (c : Choice) :
    Lists (leafStage t c) [c] :=
  fun s => ⟨_, ends_leafStage hdry c s, SearchState.answered_leaf _ c .eq⟩

/-- A step beside the answers, and then the part. -/
theorem lists_aside {f : SearchState → SearchState} (hf : ∀ s : SearchState, s.Aside (f s))
    {m : Search Answer} {choices : List Choice} (h : Lists m choices) :
    Lists (do modify f; m) choices := by
  intro s
  obtain ⟨s', hends, hanswered⟩ := h (f s)
  refine ⟨s', ends_bind.mpr ⟨⟨⟩, f s, ends_modify.mpr rfl, hends⟩, ?_⟩
  rw [hanswered, (hf s).answered]

theorem lists_clockStage (htime : t.settings.timeout = none) {c : Choice} {choices : List Choice}
    (h : Lists (next c) choices) : Lists (clockStage t next c) choices := by
  unfold clockStage
  rw [htime]
  exact h

/-- A branch that is tried or left out. -/
theorem lists_unless {leftOut : Bool} {m : Search Answer} {choices : List Choice}
    (h : leftOut = false → Lists m choices) (s : SearchState) :
    ∃ s', Ends (if leftOut = true then pure none else some <$> m) s
        (if leftOut then none else some .eq) s' ∧
      s'.answered = s.answered ++ (if leftOut then [] else choices).map (·, Answer.eq) := by
  cases leftOut with
  | true => exact ⟨s, ends_pure.mpr ⟨rfl, rfl⟩, (append_nil _).symm⟩
  | false =>
    obtain ⟨s', hends, hanswered⟩ := h rfl s
    exact ⟨s', ends_map.mpr ⟨.eq, hends, rfl⟩, hanswered⟩

/-- One decision: both branches are listed, the one with the constraint first. -/
theorem lists_decide {earlier : List (Constraint × Bool)} {e : Constraint} {es : List Constraint}
    {c : Choice} {on off : List Choice} (hfree : c.forced earlier e ≠ .conflict)
    (hon : (c.forced earlier e).mustDisable = false →
      Lists (decideAll t next (earlier ++ [(e, true)]) es (c.decide true)) on)
    (hoff : (c.forced earlier e).mustEnable = false →
      Lists (decideAll t next (earlier ++ [(e, false)]) es (c.decide false)) off) :
    Lists (decideAll t next earlier (e :: es) c)
      ((if (c.forced earlier e).mustDisable then [] else on)
        ++ (if (c.forced earlier e).mustEnable then [] else off)) := by
  intro s
  obtain ⟨s₁, hends₁, hanswered₁⟩ := lists_unless hon s
  obtain ⟨s₂, hends₂, hanswered₂⟩ := lists_unless hoff s₁
  refine ⟨s₂, ?_, answered_trans hanswered₁ hanswered₂⟩
  rw [decideAll]
  dsimp only
  rw [if_neg hfree, ite_bind_join]
  refine ends_bind.mpr ⟨_, s₁, hends₁, ?_⟩
  rw [if_neg (by split <;> decide), if_neg (by split <;> decide), ite_bind_join]
  refine ends_bind.mpr ⟨_, s₂, hends₂, ?_⟩
  rw [if_neg (by split <;> decide), ends_pure]
  refine ⟨?_, rfl⟩
  -- At least one branch was tried.
  cases hdisable : (c.forced earlier e).mustDisable with
  | false => rfl
  | true =>
    cases henable : (c.forced earlier e).mustEnable with
    | false => rfl
    | true => exact absurd (forced_conflict henable hdisable) hfree

/-- Partitions are listed one after the other, as long as one of them is not left out. -/
theorem lists_partitionFrom {symbols : List Symbol} {c : Choice} {below : Partition → List Choice}
    (hnext : ∀ p, conflicts kind c symbols p = false →
      Lists (next (c.group symbols p)) (below p)) (count : Nat) :
    ∀ p allNeq, (allNeq = false ∨
        ∃ q ∈ Partition.visitFrom count p, conflicts kind c symbols q = false) →
      Lists (partitionFrom kind symbols next c count p [] allNeq)
        (((Partition.visitFrom count p).filter fun q => !conflicts kind c symbols q).flatMap
          below) := by
  induction count using Nat.strong_induction_on with
  | _ count ih =>
  intro p allNeq hsome s
  cases count with
  | zero =>
    rcases hsome with rfl | ⟨q, hq, -⟩
    · exact ⟨s, ends_pure.mpr ⟨rfl, rfl⟩, (append_nil _).symm⟩
    · cases hq
  | succ count =>
    obtain ⟨count', q, hle, hvisit, hgo⟩ := partitionFrom_rest kind symbols next c count p
    rw [partitionFrom]
    dsimp only
    rw [ite_bind_join, any_nil, Bool.or_false]
    rw [hvisit] at hsome ⊢
    cases hl : conflicts kind c symbols p with
    | true =>
      have hskip : (decide (kind = .attrs) &&
          (c.group symbols p).hasConflict (Catalog.pairs symbols)) = true := hl
      -- The partition is left out, so another one is not.
      have hrest : allNeq = false ∨
          ∃ q' ∈ Partition.visitFrom count' q, conflicts kind c symbols q' = false := by
        refine hsome.imp id ?_
        rintro ⟨q', hq', hfree⟩
        rcases mem_cons.mp hq' with rfl | hmem
        · rw [hl] at hfree
          cases hfree
        · exact ⟨q', hmem, hfree⟩
      obtain ⟨s', hends, hanswered⟩ := ih count' (Nat.lt_succ_of_le hle) q allNeq hrest s
      refine ⟨s', ends_bind.mpr ⟨none, s, ?_, ?_⟩, ?_⟩
      · rw [if_pos hskip]
        exact ends_pure.mpr ⟨rfl, rfl⟩
      · rw [← hgo] at hends
        exact hends
      · rw [filter_cons_of_neg (by rw [hl]; decide)]
        exact hanswered
    | false =>
      have hskip : (decide (kind = .attrs) &&
          (c.group symbols p).hasConflict (Catalog.pairs symbols)) = false := hl
      obtain ⟨s₁, hends₁, hanswered₁⟩ := hnext p hl s
      obtain ⟨s', hends, hanswered⟩ := ih count' (Nat.lt_succ_of_le hle) q false (.inl rfl) s₁
      refine ⟨s', ends_bind.mpr ⟨some .eq, s₁, ?_, ?_⟩, ?_⟩
      · rw [if_neg (by rw [hskip]; decide)]
        exact ends_map.mpr ⟨.eq, hends₁, rfl⟩
      · rw [← hgo] at hends
        exact hends
      · rw [filter_cons_of_pos (by rw [hl]; rfl), flatMap_cons]
        exact answered_trans hanswered₁ hanswered

/-- Trying the alternatives visits what lies below each of them. -/
theorem visits_tryAllFrom {f : α → Search Answer} {below : α → List Choice} {as : List α}
    (h : ∀ a ∈ as, Visits (f a) (below a)) :
    ∀ allNeq, Visits (tryAllFrom f allNeq as) (as.flatMap below) := by
  induction as with
  | nil =>
    intro allNeq s
    refine ⟨_, s, ?_, ends_pure.mpr ⟨rfl, rfl⟩, (append_nil _).symm⟩
    split <;> nofun
  | cons a as ih =>
    intro allNeq s
    obtain ⟨answer, s₁, htime, hends₁, hanswered₁⟩ := h a mem_cons_self s
    obtain ⟨allNeq', hstep⟩ : ∃ allNeq', ∀ b s',
        Ends (tryAllFrom f allNeq' as) s₁ b s' → Ends (tryAllFrom f allNeq (a :: as)) s b s' := by
      cases answer with
      | timeout => exact absurd rfl htime
      | neq => exact ⟨allNeq, fun b s' hends => ends_bind.mpr ⟨.neq, s₁, hends₁, hends⟩⟩
      | eq => exact ⟨false, fun b s' hends => ends_bind.mpr ⟨.eq, s₁, hends₁, hends⟩⟩
      | unknown => exact ⟨false, fun b s' hends => ends_bind.mpr ⟨.unknown, s₁, hends₁, hends⟩⟩
    obtain ⟨b, s', htime', hends, hanswered⟩ :=
      ih (fun a' ha' => h a' (mem_cons_of_mem _ ha')) allNeq' s₁
    exact ⟨b, s', htime', hstep b s' hends, answered_trans hanswered₁ hanswered⟩

/-- A dry run that has no time limit and makes no check before the end. -/
theorem traversal_dryRun (hcatalog : t.catalog.WellBound)
    (houtput : t.settings.skipOutputCheck = true) (htable : t.settings.skipTableCheck = true)
    (htime : t.settings.timeout = none) :
    Traversal t (fun m choices => Lists (m (leafStage t)) choices)
      (fun m choices => Visits (m (leafStage t)) choices) where
  leaf c := by
    have hdry : t.settings.isDryRun = true := by
      unfold Settings.isDryRun
      rw [htable, Bool.or_true]
    exact lists_clockStage htime (lists_leafStage hdry c)
  decide := lists_decide
  compare hnext := by
    -- Neither check is made, and these stages only pass on.
    unfold tableStage notNullStage
    beta_reduce
    rw [if_pos htable]
    refine lists_aside (fun s => ?_) hnext
    exact ⟨rfl, rfl, rfl, rfl, rfl⟩
  partition hnext hfree := lists_partitionFrom hnext _ _ true (.inr (hfree hcatalog))
  output hnext := by
    unfold outputStage
    beta_reduce
    rw [if_pos houtput]
    exact hnext.visits
  tryAll hall := visits_tryAllFrom hall true

/-- **A dry run visits all complete choices**, if it has no time limit and no check is made before
the end. -/
theorem explore_visits {catalog : Catalog} {settings : Settings} (oracle : Oracle)
    (clock : Nat → Nat) (hcatalog : catalog.WellBound) (houtput : settings.skipOutputCheck = true)
    (htable : settings.skipTableCheck = true) (htime : settings.timeout = none) :
    Visits (explore (.ofCatalog catalog settings oracle clock)) catalog.completeChoices :=
  (traversal_dryRun (t := .ofCatalog catalog settings oracle clock) hcatalog houtput htable
    htime).exploreWith

end Search

end QueryRules
