import Mathlib.Data.Prod.Basic
import QueryRules.Proofs.BoundTemplates

/-!
# QueryRules — how a catalog is built

A catalog is built by loops that add one constraint after the other and record places on the way.
What they build is a list of blocks, each with its places.
-/

namespace QueryRules

open List CatalogIndex

/-- A block of a catalog. -/
inductive Block where
  | attrsSub
  | eq (kind : SymbolKind)
  | copies (kind : SymbolKind)
  | unique
  | notNull
  | reference
  deriving DecidableEq

namespace Block

/-- All blocks in catalog order. -/
def all : List Block :=
  [.attrsSub, .eq .table, .copies .table, .eq .attrs, .copies .attrs, .eq .pred, .copies .pred,
    .unique, .notNull, .reference]

/-- The kind of the constraints in a block. -/
def constraintKind : Block → ConstraintKind
  | .attrsSub => .attrsSub
  | .eq kind => .eq kind
  | .copies kind => .eq kind
  | .unique => .unique
  | .notNull => .notNull
  | .reference => .reference

end Block

/-! ## Growing -/

/-- Consecutive spans of the given sizes, from one place on. -/
def spansFrom {α : Type} (size : α → Nat) : Nat → List α → List (α × Span)
  | _, [] => []
  | first, a :: rest => (a, ⟨first, first + size a⟩) :: spansFrom size (first + size a) rest

section SpansFrom

variable {α : Type} {size : α → Nat} {first : Nat}

theorem map_fst_spansFrom (size : α → Nat) (first : Nat) (l : List α) :
    (spansFrom size first l).map Prod.fst = l := by
  induction l generalizing first with
  | nil => rfl
  | cons a rest ih => rw [spansFrom, map_cons, ih]

/-- The span of an element begins where those before it end. -/
theorem mem_spansFrom {a : α} {span : Span} {l : List α} (h : (a, span) ∈ spansFrom size first l) :
    ∃ before after, l = before ++ a :: after ∧ span.start = first + (before.map size).sum ∧
      span.stop = span.start + size a := by
  induction l generalizing first with
  | nil => cases h
  | cons x rest ih =>
    rcases mem_cons.mp h with heq | h
    · cases heq
      exact ⟨[], rest, rfl, rfl, rfl⟩
    · obtain ⟨before, after, rfl, hstart, hstop⟩ := ih h
      refine ⟨x :: before, after, rfl, ?_, hstop⟩
      rw [hstart, map_cons, sum_cons, Nat.add_assoc]

end SpansFrom

namespace CatalogIndex

theorem write_eq {κ β : Type} [DecidableEq κ] (table : κ → β) (key : κ) (value : β) :
    write table key value = Function.update table key value := by
  funext k
  unfold write
  split
  case isTrue h => rw [h, Function.update_self]
  case isFalse h => rw [Function.update_of_ne h]

/-- Constraints at the end, and records in front of one map. The records are given from the oldest
to the newest. -/
def grow (x : CatalogIndex) (es : List Constraint) (m : PlaceMap)
    (places : List ((Symbol × Symbol) × Nat)) (spans : List (Symbol × Span)) : CatalogIndex :=
  { x with
    entries := x.entries ++ es.toArray
    symbolSpans := Function.update x.symbolSpans m (spans.reverse ++ x.symbolSpans m)
    places := Function.update x.places m (places.reverse ++ x.places m) }

variable {α : Type} {m : PlaceMap} {make : Symbol → Symbol → Constraint} {x : CatalogIndex}

@[simp]
theorem grow_nil (x : CatalogIndex) (m : PlaceMap) : x.grow [] m [] [] = x := by
  unfold grow
  simp

@[simp]
theorem size_grow {es : List Constraint} {places : List ((Symbol × Symbol) × Nat)}
    {spans : List (Symbol × Span)} :
    (x.grow es m places spans).entries.size = x.entries.size + es.length := by
  simp [grow]

theorem grow_grow {es es' : List Constraint} {places places' : List ((Symbol × Symbol) × Nat)}
    {spans spans' : List (Symbol × Span)} :
    (x.grow es m places spans).grow es' m places' spans' =
      x.grow (es ++ es') m (places ++ places') (spans ++ spans') := by
  simp [grow, Array.append_assoc]

/-- A row is placed at the end, each pair at the next place. -/
theorem placeAll_eq (row : List (Symbol × Symbol)) (x : CatalogIndex) :
    placeAll m make row x =
      x.grow (row.map fun p => make p.1 p.2) m (row.zipIdx x.entries.size) [] := by
  unfold placeAll
  induction row generalizing x with
  | nil => exact (grow_nil x m).symm
  | cons p row ih =>
    have hplace : place m make x p = x.grow [make p.1 p.2] m [(p, x.entries.size)] [] := by
      simp [place, push, grow, write_eq]
    rw [foldl_cons, ih, hplace, grow_grow, size_grow]
    rfl

/-- The loop over the symbols of a map: all rows one after the other, each with its span. -/
theorem placeRows_eq (m : PlaceMap) (make : Symbol → Symbol → Constraint)
    (row : Symbol → List (Symbol × Symbol)) (symbols : List Symbol) (x : CatalogIndex) :
    placeRows m make row symbols x =
      x.grow ((symbols.flatMap row).map fun p => make p.1 p.2) m
        ((symbols.flatMap row).zipIdx x.entries.size)
        (spansFrom (fun s => (row s).length) x.entries.size symbols) := by
  unfold placeRows
  induction symbols generalizing x with
  | nil => exact (grow_nil x m).symm
  | cons s symbols ih =>
    have hrow : within (noteSymbol m s) (placeAll m make (row s)) x =
        x.grow ((row s).map fun p => make p.1 p.2) m ((row s).zipIdx x.entries.size)
          [(s, ⟨x.entries.size, x.entries.size + (row s).length⟩)] := by
      unfold within noteSymbol
      rw [placeAll_eq]
      simp [grow, write_eq]
    rw [foldl_cons, ih, hrow, grow_grow, size_grow, length_map, flatMap_cons,
      map_append, zipIdx_append]
    rfl

/-- The loop over a symbol and the later ones goes through all pairs. -/
theorem placePairs_eq (kind : SymbolKind) (symbols : List Symbol) (x : CatalogIndex) :
    placePairs kind symbols x = placeAll .eq (.eq kind) (Catalog.pairs symbols) x := by
  induction symbols generalizing x with
  | nil => rfl
  | cons a rest ih =>
    rw [placePairs, ih, Catalog.pairs]
    exact foldl_append.symm

/-- A loop that only adds constraints. -/
theorem foldl_grow {body : CatalogIndex → α → CatalogIndex} (es : α → List Constraint)
    (h : ∀ x a, body x a = x.grow (es a) m [] []) (l : List α) (x : CatalogIndex) :
    l.foldl body x = x.grow (l.flatMap es) m [] [] := by
  induction l generalizing x with
  | nil => exact (grow_nil x m).symm
  | cons a l ih => rw [foldl_cons, ih, h, grow_grow, flatMap_cons]; rfl

theorem foldl_push (m : PlaceMap) (e : α → Constraint) (l : List α) (x : CatalogIndex) :
    l.foldl (fun x a => x.push (e a)) x = x.grow (l.map e) m [] [] := by
  rw [map_eq_flatMap]
  refine foldl_grow _ (fun x a => ?_) l x
  simp [push, grow]

end CatalogIndex

/-! ## Maps and blocks -/

/-- The blocks whose constraints are recorded in a map. -/
def PlaceMap.blocks : PlaceMap → List Block
  | .sub => [.attrsSub]
  | .eq => SymbolKind.all.map .eq
  | .copy => SymbolKind.all.map .copies

/-- The constraint on two symbols that a map is about. -/
def PlaceMap.constraint : PlaceMap → Symbol → Symbol → Constraint
  | .sub, attrs, source => .attrsSub attrs source
  | .eq, a, b => .eq a.kind a b
  | .copy, source, target => .eq target.kind source target

theorem PlaceMap.constraint_inj {m : PlaceMap} {a b a' b' : Symbol}
    (h : m.constraint a b = m.constraint a' b') : (a, b) = (a', b') := by
  cases m with
  | sub =>
    obtain ⟨rfl, rfl⟩ := Constraint.attrsSub.inj h
    rfl
  | eq | copy =>
    obtain ⟨-, rfl, rfl⟩ := Constraint.eq.inj h
    rfl

namespace Catalog

/-! ## Pairs -/

section Pairs

variable {α : Type} {a b : α} {l : List α}

/-- Pairs are two elements in their order. -/
theorem mem_pairs_iff :
    (a, b) ∈ pairs l ↔ [a, b].Sublist l := by
  induction l with
  | nil => simp [pairs]
  | cons x l ih =>
    rw [pairs, mem_append, mem_map, ih, sublist_cons_iff]
    constructor
    · rintro (⟨y, hy, heq⟩ | hrest)
      · cases heq
        exact .inr ⟨[b], rfl, singleton_sublist.mpr hy⟩
      · exact .inl hrest
    · rintro (hrest | ⟨r, heq, hr⟩)
      · exact .inr hrest
      · cases heq
        exact .inl ⟨b, singleton_sublist.mp hr, rfl⟩

theorem fst_mem_of_mem_pairs (h : (a, b) ∈ pairs l) : a ∈ l :=
  (mem_pairs_iff.mp h).subset mem_cons_self

theorem snd_mem_of_mem_pairs (h : (a, b) ∈ pairs l) : b ∈ l :=
  (mem_pairs_iff.mp h).subset (mem_cons_of_mem _ mem_cons_self)

/-- Two distinct members make a pair, in one order. -/
theorem mem_pairs (ha : a ∈ l) (hb : b ∈ l) (hab : a ≠ b) :
    (a, b) ∈ pairs l ∨ (b, a) ∈ pairs l := by
  induction l with
  | nil => cases ha
  | cons x l ih =>
    rw [pairs]
    rcases mem_cons.mp ha with rfl | hal <;> rcases mem_cons.mp hb with rfl | hbl
    · exact absurd rfl hab
    · exact .inl (mem_append_left _ (mem_map_of_mem hbl))
    · exact .inr (mem_append_left _ (mem_map_of_mem hal))
    · exact (ih hal hbl).imp (mem_append_right _) (mem_append_right _)

theorem ne_of_mem_pairs (hnodup : l.Nodup) (h : (a, b) ∈ pairs l) :
    a ≠ b := by
  have hpair := hnodup.sublist (mem_pairs_iff.mp h)
  rintro rfl
  exact (nodup_cons.mp hpair).1 mem_cons_self

theorem nodup_pairs (h : l.Nodup) : (pairs l).Nodup := by
  induction l with
  | nil => exact nodup_nil
  | cons a l ih =>
    obtain ⟨hnot, hl⟩ := nodup_cons.mp h
    rw [pairs, nodup_append]
    refine ⟨hl.map (Prod.mk_right_injective a), ih hl, ?_⟩
    rintro _ hx y hy rfl
    -- A pair from the rest does not begin with the first element.
    obtain ⟨b, -, rfl⟩ := mem_map.mp hx
    exact hnot (fst_mem_of_mem_pairs hy)

end Pairs

/-! ## The layout -/

variable (c : Catalog)

/-- The constraints of a block. -/
def block (c : Catalog) : Block → List Constraint
  | .attrsSub =>
    (c.source.symbolsOf .attrs).flatMap fun a => (c.source.viableSources a).map (.attrsSub a)
  | .eq kind => (pairs (c.source.symbolsOf kind)).map fun (a, b) => .eq kind a b
  | .copies kind =>
    (c.target.symbolsOf kind).flatMap fun target =>
      (c.source.symbolsOf kind).map (.eq kind · target)
  | .unique => (c.source.symbolsOf .attrs).flatMap fun a => (c.tableSources a).map (.unique · a)
  | .notNull => (c.source.symbolsOf .attrs).flatMap fun a => (c.tableSources a).map (.notNull · a)
  | .reference =>
    (c.source.symbolsOf .attrs).flatMap fun a =>
      (c.source.symbolsOf .attrs).flatMap fun b =>
        if a = b then []
        else (c.tableSources a).flatMap fun t => (c.tableSources b).map (.reference t a · b)

/-- The symbols whose constraints are a block of their own within a block. -/
def owners : Block → List Symbol
  | .attrsSub => c.source.symbolsOf .attrs
  | .copies kind => c.target.symbolsOf kind
  | _ => []

/-- The pairs of symbols of one owner. -/
def row : Block → Symbol → List (Symbol × Symbol)
  | .attrsSub, a => (c.source.viableSources a).map (a, ·)
  | .copies kind, target => (c.source.symbolsOf kind).map (·, target)
  | _, _ => []

/-- The pairs of symbols of a block that have their places recorded. -/
def keys : Block → List (Symbol × Symbol)
  | .eq kind => pairs (c.source.symbolsOf kind)
  | b => (c.owners b).flatMap (c.row b)

/-- The place of the first constraint of a block: the number of constraints in the blocks before
it. -/
def start (b : Block) : Nat :=
  ((Block.all.takeWhile (· ≠ b)).flatMap c.block).length

/-- The places of a block. -/
def blockSpan (b : Block) : Span :=
  ⟨c.start b, c.start b + (c.block b).length⟩

/-- The blocks with their places. -/
def layout : CatalogIndex where
  entries := (Block.all.flatMap c.block).toArray
  kindSpans
    | .attrsSub => c.blockSpan .attrsSub
    | .eq kind => ⟨(c.blockSpan (.eq kind)).start, (c.blockSpan (.copies kind)).stop⟩
    | .unique => c.blockSpan .unique
    | .notNull => c.blockSpan .notNull
    | .reference => c.blockSpan .reference
  eqSpans kind := c.blockSpan (.eq kind)
  copySpans kind := c.blockSpan (.copies kind)
  symbolSpans m :=
    (m.blocks.flatMap fun b => spansFrom (fun s => (c.row b s).length) (c.start b) (c.owners b))
      |>.reverse
  places m := (m.blocks.flatMap fun b => (c.keys b).zipIdx (c.start b)).reverse

theorem block_attrsSub :
    c.block .attrsSub = (c.keys .attrsSub).map fun p => .attrsSub p.1 p.2 := by
  simp [block, keys, owners, row, map_flatMap, Function.comp_def]

theorem block_copies (kind : SymbolKind) :
    c.block (.copies kind) = (c.keys (.copies kind)).map fun p => .eq kind p.1 p.2 := by
  simp [block, keys, owners, row, map_flatMap, Function.comp_def]

/-- The index with the rows of a block. -/
def withRows (m : PlaceMap) (b : Block) (x : CatalogIndex) : CatalogIndex :=
  x.grow (c.block b) m ((c.keys b).zipIdx x.entries.size)
    (spansFrom (fun s => (c.row b s).length) x.entries.size (c.owners b))

theorem addSubs_eq (x : CatalogIndex) :
    c.addSubs x = within (.noteKind .attrsSub) (c.withRows .sub .attrsSub) x := by
  have hrows := placeRows_eq .sub .attrsSub (c.row .attrsSub) (c.owners .attrsSub) x
  unfold addSubs within withRows
  rw [block_attrsSub]
  exact congrArg (fun y => noteKind .attrsSub ⟨x.entries.size, y.entries.size⟩ y) hrows

/-- Equalities are noted before copies, and both within the span of their kind. -/
theorem addEqs_eq (x : CatalogIndex) (kind : SymbolKind) :
    c.addEqs x kind = within (.noteKind (.eq kind)) (fun x =>
      within (.noteCopies kind) (c.withRows .copy (.copies kind))
        (within (.noteEqs kind) (c.withRows .eq (.eq kind)) x)) x := by
  have heqs : placePairs kind (c.source.symbolsOf kind) =
      c.withRows .eq (.eq kind) := by
    funext x
    rw [placePairs_eq, placeAll_eq]
    rfl
  have hcopies : placeRows .copy (.eq kind)
      (fun target => (c.source.symbolsOf kind).map (·, target)) (c.target.symbolsOf kind) =
      c.withRows .copy (.copies kind) := by
    funext x
    unfold withRows
    rw [block_copies]
    exact placeRows_eq .copy (.eq kind) (c.row (.copies kind))
      (c.owners (.copies kind)) x
  unfold addEqs
  dsimp only
  rw [heqs, hcopies]

theorem addKeys_eq (kind : ConstraintKind) (make : Symbol → Symbol → Constraint) {b : Block}
    (hrows : ∀ x, c.withRows .sub b x = x.grow ((c.source.symbolsOf .attrs).flatMap
      fun a => (c.tableSources a).map (make · a)) .sub [] []) (x : CatalogIndex) :
    c.addKeys kind make x = within (.noteKind kind) (c.withRows .sub b) x := by
  unfold addKeys
  congr 1
  funext x
  rw [hrows]
  exact foldl_grow (fun a => (c.tableSources a).map (make · a))
    (fun x a => foldl_push .sub (make · a) _ x) _ x

/-- References are noted within the span of their kind. -/
theorem addReferences_eq (x : CatalogIndex) : c.addReferences x =
    within (.noteKind .reference) (c.withRows .sub .reference) x := by
  unfold addReferences
  congr 1
  funext x
  refine foldl_grow _ (fun x a => foldl_grow _ (fun x b => ?_) _ x) _ x
  split
  · exact (grow_nil x .sub).symm
  · exact foldl_grow (fun t => (c.tableSources b).map (.reference t a · b))
      (fun x t => foldl_push .sub (.reference t a · b) _ x) _ x

/-- All that is recorded: the blocks in their order, the spans between their ends, and each pair of
symbols with its place. -/
theorem index_eq_layout : c.index = c.layout := by
  have huniques := c.addKeys_eq .unique .unique (b := .unique) fun _ => rfl
  have hnotNulls := c.addKeys_eq .notNull .notNull (b := .notNull) fun _ => rfl
  unfold index layout
  simp only [SymbolKind.all, List.foldl, addSubs_eq, addEqs_eq, huniques, hnotNulls,
    addReferences_eq, within, withRows, noteKind, noteEqs,
    noteCopies, write_eq, grow]
  congr 1
  · simp [Block.all, empty]
  · funext kind
    rcases kind with _ | (_ | _ | _) | _ | _ | _ <;>
      simp [empty, blockSpan, start, Block.all, Nat.add_assoc]
  · funext kind
    cases kind <;> simp [empty, blockSpan, start, Block.all, Nat.add_assoc]
  · funext kind
    cases kind <;> simp [empty, blockSpan, start, Block.all, Nat.add_assoc]
  · funext m
    cases m <;>
      simp [empty, PlaceMap.blocks, SymbolKind.all, start, Block.all, owners,
        spansFrom]
  · funext m
    cases m <;>
      simp [empty, PlaceMap.blocks, SymbolKind.all, start, Block.all, keys, owners]

/-! ## What look-ups find -/

variable {c} {m : PlaceMap} {b : Block} {s a a' : Symbol} {i : Nat}

theorem entries_eq_blocks (c : Catalog) : c.entries = Block.all.flatMap c.block := by
  unfold entries
  rw [index_eq_layout]
  rfl

/-- The constraints of a block have the kind of the block. -/
theorem kind_of_mem_block {e : Constraint} (h : e ∈ c.block b) : e.kind = b.constraintKind := by
  cases b with
  | eq kind =>
    obtain ⟨pair, -, rfl⟩ := mem_map.mp h
    rfl
  | reference =>
    obtain ⟨a, -, h⟩ := mem_flatMap.mp h
    obtain ⟨b, -, h⟩ := mem_flatMap.mp h
    split at h
    · cases h
    · obtain ⟨table, -, h⟩ := mem_flatMap.mp h
      obtain ⟨refTable, -, rfl⟩ := mem_map.mp h
      rfl
  | attrsSub | copies kind | unique | notNull =>
    obtain ⟨s, -, h⟩ := mem_flatMap.mp h
    obtain ⟨s', -, rfl⟩ := mem_map.mp h
    rfl

theorem mem_allBlocks (b : Block) : b ∈ Block.all := by
  cases b with
  | eq kind | copies kind => cases kind <;> decide
  | _ => decide

theorem entries_split (c : Catalog) (b : Block) : ∃ before after,
    c.entries = before ++ c.block b ++ after ∧ before.length = c.start b := by
  obtain ⟨before, after, hsplit, hb⟩ := eq_append_cons_of_mem (mem_allBlocks b)
  refine ⟨before.flatMap c.block, after.flatMap c.block, ?_, ?_⟩
  · rw [entries_eq_blocks, hsplit, flatMap_append, flatMap_cons, append_assoc]
  · unfold start
    rw [hsplit, takeWhile_ne_append hb]

/-- A constraint with recorded place is the one on the two symbols of the record. -/
theorem block_eq_map_keys (hb : b ∈ m.blocks) :
    c.block b = (c.keys b).map fun p => m.constraint p.1 p.2 := by
  cases m with
  | sub =>
    obtain rfl := mem_singleton.mp hb
    exact c.block_attrsSub
  | eq =>
    obtain ⟨kind, -, rfl⟩ := mem_map.mp hb
    refine map_congr_left fun p hp => ?_
    rw [PlaceMap.constraint, Template.kind_of_mem_symbolsOf (fst_mem_of_mem_pairs hp)]
  | copy =>
    obtain ⟨kind, -, rfl⟩ := mem_map.mp hb
    rw [block_copies]
    refine map_congr_left fun p hp => ?_
    obtain ⟨target, htarget, hp⟩ := mem_flatMap.mp hp
    obtain ⟨source, -, rfl⟩ := mem_map.mp hp
    rw [PlaceMap.constraint, Template.kind_of_mem_symbolsOf htarget]

theorem mem_places_iff {p : Symbol × Symbol} : (p, i) ∈ c.index.places m ↔
    ∃ b ∈ m.blocks, c.start b ≤ i ∧ (c.keys b)[i - c.start b]? = some p := by
  rw [index_eq_layout]
  simp only [layout, mem_reverse, mem_flatMap, mk_mem_zipIdx_iff_le_and_getElem?_sub]

/-- At a recorded place stands the constraint on the two symbols. -/
theorem getElem?_of_place (h : c.index.place? m a a' = some i) :
    c.entries[i]? = some (m.constraint a a') ∧ ∃ b ∈ m.blocks, (a, a') ∈ c.keys b := by
  obtain ⟨b, hb, hle, hkey⟩ := mem_places_iff.mp (mem_of_lookup h)
  refine ⟨?_, b, hb, mem_of_getElem? hkey⟩
  obtain ⟨before, after, hsplit, hlen⟩ := entries_split c b
  have hentry : (c.block b)[i - c.start b]? = some (m.constraint a a') := by
    rw [block_eq_map_keys hb, getElem?_map, hkey]
    rfl
  obtain ⟨hlt, -⟩ := List.getElem?_eq_some_iff.mp hentry
  rw [hsplit, append_assoc, getElem?_append_right (hlen ▸ hle), hlen,
    getElem?_append_left hlt, hentry]

/-- Two symbols that have a place are a pair. -/
theorem mem_pairs_of_place (h : c.index.place? .eq a a' = some i) :
    (a, a') ∈ pairs (c.source.symbolsOf a.kind) := by
  obtain ⟨-, b, hb, hkey⟩ := getElem?_of_place h
  obtain ⟨kind, -, rfl⟩ := mem_map.mp hb
  rwa [Template.kind_of_mem_symbolsOf (fst_mem_of_mem_pairs hkey)]

/-- The pairs of a block have a place. -/
theorem isSome_place (hb : b ∈ m.blocks) (h : (a, a') ∈ c.keys b) :
    (c.index.place? m a a').isSome = true := by
  obtain ⟨k, hk⟩ := mem_iff_getElem?.mp h
  have hplace : ((a, a'), c.start b + k) ∈ c.index.places m :=
    mem_places_iff.mpr ⟨b, hb, Nat.le_add_right _ _, by rw [Nat.add_sub_cancel_left, hk]⟩
  rw [Option.isSome_iff_ne_none]
  intro hnone
  exact lookup_eq_none_iff_not_mem.mp hnone (mem_map_of_mem (f := Prod.fst) hplace)

/-- Spans are recorded for the symbols with a row. -/
theorem mem_symbolSpans_iff : s ∈ (c.index.symbolSpans m).map Prod.fst ↔
    ∃ b ∈ m.blocks, s ∈ c.owners b := by
  rw [index_eq_layout]
  simp only [layout, map_reverse, mem_reverse, map_flatMap, mem_flatMap,
    map_fst_spansFrom]

/-- The recorded span of a symbol holds its row of constraints. -/
theorem symbolSpan_split (hs : ∃ b ∈ m.blocks, s ∈ c.owners b) :
    ∃ b ∈ m.blocks, s ∈ c.owners b ∧ ∃ before after,
      c.entries = before ++ (c.row b s).map (fun p => m.constraint p.1 p.2) ++ after ∧
      c.index.symbolSpan m s = ⟨before.length, before.length + (c.row b s).length⟩ := by
  obtain ⟨span, hspan⟩ : ∃ span, (c.index.symbolSpans m).lookup s = some span := by
    rw [← Option.ne_none_iff_exists']
    intro hnone
    exact lookup_eq_none_iff_not_mem.mp hnone (mem_symbolSpans_iff.mpr hs)
  have hmem := mem_of_lookup hspan
  rw [index_eq_layout] at hmem
  -- The span is known from the layout, the constraints from the keys of the block.
  obtain ⟨b, hb, hmem⟩ := mem_flatMap.mp (mem_reverse.mp hmem)
  obtain ⟨xs, ys, howners, hstart, hstop⟩ := mem_spansFrom hmem
  refine ⟨b, hb, howners ▸ mem_append_right _ mem_cons_self, ?_⟩
  obtain ⟨before, after, hsplit, hlen⟩ := entries_split c b
  have hkeys : c.keys b = xs.flatMap (c.row b) ++ (c.row b s ++ ys.flatMap (c.row b)) := by
    have hrows : c.keys b = (c.owners b).flatMap (c.row b) := by
      cases b with
      | eq kind => cases append_ne_nil_of_right_ne_nil xs (cons_ne_nil s ys) howners.symm
      | _ => rfl
    rw [hrows, howners, flatMap_append, flatMap_cons]
  refine ⟨before ++ (xs.flatMap (c.row b)).map (fun p => m.constraint p.1 p.2),
    (ys.flatMap (c.row b)).map (fun p => m.constraint p.1 p.2) ++ after, ?_, ?_⟩
  · rw [hsplit, block_eq_map_keys hb, hkeys]
    simp only [map_append, append_assoc]
  · unfold symbolSpan
    rw [hspan, Option.getD_some, length_append, length_map, length_flatMap, hlen,
      ← hstart, ← hstop]

/-- A symbol without a row has no places. -/
theorem symbolSpan_eq_empty (hs : ∀ b ∈ m.blocks, s ∉ c.owners b) :
    c.index.symbolSpan m s = ⟨0, 0⟩ := by
  have hnone : (c.index.symbolSpans m).lookup s = none := by
    rw [lookup_eq_none_iff_not_mem, mem_symbolSpans_iff]
    rintro ⟨b, hb, hmem⟩
    exact hs b hb hmem
  unfold symbolSpan
  rw [hnone]
  rfl

/-! ## Spans and places by kind -/

theorem kindSpan_eq (c : Catalog) (kind : ConstraintKind) :
    c.kindSpan kind = c.layout.kindSpans kind := by
  unfold kindSpan
  rw [index_eq_layout]

theorem eqsSpan_eq (c : Catalog) (kind : SymbolKind) : c.eqsSpan kind = c.blockSpan (.eq kind) := by
  unfold eqsSpan
  rw [index_eq_layout]
  rfl

theorem copiesSpan_eq (c : Catalog) (kind : SymbolKind) :
    c.copiesSpan kind = c.blockSpan (.copies kind) := by
  unfold copiesSpan
  rw [index_eq_layout]
  rfl

theorem mem_blocks_eq (kind : SymbolKind) : .eq kind ∈ PlaceMap.eq.blocks := by
  cases kind <;> decide

theorem mem_blocks_copy (kind : SymbolKind) : .copies kind ∈ PlaceMap.copy.blocks := by
  cases kind <;> decide

/-- Two source symbols of one kind have a place where they are equal. -/
theorem isSome_eqPlace {kind : SymbolKind} {a b : Symbol}
    (h : (a, b) ∈ pairs (c.source.symbolsOf kind)) : (c.eqPlace? a b).isSome = true := by
  obtain ⟨i, hi⟩ := Option.isSome_iff_exists.mp (isSome_place (mem_blocks_eq kind) h)
  unfold eqPlace?
  rw [hi]
  rfl

/-- A target symbol has a place where it copies a source symbol of its kind. -/
theorem isSome_copyPlace {kind : SymbolKind} {source target : Symbol}
    (hsource : source ∈ c.source.symbolsOf kind) (htarget : target ∈ c.target.symbolsOf kind) :
    (c.copyPlace? source target).isSome = true :=
  isSome_place (mem_blocks_copy kind)
    (mem_flatMap.mpr ⟨target, htarget, mem_map_of_mem hsource⟩)

/-- Entries around the places of an attribute list. -/
theorem subSpan_split (ha : a ∈ c.source.symbolsOf .attrs) : ∃ before after,
    c.entries = before ++ (c.source.viableSources a).map (.attrsSub a) ++ after ∧
      c.subSpan a = ⟨before.length, before.length + (c.source.viableSources a).length⟩ := by
  obtain ⟨b, hb, -, before, after, hsplit, hspan⟩ :=
    symbolSpan_split (m := .sub) ⟨.attrsSub, mem_singleton_self _, ha⟩
  obtain rfl := mem_singleton.mp hb
  simp only [row, map_map, length_map] at hsplit hspan
  exact ⟨before, after, hsplit, hspan⟩

/-- Entries around the places of a target symbol. All target symbols of a kind have as many. -/
theorem copySpan_split {target : Symbol} (ht : target ∈ c.target.symbolsOf target.kind) :
    ∃ before after, c.entries =
        before ++ (c.source.symbolsOf target.kind).map (.eq target.kind · target) ++ after ∧
      c.copySpan target =
        ⟨before.length, before.length + (c.source.symbolsOf target.kind).length⟩ := by
  obtain ⟨b, hb, howner, before, after, hsplit, hspan⟩ :=
    symbolSpan_split ⟨.copies target.kind, mem_blocks_copy _, ht⟩
  obtain ⟨kind, -, rfl⟩ := mem_map.mp hb
  obtain rfl : target.kind = kind := Template.kind_of_mem_symbolsOf howner
  simp only [row, map_map, length_map] at hsplit hspan
  exact ⟨before, after, hsplit, hspan⟩

/-! ## Slices -/

/-- The constraints that are no integrity constraints. -/
def structural (c : Catalog) : List Constraint :=
  (Block.all.take 7).flatMap c.block

/-- The integrity constraints. -/
def integrity (c : Catalog) : List Constraint :=
  c.block .unique ++ c.block .notNull ++ c.block .reference

theorem take_entries (c : Catalog) : c.entries.take (c.kindSpan .unique).start = c.structural := by
  rw [entries_eq_blocks, kindSpan_eq, ← take_append_drop 7 Block.all, flatMap_append]
  exact take_left

/-- The places of a block hold the block. -/
theorem extract_blockSpan (c : Catalog) (b : Block) :
    c.entries.extract (c.blockSpan b).start (c.blockSpan b).stop = c.block b := by
  obtain ⟨before, after, hsplit, hlen⟩ := entries_split c b
  unfold blockSpan List.extract
  rw [hsplit, append_assoc, Nat.add_sub_cancel_left, ← hlen, drop_left, take_left]

end Catalog

/-- The task of a search takes the blocks from their places. -/
theorem SearchTask.ofCatalog_eq (c : Catalog) (settings : Settings) (oracle : Oracle)
    (clock : Nat → Nat) : SearchTask.ofCatalog c settings oracle clock =
      ⟨c, settings, oracle, clock, c.structural, c.block .unique, c.block .notNull,
        c.block .reference⟩ := by
  unfold SearchTask.ofCatalog Catalog.ofKind
  rw [Catalog.take_entries]
  simp only [Catalog.kindSpan_eq, Catalog.layout, Catalog.extract_blockSpan]

theorem SearchTask.flags_ofCatalog (catalog : Catalog) (settings : Settings) (oracle : Oracle)
    (clock : Nat → Nat) (c : Choice) (undecided : Bool) :
    (SearchTask.ofCatalog catalog settings oracle clock).flags c undecided =
      catalog.structural.map (SearchTask.enables c) ++ c.integrity
        ++ List.replicate (catalog.integrity.length - c.integrity.length) undecided := by
  unfold SearchTask.flags SearchTask.integritySize Catalog.integrity
  rw [SearchTask.ofCatalog_eq, length_append, length_append]

end QueryRules
