import Mathlib.Data.List.Induction
import QueryRules.Proofs.CatalogBuild
import QueryRules.Proofs.SearchMemory

/-!
# QueryRules — finer choices and largest assignments

What an answer says about one choice is carried over to others by inclusion: to finer choices
(`Choice.Finer`), and to all complete choices below the largest assignment of a choice
(`SearchTask.cap`).
-/

namespace QueryRules

open List Assignment

/-! ## Finer choices -/

namespace Choice

/-- The two choices differ only in the classes of equal symbols, and `c` makes no symbols equal
that `d` does not. -/
structure Finer (c d : Choice) : Prop where
  sources : c.sources = d.sources
  copies : c.copies = d.copies
  integrity : c.integrity = d.integrity
  isEq : ∀ a b, c.isEq a b = true → d.isEq a b = true

theorem Finer.refl (c : Choice) : c.Finer c :=
  ⟨rfl, rfl, rfl, fun _ _ h => h⟩

theorem Finer.trans {c d e : Choice} (hcd : c.Finer d) (hde : d.Finer e) : c.Finer e :=
  ⟨hcd.sources.trans hde.sources, hcd.copies.trans hde.copies,
    hcd.integrity.trans hde.integrity, fun a b h => hde.isEq a b (hcd.isEq a b h)⟩

/-- No symbol of these kinds is in a block yet. -/
def Ungrouped (c : Choice) (kinds : List SymbolKind) : Prop :=
  ∀ a, a.kind ∈ kinds → c.blocks.lookup a = .none

theorem Ungrouped.tail {c : Choice} {kind : SymbolKind} {kinds : List SymbolKind}
    (h : c.Ungrouped (kind :: kinds)) : c.Ungrouped kinds :=
  fun a ha => h a (mem_cons_of_mem _ ha)

section Group

variable {kind : SymbolKind} {kinds : List SymbolKind} {symbols : List Symbol}
  {c d : Choice} {p q : Partition}

/-- Only symbols that are in the list get a block. -/
theorem lookup_zip_eq_none {a : Symbol} (h : a ∉ symbols) :
    (symbols.zip p).lookup a = .none := by
  rw [lookup_eq_none_iff]
  intro x hx
  have hmem : x.1 ∈ symbols := (of_mem_zip hx).1
  have hne : a ≠ x.1 := fun heq => h (heq ▸ hmem)
  simpa using hne

/-- The blocks of one kind leave the other kinds as they are. -/
theorem lookup_group_of_ne (hsym : ∀ a ∈ symbols, a.kind = kind) {a : Symbol}
    (ha : a.kind ≠ kind) : (c.group symbols p).blocks.lookup a = c.blocks.lookup a := by
  have hnot : a ∉ symbols := fun hmem => ha (hsym a hmem)
  show (c.blocks ++ symbols.zip p).lookup a = _
  rw [lookup_append, lookup_zip_eq_none hnot, Option.or_none]

/-- The blocks of a kind that had none are those of the partition. -/
theorem lookup_group (hc : c.Ungrouped (kind :: kinds)) {a : Symbol} (ha : a.kind = kind) :
    (c.group symbols p).blocks.lookup a = (symbols.zip p).lookup a := by
  show (c.blocks ++ symbols.zip p).lookup a = _
  rw [lookup_append, hc a (ha ▸ mem_cons_self), Option.none_or]

theorem Ungrouped.group (hsym : ∀ a ∈ symbols, a.kind = kind) (hkind : kind ∉ kinds)
    (hc : c.Ungrouped (kind :: kinds)) : (c.group symbols p).Ungrouped kinds := by
  intro a ha
  have hne : a.kind ≠ kind := fun heq => hkind (heq ▸ ha)
  rw [lookup_group_of_ne hsym hne]
  exact hc.tail a ha

/-- Whether symbols of the grouped kind are equal depends on the partition alone. -/
theorem isEq_group (hc : c.Ungrouped (kind :: kinds)) (hd : d.Ungrouped (kind :: kinds))
    {a b : Symbol} (ha : a.kind = kind) :
    (c.group symbols p).isEq a b = (d.group symbols p).isEq a b := by
  unfold isEq
  by_cases hab : a.kind = b.kind
  · rw [lookup_group hc ha, lookup_group hd ha, lookup_group hc (hab ▸ ha),
      lookup_group hd (hab ▸ ha)]
  · simp only [hab, decide_false, Bool.false_and]

theorem isEq_group_of_ne (hsym : ∀ a ∈ symbols, a.kind = kind) {a b : Symbol}
    (ha : a.kind ≠ kind) : (c.group symbols p).isEq a b = c.isEq a b := by
  unfold isEq
  by_cases hab : a.kind = b.kind
  · rw [lookup_group_of_ne hsym ha, lookup_group_of_ne hsym (hab ▸ ha)]
  · simp only [hab, decide_false, Bool.false_and]

/-- One more kind, grouped in the same way on both sides. -/
theorem Finer.group (hsym : ∀ a ∈ symbols, a.kind = kind) (hc : c.Ungrouped (kind :: kinds))
    (hd : d.Ungrouped (kind :: kinds)) (h : c.Finer d) :
    (c.group symbols p).Finer (d.group symbols p) := by
  refine ⟨h.sources, h.copies, h.integrity, fun a b hab => ?_⟩
  by_cases ha : a.kind = kind
  · rw [← isEq_group hc hd ha]
    exact hab
  · rw [isEq_group_of_ne hsym ha] at hab ⊢
    exact h.isEq a b hab

theorem isEq_comm (c : Choice) (a b : Symbol) : c.isEq a b = c.isEq b a := by
  have hsame : Decidable.decide (a = b) = Decidable.decide (b = a) :=
    decide_eq_decide.mpr eq_comm
  have hkind : Decidable.decide (a.kind = b.kind) = Decidable.decide (b.kind = a.kind) :=
    decide_eq_decide.mpr eq_comm
  unfold isEq
  rw [hsame, hkind]
  cases c.blocks.lookup a <;> cases c.blocks.lookup b <;> simp [eq_comm]

/-- A partition whose flags are included in those of another one is finer. The flags are taken for
the pairs of symbols in one order only, which is enough since equality is symmetric. -/
theorem finer_group (hsym : ∀ a ∈ symbols, a.kind = kind) (hc : c.Ungrouped (kind :: kinds))
    (h : subset
      ((Catalog.pairs symbols).map fun (a, b) => (c.group symbols p).isEq a b)
      ((Catalog.pairs symbols).map fun (a, b) => (c.group symbols q).isEq a b) = true) :
    (c.group symbols p).Finer (c.group symbols q) := by
  rw [subset_map] at h
  refine ⟨rfl, rfl, rfl, fun a b hab => ?_⟩
  by_cases ha : a.kind = kind
  · by_cases heq : a = b
    · simp [isEq, heq]
    -- Different symbols are equal only through a block, so both are in the list.
    have hmem : a ∈ symbols ∧ b ∈ symbols := by
      by_contra hnot
      have hkind : a.kind = b.kind := by
        by_contra hkind
        simp [isEq, heq, hkind] at hab
      have hnone : (symbols.zip p).lookup a = .none ∨ (symbols.zip p).lookup b = .none := by
        rw [not_and_or] at hnot
        exact hnot.imp lookup_zip_eq_none lookup_zip_eq_none
      unfold isEq at hab
      rw [lookup_group hc ha, lookup_group hc (hkind ▸ ha)] at hab
      rcases hnone with hnone | hnone
      · simp [heq, hnone] at hab
      · cases hla : (symbols.zip p).lookup a <;> simp [heq, hnone, hla] at hab
    rcases Catalog.mem_pairs hmem.1 hmem.2 heq with hpair | hpair
    · exact h (a, b) hpair hab
    · rw [isEq_comm] at hab ⊢
      exact h (b, a) hpair hab
  · rw [isEq_group_of_ne hsym ha] at hab ⊢
    exact hab

end Group

/-- Attribute lists that are drawn from equal symbols stay so in a coarser choice. -/
theorem Finer.sourcesEq {c d : Choice} (h : c.Finer d) {a b : Symbol}
    (hab : c.sourcesEq a b = true) : d.sourcesEq a b = true := by
  unfold Choice.sourcesEq Choice.source? at hab ⊢
  rw [h.sources] at hab
  split
  · next x y hx hy =>
    rw [hx, hy] at hab
    exact h.isEq x y hab
  · next hnot =>
    split at hab
    · next x y hx hy => exact absurd hy (hnot x y hx)
    · exact hab

/-- A coarser choice has no new conflict among symbols that are equal in both. -/
theorem Finer.hasConflict {c d : Choice} (h : c.Finer d) {pairs : List (Symbol × Symbol)}
    (hpairs : ∀ x ∈ pairs, d.isEq x.1 x.2 = true → c.isEq x.1 x.2 = true)
    (hd : d.hasConflict pairs = true) : c.hasConflict pairs = true := by
  unfold Choice.hasConflict at hd ⊢
  rw [any_eq_true] at hd ⊢
  obtain ⟨x, hx, hconf⟩ := hd
  simp only [Bool.and_eq_true, Bool.not_eq_true'] at hconf
  refine ⟨x, hx, ?_⟩
  have hne : c.sourcesEq x.1 x.2 = false := by
    by_contra hne
    rw [h.sourcesEq (Bool.not_eq_false _ ▸ hne)] at hconf
    cases hconf.2
  simp [hpairs x hx hconf.1, hne]

variable {e : Constraint}

/-- What a choice enables, one with more equalities enables too. -/
theorem Finer.enables {c d : Choice} (h : c.Finer d)
    (he : SearchTask.enables c e = true) : SearchTask.enables d e = true := by
  cases e with
  | attrsSub attrs source =>
    unfold SearchTask.enables Choice.source? at he ⊢
    rwa [h.sources] at he
  | eq kind left right =>
    unfold SearchTask.enables Choice.copied? at he ⊢
    dsimp only at he ⊢
    rw [h.copies] at he
    split at he
    · next hside =>
      rw [if_pos hside]
      exact h.isEq _ _ he
    · next hside =>
      rw [if_neg hside]
      exact he
  | unique table attrs | notNull table attrs | reference table attrs refTable refAttrs => cases he

theorem Finer.conforms {c d : Choice} (h : c.Finer d) : c.conforms = d.conforms := by
  funext e
  unfold Choice.conforms Choice.source?
  rw [h.sources]

/-! ## The largest flags -/

/-- The flags of integrity constraints that are decided from left to right, each on unless it is
forced off. -/
def greedy (c : Choice) : (earlier : List (Constraint × Bool)) → List Constraint → List Bool
  | _, [] => []
  | earlier, e :: rest =>
    let flag := !(c.forced earlier e).mustDisable
    flag :: c.greedy (earlier ++ [(e, flag)]) rest

/-- A constraint that conforms is forced on if it is a trivial reference, and forced either way by
one alike that conforms. -/
theorem forced_of_conforms {c : Choice} (hconf : c.conforms e = true)
    (earlier : List (Constraint × Bool)) : c.forced earlier e =
      ⟨c.isTrivialReference e || earlier.any fun x => x.2 && c.conforms x.1 && c.alike x.1 e,
        earlier.any fun x => !x.2 && c.conforms x.1 && c.alike x.1 e⟩ := by
  unfold forced
  rw [hconf, Bool.not_true, if_neg Bool.false_ne_true]
  induction earlier using List.reverseRecOn with
  | nil => cases c.isTrivialReference e <;> rfl
  | append_singleton l x ih =>
    rw [foldl_append, ih, any_append, any_append]
    cases hflag : x.2 <;> cases hx : c.conforms x.1 <;> cases halike : c.alike x.1 e <;>
      simp [hflag, hx, halike, Forced.union, Forced.ofFlag, Forced.enable, Forced.disable]

/-- A constraint is forced off if it does not conform, or by one alike that conforms and is off. -/
theorem mustDisable_iff {c : Choice} {earlier : List (Constraint × Bool)} :
    (c.forced earlier e).mustDisable = true ↔
      c.conforms e = false ∨
        ∃ x ∈ earlier, x.2 = false ∧ c.conforms x.1 = true ∧ c.alike x.1 e = true := by
  cases hconf : c.conforms e with
  | false => simp [forced, hconf, Forced.disable]
  | true => simp [forced_of_conforms hconf, and_assoc]

/-- What was off before can only force more off: if everything off on the right is off on the left,
the flags on the left are included in those on the right. -/
theorem greedy_mono (c : Choice) {es : List Constraint} {l r : List (Constraint × Bool)}
    (h : ∀ e, (e, false) ∈ r → (e, false) ∈ l) :
    subset (c.greedy l es) (c.greedy r es) = true := by
  induction es generalizing l r with
  | nil => rfl
  | cons e rest ih =>
    have hforced : (c.forced r e).mustDisable = true → (c.forced l e).mustDisable = true := by
      rw [mustDisable_iff, mustDisable_iff]
      rintro (hconf | ⟨⟨e', flag⟩, hmem, rfl, hrest⟩)
      · exact .inl hconf
      · exact .inr ⟨(e', false), h e' hmem, rfl, hrest⟩
    rw [greedy, greedy, subset, Bool.and_eq_true]
    constructor
    · revert hforced
      cases (c.forced l e).mustDisable <;> cases (c.forced r e).mustDisable <;> simp
    · refine ih fun x hx => ?_
      rcases mem_append.mp hx with hx | hx
      · exact mem_append_left _ (h x hx)
      · obtain ⟨rfl, hoff⟩ := Prod.mk.inj (mem_singleton.mp hx)
        have hdis : (c.forced r x).mustDisable = true := by simpa using hoff.symm
        simp [hforced hdis]

/-- As long as everything that conforms is on, nothing else is forced off. -/
theorem greedy_of_conforms (c : Choice) {es : List Constraint} {earlier : List (Constraint × Bool)}
    (h : ∀ x ∈ earlier, x.2 = c.conforms x.1) : c.greedy earlier es = es.map c.conforms := by
  induction es generalizing earlier with
  | nil => rfl
  | cons e rest ih =>
    have hflag : (!(c.forced earlier e).mustDisable) = c.conforms e := by
      cases hconf : c.conforms e with
      | false => simpa using mustDisable_iff.mpr (.inl hconf)
      | true =>
        rw [Bool.not_eq_true', Bool.eq_false_iff, Ne, mustDisable_iff]
        rintro (hnot | ⟨x, hx, hoff, hon, -⟩)
        · rw [hconf] at hnot
          cases hnot
        · rw [h x hx, hon] at hoff
          cases hoff
    rw [greedy, hflag, map_cons]
    refine congrArg (c.conforms e :: ·) (ih fun x hx => ?_)
    rcases mem_append.mp hx with hx | hx
    · exact h x hx
    · rw [mem_singleton] at hx
      rw [hx]

theorem greedy_decide (c : Choice) (flag : Bool) (earlier : List (Constraint × Bool))
    (es : List Constraint) : (c.decide flag).greedy earlier es = c.greedy earlier es := by
  induction es generalizing earlier with
  | nil => rfl
  | cons e rest ih =>
    have hforced : (c.decide flag).forced earlier e = c.forced earlier e := rfl
    rw [greedy, greedy, hforced, ih]

end Choice

/-! ## Largest assignments -/

namespace SearchTask

/-- The assignment of a choice with the next integrity constraints flagged as given and the others
off. -/
def cap (t : SearchTask) (c : Choice) (rest : List Bool) : Assignment :=
  t.structural.map (enables c) ++ (c.integrity ++ rest)
    ++ List.replicate (t.integritySize - (c.integrity ++ rest).length) false

variable {t : SearchTask} {c d : Choice}

theorem cap_nil (t : SearchTask) (c : Choice) : t.cap c [] = t.flags c false := by
  rw [cap, flags, append_nil]

theorem cap_decide (t : SearchTask) (c : Choice) (flag : Bool) (rest : List Bool) :
    t.cap (c.decide flag) rest = t.cap c (flag :: rest) := by
  have hflags : (c.decide flag).integrity ++ rest = c.integrity ++ flag :: rest := by
    show c.integrity ++ [flag] ++ rest = _
    rw [append_assoc, singleton_append]
  rw [cap, cap, hflags]
  rfl

theorem length_eq_of_subset {a b : Assignment} (h : subset a b = true) :
    a.length = b.length := by
  induction a generalizing b with
  | nil => cases b <;> simp_all [subset]
  | cons x xs ih =>
    cases b with
    | nil => simp [subset] at h
    | cons y ys =>
      rw [subset, Bool.and_eq_true] at h
      rw [length_cons, length_cons, ih h.2]

theorem cap_subset (h : c.Finer d) {l r : List Bool} (hlr : subset l r = true) :
    subset (t.cap c l) (t.cap d r) = true := by
  have hall : subset (c.integrity ++ l) (d.integrity ++ r) = true := by
    rw [h.integrity]
    exact subset_append (subset_refl _) hlr
  rw [cap, cap, length_eq_of_subset hall]
  refine subset_append (subset_append ?_ hall) (subset_refl _)
  exact subset_map.mpr fun e _ he => h.enables he

end SearchTask

/-! ## Bounds on trees -/

namespace SearchTree

variable {α : Type} {t : SearchTask} {tree : Choice → SearchTree} {later : List Constraint}

/-- A tree that leaves the bit alone when it has the given value. -/
def Still (tree : SearchTree) (reached : Bool) : Prop :=
  (tree reached).2 = reached

variable {reached : Bool}

theorem Still.append {l r : SearchTree} (hl : l.Still reached)
    (hr : r.Still reached) : (l.append r).Still reached := by
  show (r (l reached).2).2 = reached
  rw [hl, hr]

theorem Still.all {f : α → SearchTree} {as : List α} {reached : Bool}
    (h : ∀ a ∈ as, (f a).Still reached) : (all f as).Still reached := by
  induction as with
  | nil => rfl
  | cons a as ih =>
    exact Still.append (h a mem_cons_self) (ih fun b hb => h b (mem_cons_of_mem _ hb))

theorem mem_append {l r : SearchTree} {leaf : Choice}
    (h : leaf ∈ (l.append r reached).1) :
    leaf ∈ (l reached).1 ∨ ∃ reached', leaf ∈ (r reached').1 :=
  (List.mem_append.mp h).imp id fun hr => ⟨_, hr⟩

theorem mem_all {f : α → SearchTree} {as : List α} {reached : Bool} {leaf : Choice}
    (h : leaf ∈ (all f as reached).1) : ∃ a ∈ as, ∃ reached', leaf ∈ (f a reached').1 := by
  induction as generalizing reached with
  | nil => cases h
  | cons a as ih =>
    rcases mem_append h with hleft | ⟨reached', hright⟩
    · exact ⟨a, mem_cons_self, reached, hleft⟩
    · obtain ⟨b, hb, hleaf⟩ := ih hright
      exact ⟨b, mem_cons_of_mem _ hb, hleaf⟩

/-- Below every choice the complete choices stay within the assignment that has on whatever of the
later integrity constraints conforms. -/
def Capped (t : SearchTask) (later : List Constraint) (tree : Choice → SearchTree) : Prop :=
  ∀ c reached, ∀ leaf ∈ (tree c reached).1,
    subset (t.flags leaf false) (t.cap c (later.map c.conforms)) = true

theorem capped_leaf (t : SearchTask) : Capped t [] leaf := by
  intro c reached l hl
  rw [leaf, mem_singleton] at hl
  rw [hl, map_nil, SearchTask.cap_nil]
  exact subset_refl _

/-- Decisions stay within the largest flags. Induction on the constraints: with a constraint the
bound is the greedy one; without it the flags that follow are smaller by `Choice.greedy_mono`. -/
theorem Capped.decideAll_from (h : Capped t later tree) (es : List Constraint) :
    ∀ (earlier : List (Constraint × Bool)) (c : Choice) (reached : Bool),
      ∀ leaf ∈ (decideAll tree earlier es c reached).1,
        subset (t.flags leaf false)
          (t.cap c (c.greedy earlier es ++ later.map c.conforms)) = true := by
  induction es with
  | nil =>
    intro earlier c reached leaf hleaf
    exact h c reached leaf hleaf
  | cons e rest ih =>
    intro earlier c reached leaf hleaf
    -- What is decided for `e` is at most what the greedy flags have there.
    have hstep : ∀ flag reached', leaf ∈ (decideAll tree (earlier ++ [(e, flag)]) rest
        (c.decide flag) reached').1 → (flag = true → (c.forced earlier e).mustDisable = false) →
        subset (t.flags leaf false)
          (t.cap c (c.greedy earlier (e :: rest) ++ later.map c.conforms)) = true := by
      intro flag reached' hmem hflag
      have hbelow := ih (earlier ++ [(e, flag)]) (c.decide flag) reached' leaf hmem
      rw [Choice.greedy_decide, SearchTask.cap_decide] at hbelow
      refine subset_trans hbelow (SearchTask.cap_subset (Choice.Finer.refl c) ?_)
      rw [← List.cons_append]
      refine subset_append ?_ (subset_refl _)
      rw [Choice.greedy, subset, Bool.and_eq_true]
      constructor
      · cases flag with
        | false => rfl
        | true => simp [hflag rfl]
      · refine c.greedy_mono fun x hx => ?_
        rcases List.mem_append.mp hx with hx | hx
        · exact List.mem_append_left _ hx
        · obtain ⟨rfl, hoff⟩ := Prod.mk.inj (List.mem_singleton.mp hx)
          cases flag with
          | false => simp
          | true => simp [hflag rfl] at hoff
    rw [decideAll] at hleaf
    rcases mem_append hleaf with hon | ⟨reached', hoff⟩
    · split at hon
      · cases hon
      · next hforced => exact hstep true _ hon fun _ => by simpa using hforced
    · split at hoff
      · cases hoff
      · exact hstep false _ hoff fun h => absurd h Bool.false_ne_true

theorem Capped.decideAll (h : Capped t later tree) (es : List Constraint) :
    Capped t (es ++ later) (decideAll tree [] es) := by
  intro c reached leaf hleaf
  have hbound := h.decideAll_from es [] c reached leaf hleaf
  rwa [c.greedy_of_conforms (fun x hx => absurd hx not_mem_nil), ← map_append] at hbound

theorem Capped.tableStage (h : Capped t later tree) : Capped t later (tableStage t tree) := by
  intro c reached leaf hleaf
  unfold SearchTree.tableStage at hleaf
  split at hleaf
  · exact h c reached leaf hleaf
  · dsimp only at hleaf
    split at hleaf
    · split at hleaf
      · exact h c reached leaf hleaf
      · cases hleaf
    · cases hleaf

theorem Capped.notNullStage (h : Capped t later tree) :
    Capped t (t.notNulls ++ later) (notNullStage t tree) :=
  fun c _ leaf hleaf => h.decideAll t.notNulls c true leaf hleaf

/-- Decisions leave the bit alone if what follows does. -/
theorem Still.decideAll (h : ∀ c, (tree c).Still reached) (es : List Constraint) :
    ∀ (earlier : List (Constraint × Bool)) (c : Choice),
      (decideAll tree earlier es c).Still reached := by
  induction es with
  | nil => exact fun _ c => h c
  | cons e rest ih =>
    intro earlier c
    refine Still.append ?_ ?_
    · split
      · rfl
      · exact ih _ _
    · split
      · rfl
      · exact ih _ _

theorem Still.tableStage (h : ∀ c, (tree c).Still reached) (c : Choice) :
    (tableStage t tree c).Still reached := by
  unfold SearchTree.tableStage Still
  split
  · exact h c
  · dsimp only
    split
    · split
      · exact h c
      · rfl
    · rfl

theorem still_leaf (c : Choice) (reached : Bool) : (leaf c).Still reached :=
  rfl

theorem Still.notNullStage (h : ∀ c, (tree c).Still true) (c : Choice) :
    (notNullStage t tree c).Still true :=
  Still.decideAll h t.notNulls [] c

end SearchTree

end QueryRules
