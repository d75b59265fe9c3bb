import QueryRules.Proofs.ChoiceParts

/-!
# QueryRules — places of a catalog

The search looks at an assignment through the recorded places: the flag at the place of two symbols
says whether they are equal, and the first flag among the places of an attribute list or a target
symbol says what it is drawn from or what it copies.
-/

namespace QueryRules

namespace Catalog

variable {catalog : Catalog} {e : Constraint} {i : Nat} {flags : Assignment}

/-- Whether an assignment has a flag at a place. -/
def flagged (flags : Assignment) (place : Nat) : Bool :=
  flags[place]?.getD false

/-- The constraint at the first place of a span that has a flag. -/
def firstFlagged? (catalog : Catalog) (flags : Assignment) (span : Span) : Option Constraint :=
  ((List.range' span.start (span.stop - span.start)).find? (flagged flags)).bind fun i =>
    catalog.entries[i]?

/-- Two source symbols are equal by the flag at their place. -/
def flaggedEq (catalog : Catalog) (flags : Assignment) (a b : Symbol) : Bool :=
  a = b || (catalog.eqPlace? a b).any (flagged flags)

/-- What an attribute list is drawn from, by the first flag among its places. -/
def flaggedSource? (catalog : Catalog) (flags : Assignment) (attrs : Symbol) : Option Symbol :=
  (catalog.firstFlagged? flags (catalog.subSpan attrs)).bind fun e => e.symbols[1]?

/-- What a target symbol copies, by the first flag among its places. -/
def flaggedCopied? (catalog : Catalog) (flags : Assignment) (target : Symbol) : Option Symbol :=
  (catalog.firstFlagged? flags (catalog.copySpan target)).bind fun e => e.symbols[0]?

section Looking

variable (h : catalog.WellBound) (hlen : flags.length = catalog.entries.length)

include h hlen

/-- The flag at the place of a constraint says whether it is chosen. -/
theorem flagged_place (hplace : catalog.entries[i]? = some e) :
    flagged flags i = decide (e ∈ catalog.chosen flags) := by
  unfold flagged
  rw [eq_map_chosen h hlen, List.getElem?_map, hplace, ← eq_map_chosen h hlen]
  rfl

/-- The first flag of a slice is at the first constraint that is chosen. -/
theorem firstFlagged?_slice {before slice after : List Constraint}
    (hsplit : catalog.entries = before ++ slice ++ after) :
    catalog.firstFlagged? flags ⟨before.length, before.length + slice.length⟩ =
      slice.find? fun e => decide (e ∈ catalog.chosen flags) := by
  have hfind := find?_slice (fun e => decide (e ∈ catalog.chosen flags)) before slice after
  rw [← hsplit, ← eq_map_chosen h hlen] at hfind
  unfold firstFlagged?
  dsimp only
  rw [Nat.add_sub_cancel_left]
  exact hfind

/-- Two source symbols are equal by the flag at their place exactly if the assignment makes them
equal. The place is that of one order, and the catalog has no other. -/
theorem flaggedEq_iff {a b : Symbol} (ha : a ∈ catalog.source.symbols)
    (hb : b ∈ catalog.source.symbols) :
    catalog.flaggedEq flags a b = true ↔ catalog.Equates flags a b := by
  have hplaced : ∀ {kind c d}, d ∈ catalog.source.symbols → .eq kind c d ∈ catalog.chosen flags →
      catalog.index.place? .eq c d ≠ none := by
    intro kind c d hd hchosen hnone
    rcases Parts.mem_entries_eq (mem_entries_of_mem_chosen hchosen) with hpair | ⟨htarget, -⟩
    · have hsome := isSome_place (mem_blocks_eq kind) hpair
      rw [hnone] at hsome
      cases hsome
    · cases (h.source.numbers.sides d hd).symm.trans (h.target.side_of_mem htarget)
  unfold flaggedEq Equates eqPlace?
  rw [Bool.or_eq_true, decide_eq_true_eq]
  refine or_congr Iff.rfl ?_
  cases hab : catalog.index.place? .eq a b with
  | some i =>
    -- The two symbols have a place in this order, so they are no entry in the other.
    have hswap : .eq a.kind b a ∉ catalog.chosen flags := by
      intro hba
      apply not_mem_entries_swap h (mem_pairs_of_place hab)
      exact mem_entries_of_mem_chosen hba
    have hentry : catalog.entries[i]? = some (.eq a.kind a b) := (getElem?_of_place hab).1
    show Option.any (flagged flags) (some i) = true ↔ _
    rw [Option.any_some, flagged_place h hlen hentry, decide_eq_true_eq, or_iff_left hswap]
  | none =>
    have hnot : .eq a.kind a b ∉ catalog.chosen flags := fun hchosen => hplaced hb hchosen hab
    show Option.any (flagged flags) (catalog.index.place? _ _ _) = true ↔ _
    rw [or_iff_right hnot]
    cases hba : catalog.index.place? .eq b a with
    | some i =>
      have hkind : a.kind = b.kind :=
        Template.kind_of_mem_symbolsOf (snd_mem_of_mem_pairs (mem_pairs_of_place hba))
      have hentry : catalog.entries[i]? = some (.eq b.kind b a) := (getElem?_of_place hba).1
      rw [Option.any_some, flagged_place h hlen hentry, decide_eq_true_eq, hkind]
    | none =>
      rw [Option.any_none]
      constructor
      · intro hfalse
        cases hfalse
      · intro hchosen
        exact absurd hba (hplaced ha hchosen)

/-- The source that is found is the one that the assignment chooses. -/
theorem flaggedSource?_eq {a s : Symbol} (ha : a ∈ catalog.source.symbolsOf .attrs)
    (hs : catalog.Draws flags a s) (huniq : ∀ s', catalog.Draws flags a s' → s' = s) :
    catalog.flaggedSource? flags a = some s := by
  obtain ⟨before, after, hsplit, hspan⟩ := subSpan_split ha
  have hmem : s ∈ catalog.source.viableSources a := mem_viableSources_of_draws hs
  have hfirst := firstFlagged?_slice h hlen hsplit
  rw [List.length_map, ← hspan] at hfirst
  have hfind : ((catalog.source.viableSources a).map (.attrsSub a)).find?
      (fun e => decide (e ∈ catalog.chosen flags)) = some (.attrsSub a s) := by
    refine find?_eq_of_unique (List.mem_map_of_mem hmem) (decide_eq_true hs) fun e he hchosen => ?_
    obtain ⟨s', -, rfl⟩ := List.mem_map.mp he
    rw [decide_eq_true_eq] at hchosen
    rw [huniq s' hchosen]
  unfold flaggedSource?
  rw [hfirst, hfind]
  rfl

/-- The copied symbol that is found is the one that the assignment chooses. -/
theorem flaggedCopied?_eq {a b : Symbol} (hb : b ∈ catalog.target.symbols)
    (ha : catalog.Copies flags b a) (huniq : ∀ a', catalog.Copies flags b a' → a' = a) :
    catalog.flaggedCopied? flags b = some a := by
  obtain ⟨before, after, hsplit, hspan⟩ :=
    copySpan_split (Template.mem_symbolsOf_kind hb)
  have hmem : a ∈ catalog.source.symbolsOf b.kind := mem_symbolsOf_of_copies h hb ha
  have hfirst := firstFlagged?_slice h hlen hsplit
  rw [List.length_map, ← hspan] at hfirst
  have hfind : ((catalog.source.symbolsOf b.kind).map (.eq b.kind · b)).find?
      (fun e => decide (e ∈ catalog.chosen flags)) = some (.eq b.kind a b) := by
    refine find?_eq_of_unique (List.mem_map.mpr ⟨a, hmem, rfl⟩) (decide_eq_true ha)
      fun e he hchosen => ?_
    obtain ⟨a', -, rfl⟩ := List.mem_map.mp he
    rw [decide_eq_true_eq] at hchosen
    rw [huniq a' hchosen]
  unfold flaggedCopied?
  rw [hfirst, hfind]
  rfl

end Looking

end Catalog

end QueryRules
