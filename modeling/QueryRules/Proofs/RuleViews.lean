import QueryRules.Proofs.CatalogPlaces
import QueryRules.Proofs.CongruenceClosure
import QueryRules.Proofs.LeafCalls

/-!
# QueryRules — a rule says what its choice says

A complete choice knows what every attribute list is drawn from, what every target symbol copies and
which source symbols are equal. The search reads the same off the flags of the assignment, and the
rule reads it off its constraints: sources and copies by the first constraint that says so, equality
by closing all equalities. The closure goes through target symbols, too. It adds nothing, since a
target symbol copies one source symbol only.
-/

namespace QueryRules

open List

namespace Rule

variable {r : Rule} {a b s : Symbol}

theorem mem_equalPairs : (a, b) ∈ r.equalPairs ↔ ∃ kind, .eq kind a b ∈ r.constraints := by
  unfold equalPairs
  rw [mem_filterMap]
  constructor
  · rintro ⟨e, he, heq⟩
    cases e with
    | eq kind l r =>
      cases heq
      exact ⟨kind, he⟩
    | _ => cases heq
  · rintro ⟨kind, he⟩
    exact ⟨_, he, rfl⟩

/-- The source of an attribute list, if the constraints agree on it. -/
theorem sourceOf?_eq (hs : .attrsSub a s ∈ r.constraints)
    (huniq : ∀ s', .attrsSub a s' ∈ r.constraints → s' = s) : r.sourceOf? a = some s := by
  refine findSome?_eq_of_unique ⟨_, hs, if_pos rfl⟩ fun e he s' heq => ?_
  cases e with
  | attrsSub a' s'' =>
    dsimp only at heq
    split at heq
    · next haa =>
      cases heq
      exact huniq s' (haa ▸ he)
    · cases heq
  | _ => cases heq

/-- What a target symbol copies, if the constraints agree on it. -/
theorem copiedBy?_eq {kind : SymbolKind} (ha : .eq kind a b ∈ r.constraints)
    (hside : a.side ≠ b.side)
    (huniq : ∀ kind a', .eq kind a' b ∈ r.constraints → a'.side ≠ b.side → a' = a) :
    r.copiedBy? b = some a := by
  refine findSome?_eq_of_unique ⟨_, ha, if_pos ⟨hside, rfl⟩⟩ fun e he a' heq => ?_
  cases e with
  | eq kind' left right =>
    dsimp only at heq
    split at heq
    · next hcond =>
      obtain ⟨hside', rfl⟩ := hcond
      cases heq
      exact huniq kind' a' he hside'
    · cases heq
  | _ => cases heq

end Rule

namespace Parts

variable {catalog : Catalog} {x : Parts} {a b : Symbol} (h : catalog.WellBound)
  (hx : x.Fits catalog)

include h in
/-- A source symbol copies nothing. -/
theorem copied?_of_source (ha : a.side = .source) : (x.choice catalog).copied? a = none := by
  cases hcopied : (x.choice catalog).copied? a with
  | none => rfl
  | some s =>
    have hmem := ((lookup_copies (nodup_targets h)).mp hcopied).1
    cases ha.symm.trans (h.target.numbers.sides a (mem_targets.mp hmem))

include h hx in
/-- What is equal by the rule, target symbols taken for what they copy, is equal by the choice. The
relation on the right is an equivalence relation, so it is enough to look at single constraints. -/
theorem isEq_of_eqvGen
    (hab : Relation.EqvGen (fun a b => (a, b) ∈ (catalog.rule (x.flags catalog)).equalPairs) a b) :
    (x.choice catalog).isEq (((x.choice catalog).copied? a).getD a)
      (((x.choice catalog).copied? b).getD b) = true := by
  set c := x.choice catalog with hc
  set standing : Symbol → Symbol := fun a => (c.copied? a).getD a with hstanding
  have hsource : ∀ {a}, a.side = .source → standing a = a := by
    intro a ha
    rw [hstanding]
    dsimp only
    rw [copied?_of_source h ha, Option.getD_none]
  have hequiv : Equivalence fun a b => c.isEq (standing a) (standing b) = true :=
    ⟨fun a => Choice.isEq_refl c _, fun {a b} hab => by rwa [Choice.isEq_comm],
      fun {a b d} hab hbd => Choice.isEq_trans hab hbd⟩
  have hrel : ∀ a b, (a, b) ∈ (catalog.rule (x.flags catalog)).equalPairs →
      c.isEq (standing a) (standing b) = true := by
    intro a b hmem
    obtain ⟨kind, hchosen⟩ := Rule.mem_equalPairs.mp hmem
    rcases mem_entries_eq (Catalog.mem_entries_of_mem_chosen hchosen) with hpair | ⟨hb, ha⟩
    · have hsub := Catalog.mem_pairs_iff.mp hpair
      have ha := h.source.side_of_mem (hsub.subset mem_cons_self)
      have hb := h.source.side_of_mem (hsub.subset (mem_cons_of_mem _ mem_cons_self))
      rw [hsource ha, hsource hb]
      exact (on_pair h hpair).mp hchosen
    · -- A target symbol stands for the one that it copies.
      have hkind : b.kind = kind := Template.kind_of_mem_symbolsOf hb
      subst hkind
      have hcopied := (copies_iff h hx (mem_targets_of_mem hb)).mp hchosen
      have hlookup : c.copied? b = some a :=
        (lookup_copies (nodup_targets h)).mpr ⟨mem_targets_of_mem hb, hcopied⟩
      have hb' : standing b = a := by
        rw [hstanding]
        dsimp only
        rw [hlookup, Option.getD_some]
      rw [hb', hsource (h.source.side_of_mem ha)]
      exact Choice.isEq_refl c a
  exact hequiv.eqvGen_iff.mp (Relation.EqvGen.mono hrel a b hab)

include h hx in
/-- **The classes of the rule are those of the choice**, as far as source symbols go. -/
theorem same_classes_iff (ha : a ∈ catalog.source.symbols) (hb : b ∈ catalog.source.symbols) :
    (catalog.rule (x.flags catalog)).classes.same a b = (x.choice catalog).isEq a b := by
  rw [Bool.eq_iff_iff]
  unfold Rule.classes
  rw [Congruence.same_ofPairs]
  constructor
  · intro hab
    have heq := isEq_of_eqvGen h hx hab
    rwa [copied?_of_source h (h.source.numbers.sides a ha),
      copied?_of_source h (h.source.numbers.sides b hb), Option.getD_none, Option.getD_none] at heq
  · intro heq
    rcases (equates_iff h ha hb).mpr heq with rfl | hab | hba
    · exact .refl _
    · exact .rel _ _ (Rule.mem_equalPairs.mpr ⟨_, hab⟩)
    · exact .symm _ _ (.rel _ _ (Rule.mem_equalPairs.mpr ⟨_, hba⟩))

include h hx in
/-- The rule draws attribute lists from the sources of the parts. -/
theorem sourceOf?_rule (ha : a ∈ catalog.source.symbolsOf .attrs) :
    (catalog.rule (x.flags catalog)).sourceOf? a = some (x.source a) := by
  refine Rule.sourceOf?_eq ((draws_iff h hx).mpr ⟨ha, rfl⟩) fun s' hs' => ?_
  exact ((draws_iff h hx).mp hs').2.symm

include h hx in
/-- The rule copies what the parts copy. -/
theorem copiedBy?_rule (hb : b ∈ catalog.targets) :
    (catalog.rule (x.flags catalog)).copiedBy? b = some (x.copied b) := by
  have hside : ∀ {a}, a ∈ catalog.source.symbolsOf b.kind → a.side ≠ b.side := by
    intro a ha
    rw [h.source.side_of_mem ha, h.target.numbers.sides b (mem_targets.mp hb)]
    decide
  refine Rule.copiedBy?_eq ((copies_iff h hx hb).mpr rfl) (hside (hx.copied b hb)) ?_
  intro kind a ha hne
  rcases mem_entries_eq (Catalog.mem_entries_of_mem_chosen ha) with hpair | ⟨hb', -⟩
  · -- Two source symbols are on one side.
    have hsub := Catalog.mem_pairs_iff.mp hpair
    have hside := h.source.side_of_mem (hsub.subset mem_cons_self)
    have hside' := h.source.side_of_mem (hsub.subset (mem_cons_of_mem _ mem_cons_self))
    exact absurd (hside.trans hside'.symm) hne
  · have hkind : b.kind = kind := Template.kind_of_mem_symbolsOf hb'
    subst hkind
    exact ((copies_iff h hx hb).mp ha).symm

end Parts

/-- **The three views of an assignment agree.** At every complete choice that a search comes to,
source symbols are equal by the choice exactly if they are so by the flag at their place, and
exactly if the rule has them in one class; and what an attribute list of the source is drawn from
and what a target symbol copies is the same by the choice, by the first flag among its places, and
by the rule. -/
theorem TemplatePair.views_agree (p : TemplatePair) {catalog : Catalog}
    (hread : p.catalog = .ok catalog) (settings : Settings) (oracle : Oracle) (clock : Nat → Nat)
    {c : Choice} (hc : catalog.Reaches settings oracle clock c) {flags : Assignment}
    (hflags : flags = (SearchTask.ofCatalog catalog settings oracle clock).flags c false) :
    (∀ a ∈ catalog.source.symbols, ∀ b ∈ catalog.source.symbols,
      catalog.flaggedEq flags a b = c.isEq a b ∧
        (catalog.rule flags).classes.same a b = c.isEq a b) ∧
    (∀ a ∈ catalog.source.symbolsOf .attrs, ∃ s, c.source? a = some s ∧
      catalog.flaggedSource? flags a = some s ∧ (catalog.rule flags).sourceOf? a = some s) ∧
    ∀ b ∈ catalog.target.symbols, ∃ a, c.copied? b = some a ∧
      catalog.flaggedCopied? flags b = some a ∧ (catalog.rule flags).copiedBy? b = some a := by
  have h := p.wellBound hread
  obtain ⟨x, hx, -, rfl⟩ :=
    (Catalog.mem_completeChoices h).mp (Catalog.mem_completeChoices_of_reaches hc)
  rw [Parts.flags_eq] at hflags
  subst hflags
  have hlen : (x.flags catalog).length = catalog.entries.length := length_map _
  refine ⟨fun a ha b hb => ⟨?_, Parts.same_classes_iff h hx ha hb⟩, fun a ha => ?_, fun b hb => ?_⟩
  · rw [Bool.eq_iff_iff, Catalog.flaggedEq_iff h hlen ha hb]
    exact Parts.equates_iff h ha hb
  · refine ⟨x.source a, (Parts.source?_choice h).mpr ⟨ha, rfl⟩, ?_, Parts.sourceOf?_rule h hx ha⟩
    refine Catalog.flaggedSource?_eq h hlen ha ((Parts.draws_iff h hx).mpr ⟨ha, rfl⟩) ?_
    exact fun s' hs' => ((Parts.draws_iff h hx).mp hs').2.symm
  · have hb' : b ∈ catalog.targets := Parts.mem_targets.mpr hb
    refine ⟨x.copied b, (Parts.lookup_copies (Parts.nodup_targets h)).mpr ⟨hb', rfl⟩, ?_,
      Parts.copiedBy?_rule h hx hb'⟩
    refine Catalog.flaggedCopied?_eq h hlen hb ((Parts.copies_iff h hx hb').mpr rfl) ?_
    exact fun a' ha' => ((Parts.copies_iff h hx hb').mp ha').symm

/-- An `IN` filter against a plain table. At the first complete choice the two source tables are
equal and the target table copies one of them. -/
theorem TemplatePair.views_agree_inSub :
    ∃ catalog c flags, (⟨"InSubFilter<a0>(Input<t0>,Input<t1>)", "Input<t2>"⟩ :
        TemplatePair).catalog = .ok catalog ∧
      catalog.Reaches { skipTableCheck := true } Oracle.strict id c ∧
      flags = (SearchTask.ofCatalog catalog { skipTableCheck := true } Oracle.strict id).flags c
        false ∧
      c.isEq ⟨.source, .table, 0⟩ ⟨.source, .table, 1⟩ = true ∧
      (∀ a ∈ catalog.source.symbols, ∀ b ∈ catalog.source.symbols,
        catalog.flaggedEq flags a b = c.isEq a b ∧
          (catalog.rule flags).classes.same a b = c.isEq a b) ∧
      (∀ a ∈ catalog.source.symbolsOf .attrs, ∃ s, c.source? a = some s ∧
        catalog.flaggedSource? flags a = some s ∧ (catalog.rule flags).sourceOf? a = some s) ∧
      ∀ b ∈ catalog.target.symbols, ∃ a, c.copied? b = some a ∧
        catalog.flaggedCopied? flags b = some a ∧
          (catalog.rule flags).copiedBy? b = some a := by
  have hfirst : ((⟨"InSubFilter<a0>(Input<t0>,Input<t1>)", "Input<t2>"⟩ :
      TemplatePair).catalog.toOption.any fun catalog =>
        (catalog.search { skipTableCheck := true } Oracle.strict id).final.answered.head?.any
          fun z => z.1.isEq ⟨.source, .table, 0⟩ ⟨.source, .table, 1⟩) = true := by
    decide +kernel
  obtain ⟨catalog, hread, hfirst⟩ := exists_ok_of_any hfirst
  obtain ⟨z, hhead, heq⟩ := (Option.any_eq_true _ _).mp hfirst
  have hreaches := Catalog.reaches_of_answered (mem_of_mem_head? hhead)
  exact ⟨catalog, z.1, _, hread, hreaches, rfl, heq,
    TemplatePair.views_agree _ hread _ _ _ hreaches rfl⟩

end QueryRules
