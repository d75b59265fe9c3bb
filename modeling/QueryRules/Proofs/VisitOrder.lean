import QueryRules.Proofs.LeafCalls

/-!
# QueryRules — a dry run keeps the minimal assignments

A dry run remembers every assignment that it visits, in place of larger ones, and does not look
whether a smaller one is known. Nothing is wrong with that, because a smaller assignment never comes
before a larger one.
-/

namespace QueryRules

open List Assignment

/-! ## Lists that part at a key -/

section PartAt

variable {α β : Type} {S : α → β → β → Prop}

theorem PartAt.exists_mem {l l' : List (α × β)} (h : PartAt S l l') :
    ∃ x b b', (x, b) ∈ l ∧ (x, b') ∈ l' ∧ S x b b' := by
  obtain ⟨before, x, b, b', after, after', rfl, rfl, hs⟩ := h
  exact ⟨x, b, b', mem_append_right _ mem_cons_self,
    mem_append_right _ mem_cons_self, hs⟩

end PartAt

/-! ## The order of complete choices -/

namespace Catalog

variable {catalog : Catalog}

/-- Where two complete choices part, the first one coming before the second. -/
inductive Precedes (catalog : Catalog) (c d : Choice) : Prop
  | source {a s s' : Symbol} (hc : (a, s) ∈ c.sources) (hd : (a, s') ∈ d.sources) (hne : s ≠ s')
  | copy {b a a' : Symbol} (hc : (b, a) ∈ c.copies) (hd : (b, a') ∈ d.copies) (hne : a ≠ a')
  | partition {groups groups' : List (SymbolKind × Partition)} {kind : SymbolKind}
      {p p' : Partition}
      (hgroups : groups ∈ assignAll (catalog.groupOptions c.sources) [] SymbolKind.all)
      (hgroups' : groups' ∈ assignAll (catalog.groupOptions d.sources) [] SymbolKind.all)
      (hc : c.blocks = catalog.blocksOf groups) (hd : d.blocks = catalog.blocksOf groups')
      (hp : (kind, p) ∈ groups) (hp' : (kind, p') ∈ groups') (hsplits : p.Splits p')
  | decision {before after after' : List Bool} (hc : c.integrity = before ++ true :: after)
      (hd : d.integrity = before ++ false :: after')

theorem pairwise_decidedChoices (catalog : Catalog) (c : Choice) :
    (catalog.decidedChoices c).Pairwise catalog.Precedes := by
  have hoptions : ∀ done e,
      (decideOptions c done e).Pairwise fun flag flag' => flag = true ∧ flag' = false := by
    intro done e
    unfold decideOptions
    dsimp only
    split <;> split <;> simp
  unfold decidedChoices
  rw [pairwise_map]
  refine (pairwise_assignAll hoptions [] _).imp ?_
  rintro _ _ ⟨before, e, _, _, after, after', rfl, rfl, rfl, rfl⟩
  exact .decision (map_append ..) (map_append ..)

/-- Partitions and decisions are listed in the order of precedence. -/
theorem pairwise_groupedChoices (catalog : Catalog) (c : Choice) :
    (catalog.groupedChoices c).Pairwise catalog.Precedes := by
  have hoptions : ∀ done kind,
      (catalog.groupOptions c.sources done kind).Pairwise Partition.Splits :=
    fun done kind => (Partition.pairwise_all _).filter _
  unfold groupedChoices
  rw [pairwise_flatMap]
  refine ⟨fun groups _ => pairwise_decidedChoices catalog _, ?_⟩
  refine (pairwise_assignAll hoptions [] _).imp_of_mem
    fun {groups groups'} hgroups hgroups' hpart => ?_
  intro d hd d' hd'
  obtain ⟨kind, p, p', hp, hp', hsplits⟩ := hpart.exists_mem
  obtain ⟨hsources, -, hblocks⟩ := frame_decidedChoices hd
  obtain ⟨hsources', -, hblocks'⟩ := frame_decidedChoices hd'
  exact .partition (hsources ▸ hgroups) (hsources' ▸ hgroups') hblocks hblocks' hp hp' hsplits

/-- **The complete choices are listed in order.** -/
theorem pairwise_completeChoices (h : catalog.WellBound) :
    catalog.completeChoices.Pairwise catalog.Precedes := by
  have hsource : ∀ (done : List (Symbol × Symbol)) a,
      (catalog.source.viableSources a).Pairwise (· ≠ ·) :=
    fun _ a => h.source.nodup_viableSources a
  have hcopy : ∀ sources done b, (catalog.copyOptions sources done b).Pairwise (· ≠ ·) :=
    fun _ _ b => (h.source.nodup_symbolsOf b.kind).filter _
  -- Other sources or copies make choices incomparable; groups have an order.
  have hcopied : ∀ c, (catalog.copiedChoices c).Pairwise catalog.Precedes := by
    intro c
    unfold copiedChoices
    rw [pairwise_flatMap]
    refine ⟨fun copies _ => pairwise_groupedChoices catalog _, ?_⟩
    refine (pairwise_assignAll (hcopy c.sources) [] _).imp
      fun {copies copies'} hpart d hd d' hd' => ?_
    obtain ⟨b, a, a', ha, ha', hne⟩ := hpart.exists_mem
    have hcopies : d.copies = copies := (frame_groupedChoices hd).2
    have hcopies' : d'.copies = copies' := (frame_groupedChoices hd').2
    exact .copy (hcopies ▸ ha) (hcopies' ▸ ha') hne
  unfold completeChoices
  rw [pairwise_flatMap]
  refine ⟨fun sources _ => hcopied _, ?_⟩
  refine (pairwise_assignAll hsource [] _).imp fun {sources sources'} hpart d hd d' hd' => ?_
  obtain ⟨a, s, s', hs, hs', hne⟩ := hpart.exists_mem
  have hsources : d.sources = sources := frame_copiedChoices hd
  have hsources' : d'.sources = sources' := frame_copiedChoices hd'
  exact .source (hsources ▸ hs) (hsources' ▸ hs') hne

end Catalog

namespace Parts

variable {catalog : Catalog} {x y : Parts}

/-- The partitions of a complete choice are those of its parts. -/
theorem eq_groups (hx : x.Fits catalog) {groups : List (SymbolKind × Partition)}
    {sources : List (Symbol × Symbol)}
    (hgroups : groups ∈ assignAll (catalog.groupOptions sources) [] SymbolKind.all)
    (heq : (x.choice catalog).blocks = catalog.blocksOf groups) :
    groups = x.groups SymbolKind.all := by
  have hshape := Catalog.shape_of_mem_groups hgroups
  refine Catalog.blocksOf_inj hshape.1 hshape.2 (fun z hz => ?_) heq.symm
  obtain ⟨kind, -, rfl⟩ := mem_map.mp hz
  exact Partition.length_of_mem_all (hx.partition kind)

theorem partition_eq (hx : x.Fits catalog) {groups : List (SymbolKind × Partition)}
    {sources : List (Symbol × Symbol)} {kind : SymbolKind} {p : Partition}
    (hgroups : groups ∈ assignAll (catalog.groupOptions sources) [] SymbolKind.all)
    (heq : (x.choice catalog).blocks = catalog.blocksOf groups) (hp : (kind, p) ∈ groups) :
    x.partition kind = p := by
  rw [eq_groups hx hgroups heq] at hp
  obtain ⟨kind', -, hpair⟩ := mem_map.mp hp
  cases hpair
  rfl

/-- A choice assumes something that no later one does. -/
theorem not_subset_of_precedes (h : catalog.WellBound) (hx : x.Fits catalog) (hy : y.Fits catalog)
    (hprec : catalog.Precedes (x.choice catalog) (y.choice catalog)) :
    subset (x.flags catalog) (y.flags catalog) = false := by
  rw [Bool.eq_false_iff]
  intro hsub
  have hmono : ∀ {e}, e ∈ catalog.chosen (x.flags catalog) →
      e ∈ catalog.chosen (y.flags catalog) := by
    intro e he
    obtain ⟨hentry, hon⟩ := mem_chosen_flags.mp he
    exact mem_chosen_flags.mpr ⟨hentry, subset_map.mp hsub e hentry hon⟩
  cases hprec with
  | source hc hd hne =>
    obtain ⟨a, ha, heq⟩ := mem_map.mp hc
    obtain ⟨a', -, heq'⟩ := mem_map.mp hd
    cases heq
    cases heq'
    have hdraws := (draws_iff h hx).mpr ⟨ha, rfl⟩
    exact hne ((draws_iff h hy).mp (hmono hdraws)).2.symm
  | copy hc hd hne =>
    obtain ⟨b, hb, heq⟩ := mem_map.mp hc
    obtain ⟨b', -, heq'⟩ := mem_map.mp hd
    cases heq
    cases heq'
    have hcopies := (copies_iff h hx hb).mpr rfl
    exact hne ((copies_iff h hy hb).mp (hmono hcopies)).symm
  | @partition groups groups' kind p p' hgroups hgroups' hc hd hp hp' hsplits =>
    have hpx : x.partition kind = p := partition_eq hx hgroups hc hp
    have hpy : y.partition kind = p' := partition_eq hy hgroups' hd hp'
    subst hpx hpy
    -- The first choice has two symbols equal that are different in the second one.
    obtain ⟨a, -, b, -, hab, hnot⟩ := hsplits.exists_related
      (Partition.length_of_mem_all (hx.partition kind))
      (Partition.length_of_mem_all (hy.partition kind)) (matches_blocks h hx kind)
      (matches_blocks h hy kind)
    exact hnot (hab.imp id (Or.imp hmono hmono))
  | decision hc hd =>
    obtain ⟨es, rest, hes, hbefore, hrest⟩ := map_eq_append_iff.mp hc
    obtain ⟨es', rest', hes', hbefore', hrest'⟩ := map_eq_append_iff.mp hd
    -- Both lists of flags are for the same constraints, so they part at one constraint.
    have hlen : es.length = es'.length := by
      rw [← length_map, hbefore, ← hbefore', length_map]
    obtain ⟨rfl, rfl⟩ := append_inj (hes.symm.trans hes') hlen
    obtain ⟨e, after, rfl, hon, -⟩ := map_eq_cons_iff.mp hrest
    have hoff : y.flag e = false := (List.cons.inj hrest').1
    have he : e ∈ catalog.integrity := hes ▸ mem_append_right _ mem_cons_self
    have hboth := (chosen_iff he).mp (hmono ((chosen_iff he).mpr hon))
    rw [hoff] at hboth
    cases hboth

end Parts

/-! ## What is kept -/

namespace Assignment

/-- What is kept after one more assignment: it takes the place of those that include it. -/
def keep (kept : List Assignment) (flags : Assignment) : List Assignment :=
  ({ SearchState.initial with eqs := kept }.rememberEq flags).eqs

/-- Whether an assignment includes no other one of a list. -/
def isMinimalIn (visited : List Assignment) (a : Assignment) : Bool :=
  visited.all fun b => !ssubset b a

/-- Minimal means that nothing visited lies strictly below. -/
theorem isMinimalIn_iff {visited : List Assignment} {a : Assignment} :
    isMinimalIn visited a = true ↔ ∀ b ∈ visited, subset b a = true → b = a := by
  unfold isMinimalIn ssubset
  rw [all_eq_true]
  refine forall_congr' fun b => imp_congr_right fun _ => ?_
  constructor
  · intro hnot hsub
    rw [hsub, Bool.true_and, Bool.not_not] at hnot
    exact subset_antisymm hsub hnot
  · intro heq
    cases hsub : subset b a with
    | false => rfl
    | true =>
      rw [heq hsub, subset_refl]
      rfl

/-- **The minimal assignments are kept**, if none is included in a later one. Induction from the
end: the last assignment is minimal, and it drops those that include it. -/
theorem foldl_keep {visited : List Assignment}
    (h : visited.Pairwise fun a b => subset a b = false) :
    visited.foldl keep [] = visited.filter (isMinimalIn visited) := by
  induction visited using List.reverseRecOn with
  | nil => rfl
  | append_singleton visited last ih =>
    rw [pairwise_append] at h
    obtain ⟨hbefore, -, hlast⟩ := h
    -- Nothing before lies below the last one, so it is minimal and drops what lies above it.
    have hbelow : ∀ b ∈ visited, subset b last = false :=
      fun b hb => hlast b hb last mem_cons_self
    have hnew : ({ SearchState.initial with eqs := visited.filter (isMinimalIn visited) } :
        SearchState).isKnownEq last = false := by
      rw [Bool.eq_false_iff]
      intro hknown
      obtain ⟨b, hb, hsub⟩ := SearchTask.isKnownEq_iff.mp hknown
      rw [hbelow b (mem_of_mem_filter hb)] at hsub
      cases hsub
    have hself : isMinimalIn (visited ++ [last]) last = true := by
      rw [isMinimalIn_iff]
      intro b hb hsub
      rcases mem_append.mp hb with hb | hb
      · rw [hbelow b hb] at hsub
        cases hsub
      · exact mem_singleton.mp hb
    rw [foldl_append, ih hbefore, foldl_cons, foldl_nil, filter_append,
      filter_cons_of_pos hself, filter_nil]
    show (SearchState.rememberEq _ last).eqs = _
    rw [SearchTask.eqs_rememberEq hnew, filter_filter]
    congr 1
    refine filter_congr fun a _ => ?_
    unfold isMinimalIn
    rw [all_append, all_cons, all_nil, Bool.and_true, Bool.and_comm]

end Assignment

/-- What a dry run leaves behind: the choices at which the last stage was called are answered, and
their assignments are kept one after the other. -/
theorem Search.Calls.dryRun {t : SearchTask} (hdry : t.settings.isDryRun = true)
    {m : (Choice → Search Answer) → Search Answer} {choices : List Choice}
    (h : Search.Calls m choices) (s : SearchState) :
    ∃ called : List Choice, called.Sublist choices ∧
      (((m (leafStage t)).run.run s).2).answered = s.answered ++ called.map (·, Answer.eq) ∧
      (((m (leafStage t)).run.run s).2).eqs =
        (called.map fun c => t.flags c false).foldl keep s.eqs := by
  refine h.run (R := fun called s s' => s'.answered = s.answered ++ called.map (·, Answer.eq) ∧
    s'.eqs = (called.map fun c => t.flags c false).foldl keep s.eqs) ?_ ?_ ?_ s
  · intro s s' haside
    exact ⟨haside.answered.trans (append_nil _).symm, haside.eqs⟩
  · intro xs ys s s₁ s₂ h₁ h₂
    refine ⟨Search.answered_trans h₁.1 h₂.1, ?_⟩
    rw [h₂.2, h₁.2, map_append, foldl_append]
  · intro c s
    have hends := Search.ends_leafStage hdry c s
    unfold Search.Ends at hends
    rw [hends]
    exact ⟨SearchState.answered_leaf _ c .eq, rfl⟩

namespace Catalog

variable {catalog : Catalog} {settings : Settings}

/-- The assignments of the complete choices that a search answers, in order. -/
def visited (catalog : Catalog) (settings : Settings) (oracle : Oracle) (clock : Nat → Nat) :
    List Assignment :=
  (catalog.search settings oracle clock).final.answered.map fun x =>
    (SearchTask.ofCatalog catalog settings oracle clock).flags x.1 false

/-- Assignments of complete choices: none is included in a later one. -/
theorem pairwise_flags (settings : Settings) (oracle : Oracle) (clock : Nat → Nat)
    (h : catalog.WellBound) {called : List Choice}
    (hsub : called.Sublist catalog.completeChoices) :
    (called.map fun c =>
      (SearchTask.ofCatalog catalog settings oracle clock).flags c false).Pairwise
      fun a b => subset a b = false := by
  rw [pairwise_map]
  refine ((pairwise_completeChoices h).sublist hsub).imp_of_mem fun {c d} hc hd hprec => ?_
  obtain ⟨x, hx, -, rfl⟩ := (mem_completeChoices h).mp (hsub.subset hc)
  obtain ⟨y, hy, -, rfl⟩ := (mem_completeChoices h).mp (hsub.subset hd)
  rw [Parts.flags_eq, Parts.flags_eq]
  exact Parts.not_subset_of_precedes h hx hy hprec

/-- In a dry run, what was visited is in order, and what is kept is minimal. -/
theorem visited_of_dryRun (oracle : Oracle) (clock : Nat → Nat) (h : catalog.WellBound)
    (hdry : settings.isDryRun = true) :
    ((catalog.visited settings oracle clock).Pairwise fun a b => subset a b = false) ∧
      (catalog.search settings oracle clock).final.eqs =
        (catalog.visited settings oracle clock).filter
          (isMinimalIn (catalog.visited settings oracle clock)) := by
  obtain ⟨called, hsub, hanswered, heqs⟩ :=
    (Search.exploreWith_calls catalog settings oracle clock).dryRun
      (t := .ofCatalog catalog settings oracle clock) hdry .initial
  rw [Search.exploreWith_leafStage, ← final_search] at hanswered heqs
  have hvisited : catalog.visited settings oracle clock = called.map fun c =>
      (SearchTask.ofCatalog catalog settings oracle clock).flags c false := by
    unfold visited
    rw [hanswered]
    show (called.map _).map _ = _
    rw [map_map]
    rfl
  have hpairwise := pairwise_flags settings oracle clock h hsub
  rw [hvisited]
  exact ⟨hpairwise, heqs.trans (foldl_keep hpairwise)⟩

end Catalog

/-- **A dry run returns the minimal ones of the assignments that it visits**, each once and in the
order of visiting, whether or not the checks are made. -/
theorem TemplatePair.dryRun_returns_minimal_visits (p : TemplatePair) {catalog : Catalog}
    (hread : p.catalog = .ok catalog) (settings : Settings) (oracle : Oracle) (clock : Nat → Nat)
    (hdry : settings.isDryRun = true) {outcome : SearchOutcome}
    (hresult : (catalog.search settings oracle clock).result = .ok outcome) :
    ∃ found : List Assignment, outcome.rules = found.map catalog.rule ∧
      found.Sublist (catalog.visited settings oracle clock) ∧
      (catalog.visited settings oracle clock).Nodup ∧
      ∀ a, a ∈ found ↔ a ∈ catalog.visited settings oracle clock ∧
        ∀ b ∈ catalog.visited settings oracle clock, subset b a = true → b = a := by
  have h := p.wellBound hread
  obtain ⟨hpairwise, heqs⟩ := Catalog.visited_of_dryRun oracle clock h hdry
  obtain ⟨-, hrules⟩ := Catalog.ends_of_search hresult
  refine ⟨_, heqs ▸ hrules, filter_sublist, hpairwise.imp ?_, fun a => ?_⟩
  · rintro a _ hnot rfl
    rw [subset_refl] at hnot
    cases hnot
  · rw [mem_filter, isMinimalIn_iff]

/-- An `IN` filter against a plain table, with the check on the number of columns. Where the target
copies the subquery's table the check cuts off the search. Of the 8 assignments that are visited
before, the last one is included in all others. -/
theorem TemplatePair.dryRun_returns_minimal_visits_inSub :
    ∃ catalog outcome, (⟨"InSubFilter<a0>(Input<t0>,Input<t1>)", "Input<t2>"⟩ :
        TemplatePair).catalog = .ok catalog ∧
      (catalog.search { skipTableCheck := true } Oracle.strict id).result = .ok outcome ∧
      (catalog.visited { skipTableCheck := true } Oracle.strict id).length = 8 ∧
      outcome.rules.length = 1 ∧ outcome.stats.outputHits = 1 ∧
      ∃ found : List Assignment, outcome.rules = found.map catalog.rule ∧
        found.Sublist (catalog.visited { skipTableCheck := true } Oracle.strict id) ∧
        (catalog.visited { skipTableCheck := true } Oracle.strict id).Nodup ∧
        ∀ a, a ∈ found ↔ a ∈ catalog.visited { skipTableCheck := true } Oracle.strict id ∧
          ∀ b ∈ catalog.visited { skipTableCheck := true } Oracle.strict id,
            subset b a = true → b = a := by
  have hcount : ((⟨"InSubFilter<a0>(Input<t0>,Input<t1>)", "Input<t2>"⟩ :
      TemplatePair).catalog.toOption.any fun catalog =>
        (catalog.search { skipTableCheck := true } Oracle.strict id).result.toOption.any
          fun outcome =>
            (catalog.visited { skipTableCheck := true } Oracle.strict id).length == 8 &&
              (outcome.rules.length == 1 && outcome.stats.outputHits == 1)) = true := by
    decide +kernel
  cases hread : (⟨"InSubFilter<a0>(Input<t0>,Input<t1>)", "Input<t2>"⟩ : TemplatePair).catalog with
  | error e =>
    rw [hread] at hcount
    cases hcount
  | ok catalog =>
    rw [hread] at hcount
    simp only [Except.toOption, Option.any_some] at hcount
    cases hresult : (catalog.search { skipTableCheck := true } Oracle.strict id).result with
    | error e =>
      rw [hresult] at hcount
      cases hcount
    | ok outcome =>
      rw [hresult] at hcount
      simp only [Option.any_some, Bool.and_eq_true, beq_iff_eq] at hcount
      exact ⟨catalog, outcome, rfl, hresult, hcount.1, hcount.2.1, hcount.2.2,
        TemplatePair.dryRun_returns_minimal_visits _ hread _ _ _ rfl hresult⟩

end QueryRules
