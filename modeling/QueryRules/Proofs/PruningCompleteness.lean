import QueryRules.Proofs.IntegrityCuts

/-!
# QueryRules — pruning loses no rule

The search visits the tree of all choices up to parts that are refuted, and so it finds the
smallest assignments under which the queries are equal.

The integrity constraints are dealt with in `IntegrityCuts`; what remains are the stages before.
-/

namespace QueryRules

open List

namespace Search

open SearchTree (Still Capped)

variable {α : Type} {t : SearchTask} {seen : List Assignment} {s s₁ s' : SearchState}
  {a : Answer} {c : Choice}

/-! ## Partitions -/

section Partitions

variable {kind : SymbolKind} {kinds : List SymbolKind} {symbols : List Symbol}
  {next : Choice → Search Answer} {tree : Choice → SearchTree}

/-- All complete choices below `c` or a finer choice are refuted, and to skip them leaves the bit
as it is. -/
structure RefutesBelow (t : SearchTask) (kinds : List SymbolKind) (tree : Choice → SearchTree)
    (c : Choice) (seen : List Assignment) (reached : Bool) : Prop where
  still : ∀ d, d.Finer c → d.Ungrouped kinds → (tree d).Still reached
  leaves : ∀ d, d.Finer c → d.Ungrouped kinds → ∀ reached', ∀ leaf ∈ (tree d reached').1,
    t.Refuted seen (t.flags leaf false)

theorem RefutesBelow.of_finer {c d : Choice} {reached : Bool}
    (h : RefutesBelow t kinds tree c seen reached) (hd : d.Finer c) :
    RefutesBelow t kinds tree d seen reached :=
  ⟨fun e he => h.still e (he.trans hd), fun e he => h.leaves e (he.trans hd)⟩

/-- What is refuted stays so: more is seen, and the bit stays or is set. -/
theorem RefutesBelow.mono {seen' : List Assignment} {reached reached' : Bool}
    (h : RefutesBelow t kinds tree c seen reached) (htrue : ∀ d, (tree d).Still true)
    (hseen : seen ⊆ seen') (hreached : reached' = reached ∨ reached' = true) :
    RefutesBelow t kinds tree c seen' reached' := by
  refine ⟨fun d hd hun => ?_,
    fun d hd hun r leaf hleaf => (h.leaves d hd hun r leaf hleaf).mono hseen⟩
  rcases hreached with rfl | rfl
  · exact h.still d hd hun
  · exact htrue d

/-- A tree sets the bit or leaves it alone. -/
theorem reached_or {l : SearchTree} (htrue : l.Still true) (reached : Bool) :
    (l reached).2 = reached ∨ (l reached).2 = true := by
  cases reached with
  | true => exact .inr htrue
  | false =>
    cases h : (l false).2 with
    | true => exact .inr rfl
    | false => exact .inl rfl

/-- The answers of `next` rule out partitions rightly. If one is `neq`, all complete choices below
any finer choice are refuted. -/
structure Prunes (t : SearchTask) (kinds : List SymbolKind) (next : Choice → Search Answer)
    (tree : Choice → SearchTree) : Prop where
  still : ∀ c, (tree c).Still true
  explored : ∀ c, c.Ungrouped kinds → ∀ seen s a s', Ends (next c) s a s' → t.Remembers seen s →
    Explored t (tree c) seen s a s' ∧
      (a = .neq → RefutesBelow t kinds tree c (t.after (tree c) seen s) s'.integrityReached)

/-- The largest assignment below a choice bounds those below finer choices. -/
theorem Cuts.prunes {later : List Constraint} (hcap : Capped t later tree)
    (htrue : ∀ c, (tree c).Still true) (h : Cuts t later next tree) :
    Prunes t [] next tree := by
  refine ⟨htrue, fun c _ seen s a s' hends hs => ?_⟩
  obtain ⟨hexp, hneq⟩ := h c seen s a s' hends hs
  refine ⟨hexp, fun heq => ?_⟩
  obtain ⟨hstill, href⟩ := hneq heq
  refine ⟨fun d _ _ => hstill d, fun d hd _ reached leaf hleaf => ?_⟩
  have hbelow := hcap d reached leaf hleaf
  rw [hd.conforms] at hbelow
  have hcaps := SearchTask.cap_subset (t := t) hd
    (Assignment.subset_refl (later.map c.conforms))
  exact href.of_subset (Assignment.subset_trans hbelow hcaps)

/-- The flags by which a partition is compared with others. -/
def partitionFlags (c : Choice) (symbols : List Symbol) (p : Partition) : Assignment :=
  (Catalog.pairs symbols).map fun (a, b) => (c.group symbols p).isEq a b

/-- Whether a partition makes attribute lists equal that are drawn from different symbols. -/
def conflicts (kind : SymbolKind) (c : Choice) (symbols : List Symbol) (p : Partition) : Bool :=
  kind = .attrs && (c.group symbols p).hasConflict (Catalog.pairs symbols)

/-- Going on after a partition is to go on from the next one, with fewer left. -/
theorem partitionFrom_rest (kind : SymbolKind) (symbols : List Symbol)
    (next : Choice → Search Answer) (c : Choice) (count : Nat) (p : Partition) :
    ∃ count' q, count' ≤ count ∧
      Partition.visitFrom (count + 1) p = p :: Partition.visitFrom count' q ∧
      ∀ neqs allNeq, (match p.next? with
        | some q => partitionFrom kind symbols next c count q neqs allNeq
        | none => pure (if allNeq = true then Answer.neq else Answer.eq))
          = partitionFrom kind symbols next c count' q neqs allNeq := by
  rw [Partition.visitFrom]
  cases p.next? with
  | none => exact ⟨0, p, Nat.zero_le _, rfl, fun _ _ => rfl⟩
  | some q => exact ⟨count, q, Nat.le_refl _, rfl, fun _ _ => rfl⟩

/-- What a partition stage can do: end, or take the first partition unless it is left out, and go on
with those after it. Only a partition that answered `neq` is remembered, and the answer is `neq`
only if every partition was left out or answered so. -/
theorem partitionFrom_ends {count : Nat} {p : Partition} {neqs : List Assignment} {allNeq : Bool}
    (h : Ends (partitionFrom kind symbols next c count p neqs allNeq) s a s') :
    (Partition.visitFrom count p = [] ∧ a = (if allNeq then .neq else .eq) ∧ s' = s) ∨
      ∃ count' q, Partition.visitFrom count p = p :: Partition.visitFrom count' q ∧
        ∃ answer s₁,
          EndsUnless (conflicts kind c symbols p
              || neqs.any (Assignment.ssubset (partitionFlags c symbols p) ·))
            (next (c.group symbols p)) s answer s₁ ∧
          ((answer = some .timeout ∧ a = .timeout ∧ s' = s₁) ∨
            (answer ≠ some .timeout ∧ ∃ neqs' allNeq',
              Ends (partitionFrom kind symbols next c count' q neqs' allNeq') s₁ a s' ∧
              (∀ n ∈ neqs', n ∈ neqs ∨ (answer = some .neq ∧ n = partitionFlags c symbols p)) ∧
              (allNeq' = true → allNeq = true ∧ (answer = none ∨ answer = some .neq)))) := by
  cases count with
  | zero => exact .inl ⟨rfl, ends_pure.mp h⟩
  | succ count =>
    rw [partitionFrom] at h
    dsimp only at h
    rw [ite_bind_join] at h
    obtain ⟨answer, s₁, hanswer, h⟩ := ends_bind.mp h
    obtain ⟨count', q, -, hvisit, hgo⟩ := partitionFrom_rest kind symbols next c count p
    have hnext : ∀ neqs' allNeq', Ends (match p.next? with
        | some q => partitionFrom kind symbols next c count q neqs' allNeq'
        | none => pure (if allNeq' = true then Answer.neq else Answer.eq)) s₁ a s' →
        Ends (partitionFrom kind symbols next c count' q neqs' allNeq') s₁ a s' := by
      intro neqs' allNeq' hends
      rwa [hgo] at hends
    refine .inr ⟨count', q, hvisit, answer, s₁, ends_unless hanswer, ?_⟩
    -- Skipped, `eq`, `neq`, `unknown`, `timeout`; only `neq` adds to the memory.
    rcases answer with _ | (_ | _ | _ | _)
    · exact .inr ⟨nofun, neqs, allNeq, hnext _ _ h, fun n hn => .inl hn,
        fun hall => ⟨hall, .inl rfl⟩⟩
    · exact .inr ⟨nofun, neqs, false, hnext _ _ h, fun n hn => .inl hn, nofun⟩
    · refine .inr ⟨nofun, _, allNeq, hnext _ _ h, fun n hn => ?_, fun hall => ⟨hall, .inr rfl⟩⟩
      rcases mem_append.mp hn with hold | hnew
      · exact .inl (mem_of_mem_filter hold)
      · exact .inr ⟨rfl, mem_singleton.mp hnew⟩
    · exact .inr ⟨nofun, neqs, false, hnext _ _ h, fun n hn => .inl hn, nofun⟩
    · exact .inl ⟨rfl, ends_pure.mp h⟩

/-- The tree below one partition. -/
def partitionTree (kind : SymbolKind) (symbols : List Symbol) (tree : Choice → SearchTree)
    (c : Choice) (p : Partition) : SearchTree :=
  if conflicts kind c symbols p then .none else tree (c.group symbols p)

theorem still_partitionTree (kind : SymbolKind) (symbols : List Symbol) (c : Choice) (p : Partition)
    (h : ∀ d, (tree d).Still true) : (partitionTree kind symbols tree c p).Still true := by
  unfold partitionTree
  split
  · rfl
  · exact h _

/-- A partition that is left out is in conflict or finer than one that answered `neq`; one that is
tried and answers `neq` refutes what is below it. -/
theorem visit_partition (h : Prunes t kinds next tree) (hkind : kind ∉ kinds)
    (hsym : ∀ a ∈ symbols, a.kind = kind) (hc : c.Ungrouped (kind :: kinds)) {p : Partition}
    {neqs : List Assignment} {answer : Option Answer} (hs : t.Remembers seen s)
    (hneqs : ∀ n ∈ neqs, ∃ q, n = partitionFlags c symbols q ∧
      RefutesBelow t kinds tree (c.group symbols q) seen s.integrityReached)
    (hends : EndsUnless (conflicts kind c symbols p
        || neqs.any (Assignment.ssubset (partitionFlags c symbols p) ·))
      (next (c.group symbols p)) s answer s₁) :
    Explored t (partitionTree kind symbols tree c p) seen s (answer.getD .unknown) s₁ ∧
      (answer = none ∨ answer = some .neq → conflicts kind c symbols p = true ∨
        RefutesBelow t kinds tree (c.group symbols p)
          (t.after (partitionTree kind symbols tree c p) seen s) s₁.integrityReached) := by
  have hgroup : (c.group symbols p).Ungrouped kinds := hc.group hsym hkind
  unfold partitionTree
  cases hconf : conflicts kind c symbols p with
  | true =>
    rcases hends with ⟨-, rfl, rfl⟩ | ⟨hout, -⟩
    · exact ⟨explored_none hs nofun ⟨rfl, rfl, rfl⟩, fun _ => .inl rfl⟩
    · rw [hconf, Bool.true_or] at hout
      cases hout
  | false =>
    rw [hconf, Bool.false_or] at hends
    simp only [Bool.false_eq_true, if_false, false_or]
    rcases hends with ⟨hout, rfl, rfl⟩ | ⟨-, a, rfl, hnext⟩
    -- It lies below one that was refuted, so nothing is lost by the skip.
    · obtain ⟨n, hn, hsub⟩ := any_eq_true.mp hout
      obtain ⟨q, rfl, href⟩ := hneqs n hn
      rw [Assignment.ssubset, Bool.and_eq_true] at hsub
      have hfiner : (c.group symbols p).Finer (c.group symbols q) :=
        Choice.finer_group hsym hc hsub.1
      have href := href.of_finer hfiner
      refine ⟨explored_skip hs nofun (href.still _ (.refl _) hgroup)
        (href.leaves _ (.refl _) hgroup _), fun _ => ?_⟩
      exact href.mono h.still subset_after (.inl rfl)
    · obtain ⟨hexp, hneq⟩ := h.explored _ hgroup seen s a s₁ hnext hs
      exact ⟨hexp, fun ha => hneq (by simpa using ha)⟩

/-- The loop over the partitions, by induction on those that are left. What carries it is that every
remembered partition refutes what is below it. -/
theorem partitionFrom_explored (h : Prunes t kinds next tree) (hkind : kind ∉ kinds)
    (hsym : ∀ a ∈ symbols, a.kind = kind) (hc : c.Ungrouped (kind :: kinds))
    {ps : List Partition} : ∀ {count : Nat} {p : Partition} {neqs : List Assignment}
      {allNeq : Bool} {seen : List Assignment} {s : SearchState},
      Partition.visitFrom count p = ps → t.Remembers seen s →
      (∀ n ∈ neqs, ∃ q, n = partitionFlags c symbols q ∧
        RefutesBelow t kinds tree (c.group symbols q) seen s.integrityReached) →
      Ends (partitionFrom kind symbols next c count p neqs allNeq) s a s' →
      Explored t (SearchTree.all (partitionTree kind symbols tree c) ps) seen s a s' ∧
        (a = .neq → allNeq = true ∧ ∀ q ∈ ps, conflicts kind c symbols q = true ∨
          RefutesBelow t kinds tree (c.group symbols q)
            (t.after (SearchTree.all (partitionTree kind symbols tree c) ps) seen s)
            s'.integrityReached) := by
  induction ps with
  | nil =>
    intro count p neqs allNeq seen s hps hs hneqs hends
    rcases partitionFrom_ends hends with ⟨-, rfl, rfl⟩ | ⟨count', q, hvisit, -⟩
    · have hgo : (if allNeq then Answer.neq else Answer.eq) ≠ .timeout := by cases allNeq <;> nofun
      refine ⟨explored_none hs hgo ⟨rfl, rfl, rfl⟩, fun hneq => ⟨?_, nofun⟩⟩
      cases allNeq
      · cases hneq
      · rfl
    · rw [hps] at hvisit
      cases hvisit
  | cons p' ps ih =>
    intro count p neqs allNeq seen s hps hs hneqs hends
    rcases partitionFrom_ends hends with ⟨hnil, -⟩ | ⟨count', q, hvisit, answer, s₁, hfirst, hrest⟩
    · rw [hps] at hnil
      cases hnil
    rw [hps] at hvisit
    obtain ⟨rfl, rfl⟩ := List.cons.inj hvisit
    obtain ⟨hexp, hrefutes⟩ := visit_partition h hkind hsym hc hs hneqs hfirst
    rcases hrest with ⟨rfl, rfl, rfl⟩ | ⟨htime, neqs', allNeq', hends', hneqs', hall⟩
    · exact ⟨explored_timeout (hexp.timedOut rfl), nofun⟩
    have hgo := getD_ne_timeout htime
    have hreached := hexp.reached hgo
    have hstill := fun p => still_partitionTree kind symbols c p h.still
    have hbit := reached_or (hstill p') s.integrityReached
    rw [← hreached] at hbit
    -- A partition that is remembered now was remembered before or is the first one.
    have hneqs₁ : ∀ n ∈ neqs', ∃ q, n = partitionFlags c symbols q ∧
        RefutesBelow t kinds tree (c.group symbols q)
          (t.after (partitionTree kind symbols tree c p') seen s) s₁.integrityReached := by
      intro n hn
      rcases hneqs' n hn with hold | ⟨hneq, rfl⟩
      · obtain ⟨q, rfl, href⟩ := hneqs n hold
        exact ⟨q, rfl, href.mono h.still subset_after hbit⟩
      · refine ⟨p', rfl, (hrefutes (.inr hneq)).resolve_left fun hconf => ?_⟩
        rcases hfirst with ⟨-, hnone, -⟩ | ⟨hout, -⟩
        · rw [hnone] at hneq
          cases hneq
        · rw [hconf, Bool.true_or] at hout
          cases hout
    obtain ⟨hexp₁, hneq₁⟩ := ih rfl (hexp.remembers hgo) hneqs₁ hends'
    refine ⟨hexp.append hgo hexp₁, fun ha => ?_⟩
    obtain ⟨hall', hlast⟩ := hneq₁ ha
    obtain ⟨hallNeq, hanswer⟩ := hall hall'
    have hbit₁ := reached_or (Still.all fun p (_ : p ∈ Partition.visitFrom count' q) => hstill p)
      s₁.integrityReached
    rw [← hexp₁.reached (ha ▸ nofun)] at hbit₁
    refine ⟨hallNeq, ?_⟩
    rw [SearchTree.all, after_append hreached]
    intro p hp
    rcases mem_cons.mp hp with rfl | hp
    · exact (hrefutes hanswer).imp id fun href => href.mono h.still subset_after hbit₁
    · exact hlast p hp

/-- A partition in conflict is in conflict for every finer choice. -/
theorem conflicts_of_finer {c d : Choice} (hsym : ∀ a ∈ symbols, a.kind = kind)
    (hc : c.Ungrouped (kind :: kinds)) (hd : d.Ungrouped (kind :: kinds)) (h : d.Finer c)
    {p : Partition} (hconf : conflicts kind c symbols p = true) :
    conflicts kind d symbols p = true := by
  unfold conflicts at hconf ⊢
  rw [Bool.and_eq_true] at hconf ⊢
  refine ⟨hconf.1, (h.group hsym hd hc).hasConflict (fun x hx heq => ?_) hconf.2⟩
  rwa [Choice.isEq_group hd hc (hsym x.1 (Catalog.fst_mem_of_mem_pairs hx))]

theorem partitionStage_eq_all (t : SearchTask) (kind : SymbolKind) (tree : Choice → SearchTree)
    (c : Choice) : SearchTree.partitionStage t kind tree c =
      SearchTree.all (partitionTree kind (t.catalog.source.symbolsOf kind) tree c)
        (Partition.all (t.catalog.source.symbolsOf kind).length) :=
  rfl

/-- If all partitions that are not in conflict refute what is below them, so does the choice. -/
theorem refutesBelow_partitionStage (hkind : kind ∉ kinds)
    (hsym : ∀ a ∈ t.catalog.source.symbolsOf kind, a.kind = kind)
    (hc : c.Ungrouped (kind :: kinds)) {reached : Bool}
    (h : ∀ p ∈ Partition.all (t.catalog.source.symbolsOf kind).length,
      conflicts kind c (t.catalog.source.symbolsOf kind) p = true ∨
        RefutesBelow t kinds tree (c.group (t.catalog.source.symbolsOf kind) p) seen reached) :
    RefutesBelow t (kind :: kinds) (SearchTree.partitionStage t kind tree) c seen reached := by
  -- A partition that is tried below a finer choice is not in conflict for `c` either.
  have htried : ∀ d, d.Finer c → d.Ungrouped (kind :: kinds) →
      ∀ p ∈ Partition.all (t.catalog.source.symbolsOf kind).length,
      ¬ conflicts kind d (t.catalog.source.symbolsOf kind) p = true →
      RefutesBelow t kinds tree (c.group (t.catalog.source.symbolsOf kind) p) seen reached :=
    fun d hd hun p hp hnot =>
      (h p hp).resolve_left fun hconf => hnot (conflicts_of_finer hsym hc hun hd hconf)
  refine ⟨fun d hd hun => ?_, fun d hd hun reached' leaf hleaf => ?_⟩
  · rw [partitionStage_eq_all]
    refine Still.all fun p hp => ?_
    unfold partitionTree
    split
    · rfl
    · next hnot =>
      exact (htried d hd hun p hp hnot).still _ (hd.group hsym hun hc) (hun.group hsym hkind)
  · rw [partitionStage_eq_all] at hleaf
    obtain ⟨p, hp, reached'', hleaf⟩ := SearchTree.mem_all hleaf
    unfold partitionTree at hleaf
    split at hleaf
    · cases hleaf
    · next hnot =>
      exact (htried d hd hun p hp hnot).leaves _ (hd.group hsym hun hc) (hun.group hsym hkind)
        reached'' leaf hleaf

/-- There is one way to partition no symbols, and it changes nothing. -/
theorem partitionStage_of_nil (tree : Choice → SearchTree)
    (h : t.catalog.source.symbolsOf kind = []) : SearchTree.partitionStage t kind tree = tree := by
  funext c
  have hgroup : c.group [] [] = c := by
    show Choice.mk c.sources c.copies (c.blocks ++ []) c.integrity = c
    rw [append_nil]
  have hconf : conflicts kind c [] [] = false := by
    simp [conflicts, Choice.hasConflict, Catalog.pairs]
  rw [partitionStage_eq_all, h]
  show SearchTree.append (partitionTree kind [] tree c []) SearchTree.none = tree c
  unfold partitionTree
  rw [hconf, hgroup]
  funext reached
  show ((tree c reached).1 ++ [], (tree c reached).2) = tree c reached
  rw [append_nil]

/-- What is finer than a partition answered `neq` is refuted, so it may be skipped. -/
theorem Prunes.partitionStage (h : Prunes t kinds next tree) (kind : SymbolKind)
    (hkind : kind ∉ kinds) :
    Prunes t (kind :: kinds) (partitionStage t kind next)
      (SearchTree.partitionStage t kind tree) := by
  have hsym : ∀ a ∈ t.catalog.source.symbolsOf kind, a.kind = kind := by
    intro a ha
    simpa using of_mem_filter ha
  constructor
  · intro c
    rw [partitionStage_eq_all]
    exact Still.all fun p _ => still_partitionTree kind _ c p h.still
  intro c hc seen s a s' hends hs
  unfold Search.partitionStage at hends
  dsimp only at hends
  split at hends
  -- Without symbols of the kind there is nothing to group.
  · next hlen =>
    rw [partitionStage_of_nil tree (length_eq_zero_iff.mp hlen)]
    obtain ⟨hexp, hneq⟩ := h.explored c hc.tail seen s a s' hends hs
    refine ⟨hexp, fun heq => ⟨fun d hd hun => (hneq heq).still d hd hun.tail,
      fun d hd hun => (hneq heq).leaves d hd hun.tail⟩⟩
  split at hends
  · exact absurd hends not_ends_throw
  · obtain ⟨hexp, hneq⟩ := partitionFrom_explored h hkind hsym hc rfl hs
      (fun n hn => absurd hn not_mem_nil) hends
    exact ⟨hexp, fun heq => refutesBelow_partitionStage hkind hsym hc (hneq heq).2⟩

end Partitions

/-! ## Sources, copies and columns -/

section Upper

variable {kinds : List SymbolKind} {next : Choice → Search Answer} {tree : Choice → SearchTree}

/-- The search visits the tree; its answers are not used. -/
def Explores (t : SearchTask) (kinds : List SymbolKind) (next : Choice → Search Answer)
    (tree : Choice → SearchTree) : Prop :=
  ∀ c, c.Ungrouped kinds → ∀ seen s a s', Ends (next c) s a s' → t.Remembers seen s →
    Explored t (tree c) seen s a s'

theorem Prunes.explores (h : Prunes t kinds next tree) : Explores t kinds next tree :=
  fun c hc seen s a s' hends hs => (h.explored c hc seen s a s' hends hs).1

/-- The check of the outputs cuts the tree where it cuts the search. -/
theorem Explores.outputStage (h : Explores t kinds next tree) :
    Explores t kinds (outputStage t next) (SearchTree.outputStage t tree) := by
  intro c hc seen s a s' hends hs
  unfold Search.outputStage at hends
  unfold SearchTree.outputStage
  split at hends
  · next hskip =>
    rw [if_pos hskip]
    exact h c hc seen s a s' hends hs
  next hskip =>
  rw [if_neg hskip]
  cases hconcrete : (t.rule (t.flags c false)).concrete with
  | error e =>
    rw [hconcrete] at hends
    obtain ⟨rfl, rfl⟩ := ends_pure.mp hends
    exact explored_none hs nofun ⟨rfl, rfl, rfl⟩
  | ok concrete =>
    rw [hconcrete] at hends
    dsimp only at hends ⊢
    split at hends
    · next hcolumns =>
      rw [if_pos hcolumns]
      obtain ⟨rfl, rfl⟩ := ends_modify_pure.mp hends
      exact explored_none hs nofun ⟨rfl, rfl, rfl⟩
    · next hcolumns =>
      rw [if_neg hcolumns]
      exact h c hc seen s a s' hends hs

/-- Trying all alternatives visits their trees one after the other. -/
theorem tryAllFrom_explored {f : α → Search Answer} {g : α → SearchTree} {as : List α}
    (h : ∀ x seen s a s', Ends (f x) s a s' → t.Remembers seen s → Explored t (g x) seen s a s')
    {allNeq : Bool} (hends : Ends (tryAllFrom f allNeq as) s a s') (hs : t.Remembers seen s) :
    Explored t (SearchTree.all g as) seen s a s' := by
  induction as generalizing s seen allNeq with
  | nil =>
    obtain ⟨rfl, rfl⟩ := ends_pure.mp hends
    refine explored_none hs ?_ ⟨rfl, rfl, rfl⟩
    cases allNeq <;> nofun
  | cons x as ih =>
    rw [tryAllFrom] at hends
    obtain ⟨b, s₁, hfirst, hends⟩ := ends_bind.mp hends
    have hexp := h x seen s b s₁ hfirst hs
    cases b with
    | timeout =>
      obtain ⟨rfl, rfl⟩ := ends_pure.mp hends
      exact explored_timeout (hexp.timedOut rfl)
    | neq | eq | unknown => exact hexp.append nofun (ih hends (hexp.remembers nofun))

theorem Explores.copyAll {candidates targets : List Symbol} (h : Explores t kinds next tree) :
    Explores t kinds (copyAll t candidates next targets)
      (SearchTree.copyAll t candidates tree targets) := by
  induction targets with
  | nil => exact h
  | cons target rest ih =>
    intro c hc seen s a s' hends hs
    refine tryAllFrom_explored (fun source seen s a s' hends hs => ?_) hends hs
    split at hends
    · exact absurd hends not_ends_throw
    · exact ih (c.copy target source) hc seen s a s' hends hs

theorem Explores.copyStage (h : Explores t kinds next tree) (kind : SymbolKind) :
    Explores t kinds (copyStage t kind next) (SearchTree.copyStage t kind tree) :=
  h.copyAll

theorem all_singleton (f : α → SearchTree) (x : α) : SearchTree.all f [x] = f x := by
  funext reached
  show ((f x reached).1 ++ [], (f x reached).2) = f x reached
  rw [append_nil]

/-- Drawing explores every draw. -/
theorem Explores.drawAll {lists : List (Symbol × List Symbol)} (h : Explores t kinds next tree) :
    Explores t kinds (drawAll next lists) (SearchTree.drawAll tree lists) := by
  induction lists with
  | nil => exact h
  | cons x rest ih =>
    intro c hc seen s a s' hends hs
    obtain ⟨attrs, sources⟩ := x
    rw [SearchTree.drawAll]
    have hnext : ∀ source seen s a s',
        Ends (Search.drawAll next rest (c.draw attrs source)) s a s' →
        t.Remembers seen s →
        Explored t (SearchTree.drawAll tree rest (c.draw attrs source)) seen s a s' :=
      fun source => ih (c.draw attrs source) hc
    -- A single source is drawn without trying alternatives.
    rw [Search.drawAll.eq_def] at hends
    split at hends
    · next heq => cases heq
    · next source rest' heq =>
      cases heq
      rw [all_singleton]
      exact hnext source seen s a s' hends hs
    · next heq =>
      cases heq
      exact tryAllFrom_explored hnext hends hs

theorem Explores.drawStage (h : Explores t kinds next tree) :
    Explores t kinds (drawStage t next) (SearchTree.drawStage t tree) :=
  h.drawAll

end Upper

/-! ## The whole search -/

/-- The search visits the tree of all choices. -/
theorem explore_explored (hdry : t.settings.isDryRun = false)
    (hpure : ∀ n q, t.oracle n q = t.oracle 0 q) (hends : Ends (explore t) .initial a s') :
    Explored t (SearchTree.root t) [] .initial a s' := by
  -- The bit, once set, stays set along the stages of the integrity constraints.
  have hstillReferences : ∀ c,
      (SearchTree.decideAll SearchTree.leaf [] t.references c).Still true :=
    Still.decideAll (fun c => SearchTree.still_leaf c true) t.references []
  have hstillTables := Still.tableStage (t := t) (Still.notNullStage (t := t) hstillReferences)
  have hstillUniques := Still.decideAll hstillTables t.uniques []
  have hcapReferences := (SearchTree.capped_leaf t).decideAll t.references
  have hcapTables := hcapReferences.notNullStage.tableStage
  -- From the last stage to the first.
  have hleaf := (cuts_leafStage hdry hpure).clockStage
  have hreferences := hleaf.decideAll (SearchTree.capped_leaf t) t.references
  have hnotNulls := hreferences.notNullStage hcapReferences hstillReferences
  have huniques := hnotNulls.tableStage.decideAll hcapTables t.uniques
  have hpreds := (huniques.prunes (hcapTables.decideAll t.uniques) hstillUniques).partitionStage
    .pred (by decide)
  have htables := (hpreds.partitionStage .attrs (by decide)).partitionStage .table (by decide)
  have hcopies := ((htables.explores.outputStage.copyStage .pred).copyStage .attrs).copyStage .table
  exact hcopies.drawStage Choice.none (fun _ _ => rfl) [] .initial a s' hends
    (SearchTask.remembers_initial t)

end Search

namespace SearchTask

variable {t : SearchTask} {s : SearchState}

/-- A search that has seen all complete choices knows exactly the smallest ones that make the
queries equal, if no such choice lies below one that leaves them different. -/
theorem Remembers.mem_eqs_iff (h : t.Remembers t.leaves s)
    (hdown : ∀ a ∈ t.leaves, ∀ b ∈ t.leaves, Assignment.subset a b = true →
      t.verdict b = .neq → t.verdict a ≠ .eq) (flags : Assignment) :
    flags ∈ s.eqs ↔ t.IsMinimalEq flags := by
  -- Monotone answers rule out that an equal choice is refuted.
  have hknown : ∀ a ∈ t.leaves, t.verdict a = .eq → ∃ b ∈ s.eqs, Assignment.subset b a = true := by
    intro a ha heq
    refine (h.complete a ha heq).resolve_right ?_
    rintro ⟨n, hn, hneq, hsub⟩
    exact hdown a ha n hn hsub hneq heq
  constructor
  · intro hmem
    refine ⟨h.eqs_right flags hmem, fun other hother heq hsub => ?_⟩
    obtain ⟨b, hb, hbo⟩ := hknown other hother heq
    have hsame : b = flags := h.eqs_least b hb flags hmem (Assignment.subset_trans hbo hsub)
    exact Assignment.subset_antisymm hsub (hsame ▸ hbo)
  · rintro ⟨⟨hleaf, heq⟩, hmin⟩
    obtain ⟨b, hb, hsub⟩ := hknown flags hleaf heq
    obtain ⟨hbleaf, hbeq⟩ := h.eqs_right b hb
    exact hmin b hbleaf hbeq hsub ▸ hb

end SearchTask

/-- **Pruning loses no rule.** If the oracle is a function of the question and monotone on the
assignments of complete choices, then a search that asks it and ends without an error and in time
returns the rules of exactly the smallest assignments for which the oracle says `eq`, among all
complete choices of the unpruned tree; each is returned once. A dry run does not ask the oracle. -/
theorem Catalog.search_returns_minimal_leaves (catalog : Catalog) (settings : Settings)
    (oracle : Oracle) (clock : Nat → Nat) (hdry : settings.isDryRun = false)
    (hmono : (SearchTask.ofCatalog catalog settings oracle clock).IsMonotone)
    {outcome : SearchOutcome}
    (hrun : (catalog.search settings oracle clock).result = .ok outcome)
    (htime : outcome.timedOut = false) :
    ∃ found : List Assignment, outcome.rules = found.map catalog.rule ∧ found.Nodup ∧
      ∀ flags, flags ∈ found ↔
        (SearchTask.ofCatalog catalog settings oracle clock).IsMinimalEq flags := by
  set t := SearchTask.ofCatalog catalog settings oracle clock with ht
  unfold Catalog.search at hrun
  dsimp only at hrun
  rw [← ht] at hrun
  rcases hends : (Search.explore t).run.run SearchState.initial with ⟨e | a, s⟩
  · rw [hends] at hrun
    cases hrun
  rw [hends] at hrun
  cases hrun
  have hexp := Search.explore_explored hdry hmono.pure hends
  have hintime : a ≠ .timeout := by
    intro hlate
    rw [hexp.timedOut hlate] at htime
    cases htime
  have hmem : t.Remembers t.leaves s := hexp.remembers hintime
  refine ⟨s.eqs, rfl, hmem.eqs_nodup, hmem.mem_eqs_iff fun a ha b hb hsub hneq heq => ?_⟩
  rw [hmono.eq_up a ha b hb hsub heq] at hneq
  cases hneq

/-- `Proj*<a0>(Input<t0>)` against `Proj<a1>(Input<t1>)`. -/
def Catalog.dedup : Catalog :=
  ⟨.proj true ⟨.source, .attrs, 0⟩ (.input ⟨.source, .table, 0⟩),
    .proj false ⟨.target, .attrs, 0⟩ (.input ⟨.target, .table, 0⟩), Names.empty⟩

/-- The oracle that takes queries for different unless they are isomorphic. -/
def Oracle.strict : Oracle :=
  fun _ q => .ok (if q.isIsomorphic then .eq else .neq)

/-- Deduplication does nothing under a unique key. The unpruned tree has four complete choices, of
which the search visits three, and it finds one rule. -/
theorem Catalog.search_returns_minimal_leaves_dedup :
    ∃ outcome : SearchOutcome,
      (Catalog.dedup.search {} Oracle.strict fun _ => 0).result = .ok outcome ∧
      outcome.stats.leaves = 3 ∧ outcome.rules.length = 1 ∧
      (SearchTask.ofCatalog Catalog.dedup {} Oracle.strict fun _ => 0).leaves.length = 4 ∧
      ∃ found : List Assignment, outcome.rules = found.map Catalog.dedup.rule ∧ found.Nodup ∧
        ∀ flags, flags ∈ found ↔
          (SearchTask.ofCatalog Catalog.dedup {} Oracle.strict fun _ => 0).IsMinimalEq flags := by
  have hresult : ((Catalog.dedup.search {} Oracle.strict fun _ => 0).result.toOption.any fun o =>
      !o.timedOut && o.stats.leaves == 3 && o.rules.length == 1) = true := by
    decide +kernel
  have hmono : (SearchTask.ofCatalog Catalog.dedup {} Oracle.strict fun _ => 0).IsMonotone :=
    ⟨fun _ _ => rfl, by decide +kernel, by decide +kernel⟩
  generalize hrun : (Catalog.dedup.search {} Oracle.strict fun _ => 0).result = result at hresult
  cases result with
  | error e => cases hresult
  | ok outcome =>
    simp only [Except.toOption, Option.any_some, Bool.and_eq_true, Bool.not_eq_true',
      beq_iff_eq] at hresult
    obtain ⟨⟨htime, hvisited⟩, hrules⟩ := hresult
    exact ⟨outcome, rfl, hvisited, hrules, by decide +kernel,
      Catalog.search_returns_minimal_leaves _ _ _ _ rfl hmono hrun htime⟩

end QueryRules
