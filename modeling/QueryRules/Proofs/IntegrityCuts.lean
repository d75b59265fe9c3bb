import QueryRules.Proofs.SearchBounds

/-!
# QueryRules — deciding integrity constraints cuts rightly

The stages that decide integrity constraints are compared with the same stages of the tree of all
choices.

The bit `SearchState.integrityReached` needs care: a skipped part must not be one that would have
set it. It is set before the first complete choice is answered, and nothing resets it.
-/

namespace QueryRules

open List

/-- The assignments seen after a tree was visited from the state `s`. -/
def SearchTask.after (t : SearchTask) (tree : SearchTree) (seen : List Assignment)
    (s : SearchState) : List Assignment :=
  seen ++ (tree s.integrityReached).1.map (t.flags · false)

namespace Search

open SearchTree (Still Capped)

variable {α : Type} {t : SearchTask} {seen : List Assignment} {s s₁ s' : SearchState}
  {a b : Answer} {c : Choice} {l r tree : SearchTree}

/-! ## Visiting a tree -/

/-- A run from `s` to `s'` with the answer `a` has visited a tree, or ran out of time. -/
structure Explored (t : SearchTask) (tree : SearchTree) (seen : List Assignment)
    (s : SearchState) (a : Answer) (s' : SearchState) : Prop where
  timedOut : a = .timeout → s'.timedOut = true
  reached : a ≠ .timeout → s'.integrityReached = (tree s.integrityReached).2
  remembers : a ≠ .timeout → t.Remembers (t.after tree seen s) s'

theorem after_append (h : s₁.integrityReached = (l s.integrityReached).2) :
    t.after (l.append r) seen s = t.after r (t.after l seen s) s₁ := by
  unfold SearchTask.after
  rw [h, append_assoc, ← map_append]
  rfl

theorem subset_after : seen ⊆ t.after tree seen s :=
  subset_append_left _ _

theorem explored_timeout (h : s'.timedOut = true) : Explored t tree seen s .timeout s' :=
  ⟨fun _ => h, fun hne => absurd rfl hne, fun hne => absurd rfl hne⟩

/-- A part whose complete choices are all refuted may be skipped if it leaves the bit alone. -/
theorem explored_skip (hs : t.Remembers seen s) (ha : a ≠ .timeout)
    (hstill : tree.Still s.integrityReached)
    (href : ∀ leaf ∈ (tree s.integrityReached).1, t.Refuted seen (t.flags leaf false)) :
    Explored t tree seen s a s := by
  refine ⟨fun heq => absurd heq ha, fun _ => hstill.symm, fun _ => hs.skip fun x hx => ?_⟩
  obtain ⟨leaf, hleaf, rfl⟩ := mem_map.mp hx
  exact href leaf hleaf

/-- Nothing is visited, and of the state at most counters and the trace change. -/
theorem explored_none (hs : t.Remembers seen s) (ha : a ≠ .timeout) (hsame : s.SameMemory s') :
    Explored t .none seen s a s' := by
  refine ⟨fun heq => absurd heq ha, fun _ => hsame.reached, fun _ => ?_⟩
  show t.Remembers (seen ++ []) s'
  rw [append_nil]
  exact hs.of_eqs_neqs hsame.eqs hsame.neqs

/-- One tree after the other. -/
theorem Explored.append (hl : Explored t l seen s a s₁) (ha : a ≠ .timeout)
    (hr : Explored t r (t.after l seen s) s₁ b s') : Explored t (l.append r) seen s b s' := by
  have hmid := hl.reached ha
  refine ⟨hr.timedOut, fun hb => ?_, fun hb => ?_⟩
  · rw [hr.reached hb, hmid]
    rfl
  · rw [after_append hmid]
    exact hr.remembers hb

/-- Of the answer it matters only whether the time is up. -/
theorem Explored.of_answer (h : Explored t tree seen s a s') (ha : a ≠ .timeout)
    (hb : b ≠ .timeout) : Explored t tree seen s b s' :=
  ⟨fun heq => absurd heq hb, fun _ => h.reached ha, fun _ => h.remembers ha⟩

/-- Only the bit of the first state matters. -/
theorem Explored.of_start {s₀ : SearchState} (h : Explored t tree seen s₀ a s')
    (hreached : s₀.integrityReached = s.integrityReached) : Explored t tree seen s a s' := by
  refine ⟨h.timedOut, fun ha => ?_, fun ha => ?_⟩
  · rw [← hreached]
    exact h.reached ha
  · have hmem := h.remembers ha
    unfold SearchTask.after at hmem ⊢
    rwa [hreached] at hmem

/-- Only the tree at the bit of the first state matters. -/
theorem Explored.of_tree (h : Explored t l seen s a s')
    (htree : r s.integrityReached = l s.integrityReached) : Explored t r seen s a s' := by
  refine ⟨h.timedOut, fun ha => ?_, fun ha => ?_⟩
  · rw [htree]
    exact h.reached ha
  · unfold SearchTask.after
    rw [htree]
    exact h.remembers ha

/-! ## Complete choices -/

/-- The answers of `next` cut off integrity constraints rightly. After `neq` the tree leaves the
bit alone, and the assignment that has on whatever of the later constraints conforms is refuted. -/
def Cuts (t : SearchTask) (later : List Constraint) (next : Choice → Search Answer)
    (tree : Choice → SearchTree) : Prop :=
  ∀ c seen s a s', Ends (next c) s a s' → t.Remembers seen s →
    Explored t (tree c) seen s a s' ∧
      (a = .neq → (∀ d, (tree d).Still s'.integrityReached) ∧
        t.Refuted (t.after (tree c) seen s) (t.cap c (later.map c.conforms)))

theorem cuts_leafStage (hdry : t.settings.isDryRun = false)
    (hpure : ∀ n q, t.oracle n q = t.oracle 0 q) : Cuts t [] (leafStage t) SearchTree.leaf := by
  intro c seen s a s' h hs
  unfold leafStage at h
  simp only [ends_bind, ends_modify, ends_pure] at h
  obtain ⟨answer, s₁, hanswer, _, s₂, rfl, rfl, rfl⟩ := h
  obtain ⟨⟨htime, hreached⟩, hmem, hneq⟩ := hs.answerLeaf hdry hpure hanswer
  refine ⟨⟨fun heq => absurd heq htime, fun _ => hreached, fun _ => hmem.of_eqs_neqs rfl rfl⟩, ?_⟩
  intro heq
  refine ⟨fun d => rfl, ?_⟩
  rw [map_nil, SearchTask.cap_nil]
  exact hneq heq

theorem Cuts.clockStage {later : List Constraint} {next : Choice → Search Answer}
    {tree : Choice → SearchTree} (h : Cuts t later next tree) :
    Cuts t later (clockStage t next) tree := by
  intro c seen s a s' hends hs
  unfold Search.clockStage at hends
  split at hends
  · exact h c seen s a s' hends hs
  · simp only [ends_bind, ends_get, ends_modify] at hends
    obtain ⟨_, _, ⟨rfl, rfl⟩, _, s₁, rfl, hends⟩ := hends
    split at hends
    · obtain ⟨rfl, rfl⟩ := ends_modify_pure.mp hends
      exact ⟨explored_timeout rfl, nofun⟩
    · obtain ⟨hexp, hneq⟩ := h c seen _ a s' hends (hs.of_eqs_neqs rfl rfl)
      exact ⟨hexp.of_start rfl, hneq⟩

/-! ## Integrity constraints -/

section Integrity

variable {later : List Constraint} {next : Choice → Search Answer} {tree : Choice → SearchTree}

/-- The part `m` is left out with the result `none`, or ends with some answer. -/
def EndsUnless (leftOut : Bool) (m : Search Answer) (s : SearchState) (o : Option Answer)
    (s' : SearchState) : Prop :=
  (leftOut = true ∧ o = none ∧ s' = s) ∨ (leftOut = false ∧ ∃ a, o = some a ∧ Ends m s a s')

theorem ends_unless {leftOut : Bool} {m : Search Answer} {o : Option Answer}
    (h : Ends (if leftOut = true then pure none else some <$> m) s o s') :
    EndsUnless leftOut m s o s' := by
  cases leftOut with
  | true =>
    obtain ⟨rfl, rfl⟩ := ends_pure.mp h
    exact .inl ⟨rfl, rfl, rfl⟩
  | false =>
    obtain ⟨b, hb, rfl⟩ := ends_map.mp h
    exact .inr ⟨rfl, b, rfl, hb⟩

/-- Two branches that go on in the same way. -/
theorem ite_bind_join {β : Type} {p : Prop} [Decidable p] {x y : Search α} {f : α → Search β} :
    (if p then x >>= f else y >>= f) = (if p then x else y) >>= f := by
  split <;> rfl

/-- What a decision can do: nothing is forced both ways; the constraint is tried on; and unless this
answers `neq` or takes too long, it is tried off. -/
theorem decideAll_ends {earlier : List (Constraint × Bool)} {e : Constraint}
    {rest : List Constraint} (h : Ends (decideAll t next earlier (e :: rest) c) s a s') :
    c.forced earlier e ≠ .conflict ∧
      ∃ on s₁,
        EndsUnless (c.forced earlier e).mustDisable
          (decideAll t next (earlier ++ [(e, true)]) rest (c.decide true)) s on s₁ ∧
        ((on = some .neq ∧ a = .neq ∧ s' = s₁) ∨ (on = some .timeout ∧ a = .timeout ∧ s' = s₁) ∨
          (on ≠ some .neq ∧ on ≠ some .timeout ∧ ∃ off,
            EndsUnless (c.forced earlier e).mustEnable
              (decideAll t next (earlier ++ [(e, false)]) rest (c.decide false)) s₁ off s' ∧
            a = if off = some .timeout then .timeout else combine on off)) := by
  rw [decideAll] at h
  dsimp only at h
  split at h
  · obtain ⟨_, _, hthrow, -⟩ := ends_bind.mp h
    exact absurd hthrow not_ends_throw
  next hconflict =>
  rw [ite_bind_join] at h
  obtain ⟨on, s₁, hon, h⟩ := ends_bind.mp h
  refine ⟨hconflict, on, s₁, ends_unless hon, ?_⟩
  split at h
  · next hneq => exact .inl ⟨hneq, ends_pure.mp h⟩
  split at h
  · next htime => exact .inr (.inl ⟨htime, ends_pure.mp h⟩)
  -- With the constraint switched on nothing was refuted, so it is switched off next.
  next hneq htime =>
  rw [ite_bind_join] at h
  obtain ⟨off, s₂, hoff, h⟩ := ends_bind.mp h
  rw [← apply_ite pure, ends_pure] at h
  obtain ⟨rfl, rfl⟩ := h
  exact .inr (.inr ⟨hneq, htime, off, ends_unless hoff, rfl⟩)

/-- An answer `neq` that needs the second branch comes from it alone. -/
theorem combine_eq_neq {on off : Option Answer} (hon : on ≠ some .neq) (hon' : on ≠ some .timeout)
    (hoff : off ≠ some .timeout) (h : combine on off = .neq) :
    on = none ∧ (off = none ∨ off = some .neq) := by
  rcases on with _ | (_ | _ | _ | _) <;> rcases off with _ | (_ | _ | _ | _) <;>
    simp_all [combine]

theorem combine_ne_timeout (on off : Option Answer) : combine on off ≠ .timeout := by
  unfold combine
  split
  · nofun
  split <;> nofun

theorem getD_ne_timeout {o : Option Answer} (h : o ≠ some .timeout) :
    o.getD .unknown ≠ .timeout := by
  rcases o with _ | b
  · nofun
  · exact fun heq => h (congrArg some heq)

theorem forced_conflict {f : Forced} (henable : f.mustEnable = true)
    (hdisable : f.mustDisable = true) : f = .conflict := by
  obtain ⟨enable, disable⟩ := f
  cases henable
  cases hdisable
  rfl

/-- A branch that was left out or has ended has visited its tree. -/
theorem EndsUnless.explored {leftOut : Bool} {m : Search Answer} {o : Option Answer}
    {tree : SearchTree} (h : EndsUnless leftOut m s o s') (hs : t.Remembers seen s)
    (hm : ∀ a, Ends m s a s' → Explored t tree seen s a s') :
    Explored t (if leftOut then .none else tree) seen s (o.getD .unknown) s' := by
  rcases h with ⟨rfl, rfl, rfl⟩ | ⟨rfl, b, rfl, hb⟩
  · exact explored_none hs nofun ⟨rfl, rfl, rfl⟩
  · exact hm b hb

/-- Deciding integrity constraints cuts rightly. Induction on the constraints. With the first one
on, the largest flags below the choice are those that the greedy decisions give, so the answer
`neq` refutes everything below the choice and the other branch may be skipped. With it off, the
greedy decisions have it off as well, or else it would have been tried before. -/
theorem Cuts.decideAll_from (hcap : Capped t later tree) (h : Cuts t later next tree)
    (es : List Constraint) :
    ∀ (earlier : List (Constraint × Bool)) (c : Choice) (seen : List Assignment)
      (s : SearchState) (a : Answer) (s' : SearchState),
      Ends (decideAll t next earlier es c) s a s' → t.Remembers seen s →
      Explored t (SearchTree.decideAll tree earlier es c) seen s a s' ∧
        (a = .neq → (∀ d, (tree d).Still s'.integrityReached) ∧
          t.Refuted (t.after (SearchTree.decideAll tree earlier es c) seen s)
            (t.cap c (c.greedy earlier es ++ later.map c.conforms))) := by
  induction es with
  | nil =>
    intro earlier c seen s a s' hends hs
    exact h c seen s a s' hends hs
  | cons e rest ih =>
    intro earlier c seen s a s' hends hs
    obtain ⟨hconflict, on, s₁, hon, hcases⟩ := decideAll_ends hends
    have hbound := hcap.decideAll_from (e :: rest) earlier c s.integrityReached
    -- The greedy flags of the two branches, seen from the choice.
    have hgreedy : ∀ flag, (!(c.forced earlier e).mustDisable) = flag →
        t.cap (c.decide flag) ((c.decide flag).greedy (earlier ++ [(e, flag)]) rest
          ++ later.map (c.decide flag).conforms)
          = t.cap c (c.greedy earlier (e :: rest) ++ later.map c.conforms) := by
      rintro flag rfl
      rw [Choice.greedy_decide, SearchTask.cap_decide]
      rfl
    have honExp := hon.explored hs fun b hb =>
      (ih (earlier ++ [(e, true)]) (c.decide true) seen s b s₁ hb hs).1
    rw [SearchTree.decideAll] at hbound ⊢
    rcases hcases with ⟨rfl, rfl, rfl⟩ | ⟨rfl, rfl, rfl⟩ | ⟨hneq, htime, off, hoff, rfl⟩
    · -- The queries differ with the constraint: the other branch is skipped.
      rcases hon with ⟨-, hnone, -⟩ | ⟨hdisable, b, hb, honEnds⟩
      · cases hnone
      cases hb
      obtain ⟨hstill, href⟩ :=
        (ih (earlier ++ [(e, true)]) (c.decide true) seen s .neq s' honEnds hs).2 rfl
      rw [hgreedy true (by rw [hdisable]; rfl)] at href
      simp only [hdisable, Bool.false_eq_true, if_false] at honExp hbound ⊢
      have hreached := honExp.reached (by decide)
      refine ⟨honExp.append (by decide)
        (explored_skip (honExp.remembers (by decide)) (by decide) ?_ ?_),
        fun _ => ⟨hstill, ?_⟩⟩
      · split
        · rfl
        · exact Still.decideAll hstill rest _ _
      · intro leaf hleaf
        rw [hreached] at hleaf
        exact href.of_subset (hbound leaf (mem_append_right _ hleaf))
      · rw [after_append hreached]
        exact href.mono subset_after
    · exact ⟨explored_timeout (honExp.timedOut rfl), fun h => by cases h⟩
    · have hgo := getD_ne_timeout htime
      have hs₁ := honExp.remembers hgo
      have hoffExp := hoff.explored hs₁ fun b hb =>
        (ih (earlier ++ [(e, false)]) (c.decide false) _ s₁ b s' hb hs₁).1
      by_cases hlate : off = some .timeout
      · rw [if_pos hlate]
        rw [hlate] at hoffExp
        exact ⟨explored_timeout (hoffExp.timedOut rfl), fun h => by cases h⟩
      rw [if_neg hlate]
      refine ⟨honExp.append hgo (hoffExp.of_answer (getD_ne_timeout hlate)
        (combine_ne_timeout on off)), fun hans => ?_⟩
      obtain ⟨rfl, hoffNeq⟩ := combine_eq_neq hneq htime hlate hans
      have hdisable : (c.forced earlier e).mustDisable = true := by
        rcases hon with ⟨hdisable, -⟩ | ⟨-, b, hb, -⟩
        · exact hdisable
        · cases hb
      rcases hoff with ⟨henable, -⟩ | ⟨henable, b, rfl, hoffEnds⟩
      · -- Both flags are forced out: the search would have ended with an error.
        exact absurd (forced_conflict henable hdisable) hconflict
      · obtain rfl : b = .neq := by simpa using hoffNeq
        obtain ⟨hstill, href⟩ :=
          (ih (earlier ++ [(e, false)]) (c.decide false) _ s₁ .neq s' hoffEnds hs₁).2 rfl
        rw [hgreedy false (by rw [hdisable]; rfl)] at href
        refine ⟨hstill, ?_⟩
        rw [after_append (honExp.reached hgo)]
        simpa only [henable, Bool.false_eq_true, if_false] using href

theorem Cuts.decideAll (hcap : Capped t later tree) (h : Cuts t later next tree)
    (es : List Constraint) :
    Cuts t (es ++ later) (Search.decideAll t next [] es) (SearchTree.decideAll tree [] es) := by
  intro c seen s a s' hends hs
  obtain ⟨hexp, hneq⟩ := h.decideAll_from hcap es [] c seen s a s' hends hs
  refine ⟨hexp, fun heq => ?_⟩
  obtain ⟨hstill, href⟩ := hneq heq
  rw [c.greedy_of_conforms fun x hx => absurd hx not_mem_nil, ← map_append] at href
  exact ⟨Still.decideAll hstill es [], href⟩

/-- What the check of the tables can do: go on, as the tree does, or answer `unknown` where the tree
has no choices. -/
theorem tableStage_ends (tree : Choice → SearchTree) (h : Ends (tableStage t next c) s a s') :
    (∃ s₁, Ends (next c) s₁ a s' ∧ s.SameMemory s₁ ∧
        SearchTree.tableStage t tree c s.integrityReached = tree c s.integrityReached) ∨
      (a = .unknown ∧ s.SameMemory s' ∧
        SearchTree.tableStage t tree c s.integrityReached
          = SearchTree.none s.integrityReached) := by
  unfold tableStage at h
  unfold SearchTree.tableStage
  split at h
  · next hskip =>
    rw [if_pos hskip]
    exact .inl ⟨s, h, ⟨rfl, rfl, rfl⟩, rfl⟩
  next hskip =>
  rw [if_neg hskip]
  simp only [ends_bind, ends_get, ends_modify, ends_question] at h
  obtain ⟨_, _, ⟨rfl, rfl⟩, _, s₁, rfl, q, _, ⟨hq, rfl⟩, h⟩ := h
  simp only [hq]
  cases q with
  | none =>
    obtain ⟨rfl, rfl⟩ := ends_pure.mp h
    exact .inr ⟨rfl, ⟨rfl, rfl, rfl⟩, rfl⟩
  | some q =>
    dsimp only at h ⊢
    split at h
    · next hwithin =>
      rw [if_pos hwithin]
      exact .inl ⟨_, h, ⟨rfl, rfl, rfl⟩, rfl⟩
    · next hwithin =>
      rw [if_neg hwithin]
      obtain ⟨rfl, rfl⟩ := ends_modify_pure.mp h
      exact .inr ⟨rfl, ⟨rfl, rfl, rfl⟩, rfl⟩

theorem Cuts.tableStage (h : Cuts t later next tree) :
    Cuts t later (tableStage t next) (SearchTree.tableStage t tree) := by
  intro c seen s a s' hends hs
  rcases tableStage_ends tree hends with
    ⟨s₁, hnext, hsame, htree⟩ | ⟨rfl, hsame, htree⟩
  · obtain ⟨hexp, hneq⟩ := h c seen s₁ a s' hnext (hs.of_eqs_neqs hsame.eqs hsame.neqs)
    have hexp := hexp.of_start hsame.reached
    refine ⟨hexp.of_tree htree, fun heq => ?_⟩
    obtain ⟨hstill, href⟩ := hneq heq
    refine ⟨Still.tableStage hstill, ?_⟩
    unfold SearchTask.after at href ⊢
    rwa [htree, ← hsame.reached]
  · have hnone : Explored t .none seen s .unknown s' := explored_none hs nofun hsame
    exact ⟨hnone.of_tree htree, nofun⟩

theorem Cuts.notNullStage (hcap : Capped t later tree) (htrue : ∀ d, (tree d).Still true)
    (h : Cuts t later next tree) :
    Cuts t (t.notNulls ++ later) (notNullStage t next) (SearchTree.notNullStage t tree) := by
  intro c seen s a s' hends hs
  unfold Search.notNullStage at hends
  obtain ⟨_, s₁, hmod, hends⟩ := ends_bind.mp hends
  obtain rfl := ends_modify.mp hmod
  obtain ⟨hexp, hneq⟩ := h.decideAll hcap t.notNulls c seen _ a s' hends (hs.of_eqs_neqs rfl rfl)
  refine ⟨⟨hexp.timedOut, hexp.reached, hexp.remembers⟩, fun heq => ⟨fun d => ?_, (hneq heq).2⟩⟩
  -- The bit is set from here on.
  have hset : s'.integrityReached = true := by
    rw [hexp.reached (heq ▸ nofun)]
    exact Still.decideAll htrue t.notNulls [] c
  rw [hset]
  exact Still.decideAll htrue t.notNulls [] d

end Integrity

end Search

end QueryRules
