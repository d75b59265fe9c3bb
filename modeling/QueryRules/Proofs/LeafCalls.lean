import QueryRules.Proofs.WellFormedAssignments

/-!
# QueryRules — where a search calls its last stage

The stages before the last one only choose where to go on. So a search is a program over its last
stage, and its text alone says where the last stage may be called and in which order, whatever the
settings, the oracle and the clock are, and whether or not the search fails.
-/

namespace QueryRules

open List

theorem SearchState.aside_refl (s : SearchState) : s.Aside s :=
  ⟨rfl, rfl, rfl, rfl, rfl⟩

namespace Search

variable {α β : Type}

/-! ## Programs over the last stage -/

/-- The part answers, asks and remembers nothing. -/
def Quiet (m : Search α) : Prop :=
  ∀ s : SearchState, s.Aside (m.run.run s).2

theorem quiet_pure (a : α) : Quiet (pure a) :=
  SearchState.aside_refl

theorem quiet_get : Quiet get :=
  SearchState.aside_refl

theorem quiet_question (t : SearchTask) (flags : Assignment) :
    Quiet (question? t (t.rule flags)) := by
  intro s
  rw [question_run]
  exact s.aside_refl

/-- The part, as a function of the last stage, calls it at some of the choices, in their order. -/
inductive Calls : {α : Type} → ((Choice → Search Answer) → Search α) → List Choice → Prop
  | quiet {α : Type} {m : Search α} (h : Quiet m) : Calls (fun _ => m) []
  | call (c : Choice) : Calls (fun last => last c) [c]
  | bind {α β : Type} {m : (Choice → Search Answer) → Search α}
      {f : (Choice → Search Answer) → α → Search β} {xs ys : List Choice}
      (hm : Calls m xs) (hf : ∀ a, Calls (fun last => f last a) ys) :
      Calls (fun last => m last >>= f last) (xs ++ ys)
  | weaken {α : Type} {m : (Choice → Search Answer) → Search α} {xs ys : List Choice}
      (hm : Calls m xs) (hsub : xs.Sublist ys) : Calls m ys

namespace Calls

variable {m : (Choice → Search Answer) → Search α} {choices xs ys : List Choice}

/-- A part that does not call the last stage. -/
theorem silent {m : Search α} (h : Quiet m) (choices : List Choice) :
    Calls (fun _ => m) choices :=
  (quiet h).weaken (nil_sublist _)

/-- A part that does not call the last stage, and then one that may. -/
theorem after {m : Search α} {f : (Choice → Search Answer) → α → Search β} (h : Quiet m)
    (hf : ∀ a, Calls (fun last => f last a) choices) :
    Calls (fun last => m >>= f last) choices :=
  Calls.bind (Calls.quiet h) hf

/-- A part that may be left out. -/
theorem optional {leftOut : Bool} (hm : leftOut = false → Calls m choices) :
    Calls (fun last => if leftOut = true then pure none else some <$> m last) choices := by
  cases leftOut with
  | true => exact silent (quiet_pure none) choices
  | false =>
    simp only [Bool.false_eq_true, if_false, map_eq_pure_bind]
    have hbind := (hm rfl).bind fun a => silent (quiet_pure (some a)) []
    rwa [append_nil] at hbind

/-- Last stages that agree on the choices make no difference. -/
theorem congr (h : Calls m choices) {last last' : Choice → Search Answer}
    (heq : ∀ c ∈ choices, last c = last' c) : m last = m last' := by
  induction h with
  | quiet => rfl
  | call c => exact heq c mem_cons_self
  | bind hm hf ihm ihf =>
    dsimp only
    rw [ihm fun c hc => heq c (mem_append_left _ hc)]
    refine congrArg _ (funext fun a => ?_)
    exact ihf a fun c hc => heq c (mem_append_right _ hc)
  | weaken hm hsub ih => exact ih fun c hc => heq c (hsub.subset hc)

/-- What the calls leave behind, if steps beside them leave nothing behind: `R` says what a list of
calls does to the state. Induction on the program; calls made one after the other add up. -/
theorem run {R : List Choice → SearchState → SearchState → Prop}
    (haside : ∀ {s s'}, SearchState.Aside s s' → R [] s s')
    (htrans : ∀ {xs ys s s₁ s₂}, R xs s s₁ → R ys s₁ s₂ → R (xs ++ ys) s s₂)
    {last : Choice → Search Answer} (hlast : ∀ c s, R [c] s ((last c).run.run s).2)
    (h : Calls m choices) :
    ∀ s, ∃ called, called.Sublist choices ∧ R called s ((m last).run.run s).2 := by
  induction h with
  | quiet h => exact fun s => ⟨[], .refl _, haside (h s)⟩
  | call c => exact fun s => ⟨[c], .refl _, hlast c s⟩
  | @bind _ _ m f xs ys hm hf ihm ihf =>
    intro s
    obtain ⟨called, hsub, hcalled⟩ := ihm s
    dsimp only
    rw [ExceptT.run_bind, StateT.run_bind]
    rcases hrun : (m last).run.run s with ⟨e | a, s₁⟩
    · -- The rest is not run.
      rw [hrun] at hcalled
      exact ⟨called, hsub.trans (sublist_append_left _ _), hcalled⟩
    · obtain ⟨called', hsub', hcalled'⟩ := ihf a s₁
      rw [hrun] at hcalled
      exact ⟨called ++ called', hsub.append hsub', htrans hcalled hcalled'⟩
  | weaken hm hsub ih =>
    intro s
    obtain ⟨called, hcalled, hrun⟩ := ih s
    exact ⟨called, hcalled.trans hsub, hrun⟩

end Calls

/-! ## One lemma for each stage -/

section Stages

variable {t : SearchTask} {next : (Choice → Search Answer) → Choice → Search Answer}
  {kind : SymbolKind}

theorem calls_tryAllFrom {f : (Choice → Search Answer) → α → Search Answer}
    {below : α → List Choice} {as : List α} (h : ∀ a ∈ as, Calls (fun last => f last a) (below a)) :
    ∀ allNeq, Calls (fun last => tryAllFrom (f last) allNeq as) (as.flatMap below) := by
  induction as with
  | nil => exact fun _ => .quiet (quiet_pure _)
  | cons a as ih =>
    intro allNeq
    have hrest := ih fun b hb => h b (mem_cons_of_mem _ hb)
    simp only [tryAllFrom]
    refine Calls.bind (h a mem_cons_self) fun answer => ?_
    cases answer with
    | timeout => exact .silent (quiet_pure _) _
    | neq => exact hrest allNeq
    | eq | unknown => exact hrest false

/-! ### Checks -/

theorem calls_outputStage {c : Choice} {choices : List Choice}
    (hnext : Calls (fun last => next last c) choices) :
    Calls (fun last => outputStage t (next last) c) choices := by
  unfold outputStage
  split
  · exact hnext
  split
  · exact .silent (quiet_pure _) _
  split
  · exact .after (fun _ => ⟨rfl, rfl, rfl, rfl, rfl⟩) fun _ => .silent (quiet_pure _) _
  · exact hnext

/-- The check of the tables calls nothing of its own. -/
theorem calls_tableStage {c : Choice} {choices : List Choice}
    (hnext : Calls (fun last => next last c) choices) :
    Calls (fun last => tableStage t (next last) c) choices := by
  unfold tableStage
  split
  · exact hnext
  refine .after quiet_get fun s => ?_
  refine .after (fun s => s.aside_tablesCompared _) fun _ => ?_
  refine .after (quiet_question t _) fun q => ?_
  split
  · exact .silent (quiet_pure _) _
  split
  · exact hnext
  · exact .after (fun _ => ⟨rfl, rfl, rfl, rfl, rfl⟩) fun _ => .silent (quiet_pure _) _

theorem calls_clockStage {c : Choice} {choices : List Choice}
    (hnext : Calls (fun last => next last c) choices) :
    Calls (fun last => clockStage t (next last) c) choices := by
  unfold clockStage
  split
  · exact hnext
  refine .after quiet_get fun s => ?_
  refine .after (fun _ => ⟨rfl, rfl, rfl, rfl, rfl⟩) fun _ => ?_
  split
  · exact .after (fun _ => ⟨rfl, rfl, rfl, rfl, rfl⟩) fun _ => .silent (quiet_pure _) _
  · exact hnext

/-! ### Partitions -/

section Partitions

variable {symbols : List Symbol} {c : Choice} {below : Partition → List Choice}
  (hnext : ∀ p, conflicts kind c symbols p = false →
    Calls (fun last => next last (c.group symbols p)) (below p))

include hnext in
/-- The first of some partitions. If it is in conflict it is left out; it may be left out for other
reasons. -/
theorem calls_firstPartition {p : Partition} {rest : List Partition} {leftOut : Bool}
    (hfree : leftOut = false → conflicts kind c symbols p = false)
    {f : (Choice → Search Answer) → Option Answer → Search Answer}
    (hf : ∀ answer, Calls (fun last => f last answer)
      ((rest.filter fun q => !conflicts kind c symbols q).flatMap below)) :
    Calls (fun last =>
        (if leftOut = true then pure none else some <$> next last (c.group symbols p)) >>= f last)
      (((p :: rest).filter fun q => !conflicts kind c symbols q).flatMap below) := by
  cases hp : conflicts kind c symbols p with
  | true =>
    rw [filter_cons_of_neg (by rw [hp]; decide)]
    have hskip : Calls (fun last =>
        if leftOut = true then pure none else some <$> next last (c.group symbols p)) [] := by
      refine Calls.optional fun hout => ?_
      rw [hfree hout] at hp
      cases hp
    exact hskip.bind hf
  | false =>
    rw [filter_cons_of_pos (by rw [hp]; rfl)]
    exact Calls.bind (Calls.optional fun _ => hnext p hp) hf

include hnext in
/-- Partitions are called in their order. Those that are left out because of earlier answers make
the calls fewer. -/
theorem calls_partitionFrom (count : Nat) : ∀ p neqs allNeq,
    Calls (fun last => partitionFrom kind symbols (next last) c count p neqs allNeq)
      (((Partition.visitFrom count p).filter fun q => !conflicts kind c symbols q).flatMap
        below) := by
  induction count with
  | zero => exact fun _ _ _ => .quiet (quiet_pure _)
  | succ count ih =>
    intro p neqs allNeq
    rw [Partition.visitFrom]
    simp only [partitionFrom, ite_bind_join]
    cases hq : p.next? with
    | none =>
      refine calls_firstPartition hnext (fun hout => (Bool.or_eq_false_iff.mp hout).1)
        fun answer => ?_
      rcases answer with _ | (_ | _ | _ | _) <;> exact .quiet (quiet_pure _)
    | some q =>
      refine calls_firstPartition hnext (fun hout => (Bool.or_eq_false_iff.mp hout).1)
        fun answer => ?_
      -- Only a timeout ends the walk early.
      rcases answer with _ | (_ | _ | _ | _)
      · exact ih q _ _
      · exact ih q _ _
      · exact ih q _ _
      · exact ih q _ _
      · exact .silent (quiet_pure _) _

end Partitions

/-! ### Decisions -/

/-- One decision calls in its branches, the one with the constraint first. A branch may be left out
because of the answer of the other one. -/
theorem calls_decide {earlier : List (Constraint × Bool)} {e : Constraint} {es : List Constraint}
    {c : Choice} {on off : List Choice} (hfree : c.forced earlier e ≠ .conflict)
    (hon : (c.forced earlier e).mustDisable = false →
      Calls (fun last => decideAll t (next last) (earlier ++ [(e, true)]) es (c.decide true)) on)
    (hoff : (c.forced earlier e).mustEnable = false →
      Calls (fun last => decideAll t (next last) (earlier ++ [(e, false)]) es (c.decide false))
        off) :
    Calls (fun last => decideAll t (next last) earlier (e :: es) c)
      ((if (c.forced earlier e).mustDisable then [] else on)
        ++ (if (c.forced earlier e).mustEnable then [] else off)) := by
  simp only [decideAll, if_neg hfree, ite_bind_join]
  refine Calls.bind (Calls.optional fun hout => ?_) fun answer => ?_
  · rw [hout]
    exact hon hout
  split
  · exact .silent (quiet_pure _) _
  split
  · exact .silent (quiet_pure _) _
  rw [← append_nil (if (c.forced earlier e).mustEnable = true then _ else _)]
  refine Calls.bind (Calls.optional fun hout => ?_) fun answer' => ?_
  · rw [hout]
    exact hoff hout
  · split <;> exact .quiet (quiet_pure _)

theorem traversal_calls (t : SearchTask) : Traversal t Calls Calls where
  leaf c := calls_clockStage (.call c)
  decide := calls_decide
  compare hnext := calls_tableStage (.after (fun _ => ⟨rfl, rfl, rfl, rfl, rfl⟩) fun _ => hnext)
  partition hnext _ := calls_partitionFrom hnext _ _ _ _
  output := calls_outputStage
  tryAll hall := calls_tryAllFrom hall true

end Stages

/-! ## Answering a complete choice -/

/-- The last stage records the answer of its choice, unless it fails. -/
theorem answered_leafStage (t : SearchTask) (c : Choice) (s : SearchState) :
    (((leafStage t c).run.run s).2).answered = s.answered ∨
      ∃ a, (((leafStage t c).run.run s).2).answered = s.answered ++ [(c, a)] := by
  have hanswer : Yields (fun s₁ => s₁.answered = s.answered) (fun _ s₁ => s₁.answered = s.answered)
      (fun _ s₁ => s₁.answered = s.answered) (answerLeaf t c) :=
    yields_answerLeaf (fun _ _ hs => hs) (fun _ _ hs => hs) (fun _ _ hs => hs)
      (fun s₁ q hs => (s₁.answered_asked q).trans hs) (fun _ _ _ _ hs => hs) (fun _ _ hs => hs) c
  unfold leafStage
  rw [ExceptT.run_bind, StateT.run_bind]
  rcases hrun : (answerLeaf t c).run.run s with ⟨e | a, s₁⟩
  · exact .inl (hanswer.fails rfl hrun)
  · refine .inr ⟨a, ?_⟩
    rw [← hanswer.ends rfl hrun]
    exact s₁.answered_leaf c a

/-! ## The whole search -/

/-- **The search calls its last stage at complete choices only**, in the order in which they are
listed. -/
theorem exploreWith_calls (catalog : Catalog) (settings : Settings) (oracle : Oracle)
    (clock : Nat → Nat) :
    Calls (exploreWith (.ofCatalog catalog settings oracle clock)) catalog.completeChoices :=
  (traversal_calls _).exploreWith

end Search

/-! ## The choices that a search comes to -/

namespace Catalog

variable {catalog : Catalog} {settings : Settings} {oracle : Oracle} {clock : Nat → Nat}
  {c : Choice}

/-- The search comes to the complete choice `c`: it makes a difference what the last stage does
there. This includes a choice at which the search fails. -/
def Reaches (catalog : Catalog) (settings : Settings) (oracle : Oracle) (clock : Nat → Nat)
    (c : Choice) : Prop :=
  ∃ last : Choice → Search Answer,
    (∀ d, d ≠ c → last d = Search.leafStage (.ofCatalog catalog settings oracle clock) d) ∧
    (Search.exploreWith (.ofCatalog catalog settings oracle clock) last).run.run .initial ≠
      (Search.explore (.ofCatalog catalog settings oracle clock)).run.run .initial

theorem mem_completeChoices_of_reaches (h : catalog.Reaches settings oracle clock c) :
    c ∈ catalog.completeChoices := by
  obtain ⟨last, hlast, hne⟩ := h
  by_contra hc
  apply hne
  rw [← Search.exploreWith_leafStage]
  rw [(Search.exploreWith_calls catalog settings oracle clock).congr fun d hd => ?_]
  apply hlast
  rintro rfl
  exact hc hd

/-- **A search comes to well-formed assignments only**, whatever the settings, the oracle and the
clock are. -/
theorem wellFormed_of_reaches (h : catalog.WellBound)
    (hc : catalog.Reaches settings oracle clock c) :
    catalog.WellFormed ((SearchTask.ofCatalog catalog settings oracle clock).flags c false) := by
  obtain ⟨x, hx, hcomplete, rfl⟩ :=
    (mem_completeChoices h).mp (mem_completeChoices_of_reaches hc)
  rw [Parts.flags_eq]
  exact (Parts.isComplete_iff h hx).mp hcomplete

/-- The search comes to every choice that it answers: a last stage that passes over the choice
leaves no record of it. -/
theorem reaches_of_answered {answer : Answer}
    (h : (c, answer) ∈ (catalog.search settings oracle clock).final.answered) :
    catalog.Reaches settings oracle clock c := by
  set t := SearchTask.ofCatalog catalog settings oracle clock with ht
  set last := fun d => if d = c then pure .eq else Search.leafStage t d with hlast
  refine ⟨last, fun d hd => if_neg hd, fun heq => ?_⟩
  have hfinal : ∃ z ∈ ((Search.explore t).run.run .initial).2.answered, z.1 = c := by
    rw [final_search] at h
    exact ⟨_, h, rfl⟩
  -- Passing over `c` records nothing, and at another choice that other choice is recorded.
  have hstep : ∀ d s, (∃ z ∈ (((last d).run.run s).2).answered, z.1 = c) →
      ∃ z ∈ s.answered, z.1 = c := by
    intro d s hz
    rw [hlast] at hz
    dsimp only at hz
    split at hz
    · exact hz
    next hd =>
    obtain ⟨z, hz, hzc⟩ := hz
    rcases Search.answered_leafStage t d s with hsame | ⟨a, hmore⟩
    · exact ⟨z, hsame ▸ hz, hzc⟩
    · rw [hmore, mem_append, mem_singleton] at hz
      rcases hz with hz | rfl
      · exact ⟨z, hz, hzc⟩
      · exact absurd hzc hd
  obtain ⟨-, -, hpass⟩ := (Search.exploreWith_calls catalog settings oracle clock).run
    (R := fun _ s s' => (∃ z ∈ s'.answered, z.1 = c) → ∃ z ∈ s.answered, z.1 = c)
    (fun haside hz => haside.answered ▸ hz) (fun h₁ h₂ hz => h₁ (h₂ hz)) hstep .initial
  rw [← heq] at hfinal
  obtain ⟨z, hz, -⟩ := hpass hfinal
  cases hz

end Catalog

end QueryRules
