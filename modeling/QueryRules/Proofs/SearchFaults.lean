import QueryRules.Proofs.IntegrityDecisions
import QueryRules.Proofs.PruningCompleteness

/-!
# QueryRules — a search has no internal faults

A search takes for granted that its stages fit together: there is a stage to go on to, the catalog
has a place for every pair of symbols that is made equal and for every symbol that is copied, and
earlier decisions never force an integrity constraint both ways. Each assumption is checked where it
is used, and a check that fails ends the search with a `Fault`.
-/

namespace QueryRules

open List

/-! ## Steps beside the answers -/

namespace SearchState

/-- The complete choices that were answered, in order, each with its answer. -/
def answered (s : SearchState) : List (Choice × Answer) :=
  s.trace.reverse.filterMap fun e =>
    match e with
    | .leaf c a => some (c, a)
    | _ => none

@[simp] theorem answered_leaf (s : SearchState) (c : Choice) (a : Answer) :
    (s.record (.leaf c a)).answered = s.answered ++ [(c, a)] := by
  simp [answered, record]

@[simp] theorem answered_asked (s : SearchState) (q : Question) :
    (s.record (.asked q)).answered = s.answered := by
  simp [answered, record]

/-- From `s` to `s'` nothing was answered, asked or remembered. -/
structure Aside (s s' : SearchState) : Prop where
  eqs : s'.eqs = s.eqs
  neqs : s'.neqs = s.neqs
  answered : s'.answered = s.answered
  questions : s'.questions = s.questions
  calls : s'.stats.oracleCalls = s.stats.oracleCalls

theorem aside_tablesCompared (s : SearchState) (flags : Assignment) :
    s.Aside (s.record (.tablesCompared flags)) where
  eqs := rfl
  neqs := rfl
  answered := by simp [SearchState.answered, record]
  questions := by simp [SearchState.questions, record]
  calls := rfl

end SearchState

namespace Search

variable {α β : Type} {P U T : SearchState → Prop} {Q R : α → SearchState → Prop}
  {E : SearchError → SearchState → Prop}

/-! ## Triples -/

/-- From the state `s` the part `m` fails with the error `e` in the state `s'`. -/
def Fails (m : Search α) (s : SearchState) (e : SearchError) (s' : SearchState) : Prop :=
  m.run.run s = (.error e, s')

theorem fails_bind {m : Search α} {f : α → Search β} {s s' : SearchState} {e : SearchError}
    (h : Fails (m >>= f) s e s') :
    Fails m s e s' ∨ ∃ a s₁, Ends m s a s₁ ∧ Fails (f a) s₁ e s' := by
  unfold Fails at h
  rw [ExceptT.run_bind, StateT.run_bind] at h
  rcases hm : m.run.run s with ⟨e' | a, s₁⟩
  · rw [hm] at h
    cases h
    exact .inl hm
  · rw [hm] at h
    exact .inr ⟨a, s₁, hm, h⟩

/-- From a state with `P` the part ends with a result and in a state with `Q`, or fails with an
error and in a state with `E`. -/
structure Yields (P : SearchState → Prop) (Q : α → SearchState → Prop)
    (E : SearchError → SearchState → Prop) (m : Search α) : Prop where
  ends : ∀ {s a s'}, P s → Ends m s a s' → Q a s'
  fails : ∀ {s e s'}, P s → Fails m s e s' → E e s'

theorem Yields.pre {m : Search α} (hm : Yields P Q E m) (h : ∀ s, U s → P s) :
    Yields U Q E m where
  ends hs := hm.ends (h _ hs)
  fails hs := hm.fails (h _ hs)

theorem Yields.post {m : Search α} (hm : Yields P Q E m) (h : ∀ a s, Q a s → R a s) :
    Yields P R E m where
  ends hs hends := h _ _ (hm.ends hs hends)
  fails := hm.fails

theorem yields_pure {a : α} (h : ∀ s, P s → Q a s) : Yields P Q E (pure a) where
  ends hs hends := by
    obtain ⟨rfl, rfl⟩ := ends_pure.mp hends
    exact h _ hs
  fails _ hfails := nomatch hfails

theorem yields_throw {e : SearchError} (h : ∀ s, P s → E e s) :
    Yields P Q E (throw e : Search α) where
  ends _ hends := absurd hends not_ends_throw
  fails hs hfails := by
    cases hfails
    exact h _ hs

theorem yields_get : Yields P (fun r s => r = s ∧ P s) E get where
  ends hs hends := by
    obtain ⟨rfl, rfl⟩ := ends_get.mp hends
    exact ⟨rfl, hs⟩
  fails _ hfails := nomatch hfails

theorem yields_modify {f : SearchState → SearchState} (h : ∀ s, P s → U (f s)) :
    Yields P (fun _ => U) E (modify f) where
  ends hs hends := ends_modify.mp hends ▸ h _ hs
  fails _ hfails := nomatch hfails

theorem Yields.bind {m : Search α} {f : α → Search β} {S : β → SearchState → Prop}
    (hm : Yields P Q E m) (hf : ∀ a, Yields (Q a) S E (f a)) : Yields P S E (m >>= f) where
  ends hs h := by
    obtain ⟨a, s₁, ha, hb⟩ := ends_bind.mp h
    exact (hf a).ends (hm.ends hs ha) hb
  fails hs h := by
    rcases fails_bind h with h | ⟨a, s₁, ha, hb⟩
    · exact hm.fails hs h
    · exact (hf a).fails (hm.ends hs ha) hb

theorem yields_question {t : SearchTask} {flags : Assignment}
    (h : ∀ e, t.question flags = .error e → ∀ s, P s → E e s) :
    Yields P (fun _ => P) E (question? t (t.rule flags)) where
  ends hs hends := (ends_question.mp hends).2 ▸ hs
  fails hs hfails := by
    unfold Fails at hfails
    rw [question_run, Prod.mk.injEq] at hfails
    exact hfails.2 ▸ h _ hfails.1 _ hs

/-- What holds after a part that may be left out. -/
def Unless (leftOut : Bool) (P : SearchState → Prop) (Q : α → SearchState → Prop) :
    Option α → SearchState → Prop
  | none, s => leftOut = true ∧ P s
  | some a, s => Q a s

theorem Yields.unless {leftOut : Bool} {m : Search α} (hm : leftOut = false → Yields P Q E m) :
    Yields P (Unless leftOut P Q) E (if leftOut = true then pure none else some <$> m) := by
  cases leftOut with
  | true => exact yields_pure fun _ hs => ⟨rfl, hs⟩
  | false =>
    rw [if_neg Bool.false_ne_true, map_eq_pure_bind]
    exact (hm rfl).bind fun _ => yields_pure fun _ hs => hs

/-- What holds after an answer: `T` if the time is up, and else `Q`. -/
def Goes (Q T : SearchState → Prop) : Answer → SearchState → Prop
  | .timeout => T
  | _ => Q

theorem goes_of_ne {Q : SearchState → Prop} {a : Answer} (h : a ≠ .timeout) : Goes Q T a = Q := by
  cases a with
  | timeout => exact absurd rfl h
  | _ => rfl

/-- The number of questions is not counted anew. -/
def Uncalled (f : SearchStats → SearchStats) : Prop :=
  ∀ x, (f x).oracleCalls = x.oracleCalls

/-! ## One lemma for each stage -/

section Stages

variable {t : SearchTask} {next : Choice → Search Answer} {kind : SymbolKind} {n : Nat}
  {Q : SearchState → Prop}

/-- The part goes on from choices with `n` decided integrity constraints: from a state with `P` to
one with `Q`, or with `T` if the time is up. -/
def Continues (n : Nat) (P Q T : SearchState → Prop) (E : SearchError → SearchState → Prop)
    (next : Choice → Search Answer) : Prop :=
  ∀ c, c.integrity.length = n → Yields P (Goes Q T) E (next c)

theorem yields_tryAllFrom {f : α → Search Answer} {as : List α}
    (h : ∀ a ∈ as, Yields P (Goes P T) E (f a)) :
    ∀ allNeq, Yields P (Goes P T) E (tryAllFrom f allNeq as) := by
  induction as with
  | nil => exact fun allNeq => yields_pure fun _ hs => by cases allNeq <;> exact hs
  | cons a as ih =>
    intro allNeq
    have hrest := ih fun b hb => h b (mem_cons_of_mem _ hb)
    rw [tryAllFrom]
    refine (h a mem_cons_self).bind fun answer => ?_
    cases answer with
    | timeout => exact yields_pure fun _ hs => hs
    | neq => exact hrest allNeq
    | eq | unknown => exact hrest false

theorem yields_tryAll {f : α → Search Answer} {as : List α}
    (h : ∀ a ∈ as, Yields P (Goes P T) E (f a)) : Yields P (Goes P T) E (tryAll f as) :=
  yields_tryAllFrom h true

theorem continues_drawAll (hnext : Continues n P P T E next) (lists : List (Symbol × List Symbol)) :
    Continues n P P T E (drawAll next lists) := by
  induction lists with
  | nil => exact hnext
  | cons l lists ih =>
    intro c hc
    obtain ⟨attrs, sources⟩ := l
    -- A single source is taken without trying.
    rcases sources with _ | ⟨source, _ | ⟨source', sources⟩⟩
    · exact yields_tryAll fun source _ => ih _ hc
    · exact ih _ hc
    · exact yields_tryAll fun source _ => ih _ hc

/-- A copy that is tried has its place, so this stage never fails. -/
theorem continues_copyAll {candidates : List Symbol} (hnext : Continues n P P T E next)
    {targets : List Symbol}
    (hplace : ∀ source ∈ candidates, ∀ target ∈ targets,
      (t.catalog.copyPlace? source target).isSome = true) :
    Continues n P P T E (copyAll t candidates next targets) := by
  induction targets with
  | nil => exact hnext
  | cons target targets ih =>
    intro c hc
    have hrest := ih fun source hs target' ht =>
      hplace source hs target' (mem_cons_of_mem _ ht)
    rw [copyAll]
    refine yields_tryAll fun source hsource => ?_
    have hfound := hplace source (mem_of_mem_filter hsource) target mem_cons_self
    have hplaced : (t.catalog.copyPlace? source target).isNone = false := by
      rw [← Option.not_isSome, hfound]
      rfl
    rw [hplaced]
    exact hrest _ hc

theorem continues_copyStage (kind : SymbolKind) (hnext : Continues n P P T E next) :
    Continues n P P T E (copyStage t kind next) :=
  continues_copyAll hnext fun _ hs _ ht => Catalog.isSome_copyPlace hs ht

theorem continues_outputStage (hcount : ∀ s f, Uncalled f → P s → P (s.count f))
    (hnext : Continues n P P T E next) : Continues n P P T E (outputStage t next) := by
  intro c hc
  unfold outputStage
  split
  · exact hnext c hc
  split
  · exact yields_pure fun _ hs => hs
  split
  · refine Yields.bind (yields_modify fun s hs => hcount s _ (fun _ => rfl) hs) fun _ => ?_
    exact yields_pure fun _ hs => hs
  · exact hnext c hc

/-- The walk over the partitions of a kind keeps what each of them keeps. -/
theorem yields_partitionFrom {symbols : List Symbol} {c : Choice} (hc : c.integrity.length = n)
    (hnext : Continues n P P T E next) (count : Nat) : ∀ p neqs allNeq,
      Yields P (Goes P T) E (partitionFrom kind symbols next c count p neqs allNeq) := by
  have hdone : ∀ {U : SearchState → Prop} {allNeq : Bool}, (∀ s, U s → P s) →
      Yields U (Goes P T) E (pure (if allNeq = true then .neq else .eq)) := by
    intro U allNeq h
    exact yields_pure fun s hs => by cases allNeq <;> exact h s hs
  induction count with
  | zero => exact fun _ _ _ => hdone fun _ hs => hs
  | succ count ih =>
    intro p neqs allNeq
    rw [partitionFrom]
    dsimp only
    rw [ite_bind_join]
    refine (Yields.unless fun _ => hnext (c.group symbols p) hc).bind fun answer => ?_
    -- Whatever the answer is, the rest is the next partition or nothing.
    cases p.next? with
    | none =>
      rcases answer with _ | (_ | _ | _ | _)
      · exact hdone fun _ hs => hs.2
      · exact hdone fun _ hs => hs
      · exact hdone fun _ hs => hs
      · exact hdone fun _ hs => hs
      · exact yields_pure fun _ hs => hs
    | some q =>
      rcases answer with _ | (_ | _ | _ | _)
      · exact (ih _ _ _).pre fun _ hs => hs.2
      · exact ih _ _ _
      · exact ih _ _ _
      · exact ih _ _ _
      · exact yields_pure fun _ hs => hs

theorem unplaced_eq_none (catalog : Catalog) (kind : SymbolKind) :
    unplaced? catalog (catalog.source.symbolsOf kind) = none := by
  unfold unplaced?
  rw [find?_eq_none]
  rintro ⟨a, b⟩ hpair hnone
  rw [Option.isNone_iff_eq_none] at hnone
  have hfound := Catalog.isSome_eqPlace hpair
  rw [hnone] at hfound
  cases hfound

theorem continues_partitionStage (kind : SymbolKind) (hnext : Continues n P P T E next) :
    Continues n P P T E (partitionStage t kind next) := by
  intro c hc
  unfold partitionStage
  dsimp only
  split
  · exact hnext c hc
  · rw [unplaced_eq_none]
    exact yields_partitionFrom hc hnext _ _ _ _

/-- Decisions that agree so far. Both branches go on with decisions that agree, and there is no
conflict to report; so one of them is taken, after which the state has `Q`. -/
theorem yields_decideAll {ckind : ConstraintKind} (hQ : ∀ s, Q s → P s) {es : List Constraint}
    (hkind : ∀ e ∈ es, e.kind = ckind) (hnext : Continues (n + es.length) P Q T E next) :
    ∀ {earlier : List (Constraint × Bool)} {c : Choice}, c.integrity.length = n →
      c.Agrees ckind earlier → Yields P (Goes Q T) E (decideAll t next earlier es c) := by
  induction es generalizing n with
  | nil => exact fun hc _ => hnext _ hc
  | cons e es ih =>
    intro earlier c hc hagrees
    have he := hkind e mem_cons_self
    have hconflict := hagrees.forced_ne_conflict he
    have hbranch : ∀ flag, Choice.Allows (c.forced earlier e) flag →
        Yields P (Goes Q T) E (decideAll t next (earlier ++ [(e, flag)]) es (c.decide flag)) := by
      intro flag hallow
      have hmore := hagrees.concat he hallow
      have hlength : (c.decide flag).integrity.length = n + 1 := by
        rw [← hc]
        exact length_append
      rw [length_cons, Nat.add_comm es.length, ← Nat.add_assoc] at hnext
      exact ih (fun e' he' => hkind e' (mem_cons_of_mem _ he')) hnext hlength
        ⟨hmore.kinds, hmore.conforms, hmore.alike, hmore.trivial⟩
    rw [decideAll]
    dsimp only
    rw [if_neg hconflict, ite_bind_join]
    refine (Yields.unless fun hdisable => hbranch true hdisable).bind fun on => ?_
    split
    · next hneq => exact yields_pure fun s hs => by rw [hneq] at hs; exact hs
    split
    · next htime => exact yields_pure fun s hs => by rw [htime] at hs; exact hs
    next htime =>
    -- Either the first branch was taken or the second one has to be.
    have hstart : ∀ s, Unless (c.forced earlier e).mustDisable P (Goes Q T) on s →
        ((c.forced earlier e).mustDisable = true ∧ P s) ∨ Q s := by
      intro s hs
      cases on with
      | none => exact .inl hs
      | some a =>
        have hgoes : Goes Q T a s := hs
        rw [goes_of_ne fun h => htime (congrArg some h)] at hgoes
        exact .inr hgoes
    rw [ite_bind_join]
    refine ((Yields.unless fun henable =>
      (hbranch false henable).pre fun s hs => ?_).pre hstart).bind fun off => ?_
    · exact hs.elim And.right (hQ s)
    split
    · next htime => exact yields_pure fun s hs => by rw [htime] at hs; exact hs
    · next hoff =>
      refine yields_pure fun s hs => ?_
      rw [goes_of_ne (combine_ne_timeout on off)]
      cases off with
      | none =>
        obtain ⟨henable, ⟨hdisable, -⟩ | hQs⟩ := hs
        · exact absurd (congrArg₂ Forced.mk henable hdisable) hconflict
        · exact hQs
      | some a =>
        have hgoes : Goes Q T a s := hs
        rwa [goes_of_ne fun h => hoff (congrArg some h)] at hgoes

/-- A stage that decides all constraints of one kind. -/
theorem continues_decideStage {ckind : ConstraintKind} (hQ : ∀ s, Q s → P s) {es : List Constraint}
    (hkind : ∀ e ∈ es, e.kind = ckind) (hnext : Continues (n + es.length) P Q T E next) :
    Continues n P Q T E (fun c => decideAll t next [] es c) :=
  fun c hc => yields_decideAll hQ hkind hnext hc (Choice.agrees_nil c ckind)

/-- The check of the tables fails only with its question. -/
theorem continues_tableStage (hcount : ∀ s f, Uncalled f → P s → P (s.count f))
    (hrecord : ∀ s c, P s → c.integrity.length = n →
      P (s.record (.tablesCompared (t.flags c s.integrityReached))))
    (hquestion : t.settings.skipTableCheck = false →
      ∀ flags e, t.question flags = .error e → ∀ s, P s → E e s)
    (hnext : Continues n P P T E next) : Continues n P P T E (tableStage t next) := by
  intro c hc
  unfold tableStage
  split
  · exact hnext c hc
  next hskip =>
  refine yields_get.bind fun r => ?_
  refine (yields_modify (U := P) fun s hs => ?_).bind fun _ => ?_
  · obtain ⟨rfl, hs⟩ := hs
    exact hrecord _ c hs hc
  refine (yields_question (hquestion (Bool.eq_false_iff.mpr hskip) _)).bind fun q => ?_
  split
  · exact yields_pure fun _ hs => hs
  split
  · exact hnext c hc
  · refine Yields.bind (yields_modify fun s hs => hcount s _ (fun _ => rfl) hs) fun _ => ?_
    exact yields_pure fun _ hs => hs

theorem continues_clockStage (hlook : ∀ s k, P s → P { s with looks := k })
    (hlate : ∀ s, P s → T { s with timedOut := true }) (hnext : Continues n P Q T E next) :
    Continues n P Q T E (clockStage t next) := by
  intro c hc
  unfold clockStage
  split
  · exact hnext c hc
  refine yields_get.bind fun r => ?_
  refine (yields_modify (U := P) fun s hs => hlook s _ hs.2).bind fun _ => ?_
  split
  · exact (yields_modify (U := T) hlate).bind fun _ => yields_pure fun _ hs => hs
  · exact hnext c hc

end Stages

/-- What holds in the course of a search: `P` as long as no constraint on nulls or references is
being decided, `L` from then on until a complete choice is answered, `D` when one was answered, `T`
when the time is up, and `E` when the search fails. -/
structure Course (t : SearchTask) (P L D T : SearchState → Prop)
    (E : SearchError → SearchState → Prop) : Prop where
  count : ∀ s f, Uncalled f → P s → P (s.count f)
  compare : ∀ s c, P s → c.integrity.length = t.uniques.length →
    P (s.record (.tablesCompared (t.flags c s.integrityReached)))
  reach : ∀ s, P s → L { s with integrityReached := true }
  look : ∀ s k, L s → L { s with looks := k }
  late : ∀ s, L s → T { s with timedOut := true }
  leaf : ∀ c, Yields L (Goes D T) E (leafStage t c)
  above : ∀ s, D s → P s
  below : ∀ s, D s → L s
  question : t.settings.skipTableCheck = false →
    ∀ flags e, t.question flags = .error e → ∀ s, P s → E e s

/-- **The course of a whole search.** -/
theorem Course.explore {catalog : Catalog} {settings : Settings} {oracle : Oracle}
    {clock : Nat → Nat} {L D : SearchState → Prop}
    (h : Course (.ofCatalog catalog settings oracle clock) P L D T E) :
    Yields P (Goes P T) E (explore (.ofCatalog catalog settings oracle clock)) := by
  rw [SearchTask.ofCatalog_eq] at h ⊢
  set t : SearchTask := ⟨catalog, settings, oracle, clock, catalog.structural,
    catalog.block .unique, catalog.block .notNull, catalog.block .reference⟩
  -- From the last stage up.
  have hlower : Continues (t.uniques.length + t.notNulls.length) L D T E
      (runFrom 11 [referenceStage t, clockStage t, fun _ => leafStage t]) :=
    continues_decideStage h.below (fun _ he => Catalog.kind_of_mem_block (b := .reference) he)
      (continues_clockStage h.look h.late fun c _ => h.leaf c)
  have hnotNull : Continues t.uniques.length P P T E
      (runFrom 10 [notNullStage t, referenceStage t, clockStage t, fun _ => leafStage t]) := by
    intro c hc
    refine ((yields_modify h.reach).bind fun _ => continues_decideStage h.below
      (fun _ he => Catalog.kind_of_mem_block (b := .notNull) he) hlower c hc).post fun a s hs => ?_
    cases a with
    | timeout => exact hs
    | _ => exact h.above s hs
  have hunique : Continues 0 P P T E (runFrom 8 ((stages t).drop 8)) := by
    refine continues_decideStage (fun _ hs => hs)
      (fun _ he => Catalog.kind_of_mem_block (b := .unique) he) ?_
    rw [Nat.zero_add]
    exact continues_tableStage h.count h.compare h.question hnotNull
  have hgroups := continues_partitionStage (t := t) .table (continues_partitionStage (t := t) .attrs
    (continues_partitionStage (t := t) .pred hunique))
  exact continues_drawAll (continues_copyStage .table (continues_copyStage .attrs
    (continues_copyStage .pred (continues_outputStage h.count hgroups)))) _ Choice.none rfl

/-- Steps beside the answers leave the property alone. -/
def Stable (P : SearchState → Prop) : Prop :=
  ∀ {s s'}, SearchState.Aside s s' → P s → P s'

/-- From a state with `P` the part ends in such a state or fails with an error in `F`. -/
def Keeps (P : SearchState → Prop) (F : SearchError → Prop) (m : Search α) : Prop :=
  Yields P (fun _ => P) (fun e _ => F e) m

/-- **The whole search keeps what answering a complete choice keeps.** -/
theorem explore_keeps {catalog : Catalog} {settings : Settings} {oracle : Oracle}
    {clock : Nat → Nat} {F : SearchError → Prop} (hP : Stable P)
    (hquestion : settings.skipTableCheck = false → ∀ flags e,
      (SearchTask.ofCatalog catalog settings oracle clock).question flags = .error e → F e)
    (hleaf : ∀ c, Keeps P F (leafStage (.ofCatalog catalog settings oracle clock) c)) :
    Keeps P F (explore (.ofCatalog catalog settings oracle clock)) := by
  have hgoes : ∀ {a : Answer} {s}, Goes P P a s ↔ P s := fun {a s} => by cases a <;> rfl
  have hcourse : Course (.ofCatalog catalog settings oracle clock) P P P P fun e _ => F e :=
    { count := fun s _ hf => hP ⟨rfl, rfl, rfl, rfl, hf s.stats⟩
      compare := fun s _ hs _ => hP (s.aside_tablesCompared _) hs
      reach := fun _ => hP ⟨rfl, rfl, rfl, rfl, rfl⟩
      look := fun _ _ => hP ⟨rfl, rfl, rfl, rfl, rfl⟩
      late := fun _ => hP ⟨rfl, rfl, rfl, rfl, rfl⟩
      leaf := fun c => (hleaf c).post fun _ _ => hgoes.mpr
      above := fun _ hs => hs
      below := fun _ hs => hs
      question := fun hskip flags e he _ _ => hquestion hskip flags e he }
  exact hcourse.explore.post fun _ _ => hgoes.mp

/-- Making a question fails for reasons that lie in the queries. -/
theorem question_ne_conflict {t : SearchTask} {flags : Assignment} {e : SearchError}
    (h : t.question flags = .error e) (fault : Fault) : e ≠ .conflict fault := by
  rintro rfl
  unfold SearchTask.question question? at h
  repeat' split at h
  all_goals cases h

/-- Answering a complete choice counts, remembers and asks; it fails with a question that cannot be
made or with the oracle. -/
theorem yields_answerLeaf {t : SearchTask} (hcount : ∀ s f, P s → P (s.count f))
    (heq : ∀ s flags, P s → P (s.rememberEq flags))
    (hneq : ∀ s flags, P s → P (s.rememberNeq flags))
    (hasked : ∀ s q, P s → P (s.record (.asked q)))
    (hquestion : ∀ flags e, t.question flags = .error e → ∀ s, P s → E e s)
    (horacle : ∀ e s, P s → E (.oracle e) s) (c : Choice) :
    Yields P (fun _ => P) E (answerLeaf t c) := by
  have hpure : ∀ answer : Answer, Yields P (fun _ => P) E (pure answer) :=
    fun _ => yields_pure fun _ hs => hs
  have hmodify : ∀ {f : SearchState → SearchState} {m : Search Answer}, (∀ s, P s → P (f s)) →
      Yields P (fun _ => P) E m → Yields P (fun _ => P) E (modify f >>= fun _ => m) :=
    fun hf hm => (yields_modify hf).bind fun _ => hm
  refine hmodify (fun s => hcount s _) (yields_get.bind fun s => Yields.pre ?_ fun _ => And.right)
  -- A dry run, a known `eq`, a known `neq`.
  split
  · exact hmodify (fun s => heq s _) (hpure _)
  split
  · exact hmodify (fun s => hcount s _) (hpure _)
  split
  · exact hmodify (fun s => hcount s _) (hpure _)
  refine (yields_question (hquestion _)).bind fun q => ?_
  split
  · exact hpure _
  refine hmodify (fun s => hasked s _) (hmodify (fun s => hcount s _) ?_)
  split
  · exact yields_throw (horacle _)
  · exact hmodify (fun s => heq s _) (hpure _)
  · exact hmodify (fun s => hneq s _) (hpure _)
  · exact hpure _

/-- Neither does answering a complete choice report a fault. -/
theorem keeps_leafStage_ne_conflict (t : SearchTask) (c : Choice) :
    Keeps (fun _ => True) (fun e => ∀ fault, e ≠ .conflict fault) (leafStage t c) := by
  have hanswer : Keeps (fun _ => True) (fun e => ∀ fault, e ≠ .conflict fault) (answerLeaf t c) :=
    yields_answerLeaf (fun _ _ _ => trivial) (fun _ _ _ => trivial) (fun _ _ _ => trivial)
      (fun _ _ _ => trivial) (fun _ _ he _ _ => question_ne_conflict he) (fun _ _ _ _ => nofun) c
  exact Yields.bind hanswer fun _ => Yields.bind (yields_modify (U := fun _ => True)
    fun _ _ => trivial) fun _ => yields_pure fun _ _ => trivial

end Search

/-! ## The result of a search -/

namespace Catalog

variable {catalog : Catalog} {settings : Settings} {oracle : Oracle} {clock : Nat → Nat}

theorem search_of_ends {a : Answer} {s : SearchState}
    (h : Search.Ends (Search.explore (.ofCatalog catalog settings oracle clock)) .initial a s) :
    catalog.search settings oracle clock =
      ⟨.ok ⟨s.eqs.map catalog.rule, s.timedOut, s.stats⟩, s⟩ := by
  unfold Search.Ends at h
  unfold Catalog.search
  dsimp only
  rw [h]

/-- The final state of a search is the one in which going through all choices ends or fails. -/
theorem final_search (catalog : Catalog) (settings : Settings) (oracle : Oracle)
    (clock : Nat → Nat) : (catalog.search settings oracle clock).final =
      ((Search.explore (.ofCatalog catalog settings oracle clock)).run.run .initial).2 := by
  unfold Catalog.search
  dsimp only
  rcases (Search.explore (.ofCatalog catalog settings oracle clock)).run.run .initial with
    ⟨e | a, s⟩ <;> rfl

theorem fails_of_search {e : SearchError}
    (h : (catalog.search settings oracle clock).result = .error e) :
    Search.Fails (Search.explore (.ofCatalog catalog settings oracle clock)) .initial e
      (catalog.search settings oracle clock).final := by
  rcases hrun : (Search.explore (.ofCatalog catalog settings oracle clock)).run.run
    SearchState.initial with ⟨e' | a, s⟩
  · unfold Catalog.search at h ⊢
    dsimp only at h ⊢
    rw [hrun] at h ⊢
    cases h
    exact hrun
  · rw [search_of_ends hrun] at h
    cases h

/-- A search that answers has run to the end of its exploration. -/
theorem ends_of_search {outcome : SearchOutcome}
    (h : (catalog.search settings oracle clock).result = .ok outcome) :
    (∃ a, Search.Ends (Search.explore (.ofCatalog catalog settings oracle clock)) .initial a
        (catalog.search settings oracle clock).final) ∧
      outcome.rules = (catalog.search settings oracle clock).final.eqs.map catalog.rule := by
  rcases hrun : (Search.explore (.ofCatalog catalog settings oracle clock)).run.run
    SearchState.initial with ⟨e | a, s⟩
  · unfold Catalog.search at h
    dsimp only at h
    rw [hrun] at h
    cases h
  · rw [search_of_ends hrun] at h ⊢
    cases h
    exact ⟨⟨a, hrun⟩, rfl⟩

end Catalog

/-- **A search never reports a fault of its own.** Whatever the templates, the settings, the oracle
and the clock are: the search always has a next stage to go on to, finds the place of every pair of
symbols in the catalog, and never sees contradicting demands on an integrity constraint. -/
theorem Catalog.search_reports_no_fault (catalog : Catalog) (settings : Settings) (oracle : Oracle)
    (clock : Nat → Nat) (fault : Fault) :
    (catalog.search settings oracle clock).result ≠ .error (.conflict fault) := by
  intro hresult
  have hkeeps : Search.Keeps (fun _ => True) (fun e => ∀ fault, e ≠ .conflict fault)
      (Search.explore (.ofCatalog catalog settings oracle clock)) :=
    Search.explore_keeps (fun _ _ => trivial) (fun _ _ _ he => Search.question_ne_conflict he)
      (Search.keeps_leafStage_ne_conflict _)
  exact hkeeps.fails trivial (fails_of_search hresult) fault rfl

end QueryRules
