import Mathlib.Data.List.Nodup
import QueryRules.Proofs.SearchTree

/-!
# QueryRules — what a search remembers

A search that ends without an error is taken apart into its steps, and what its state says about
the assignments seen so far is kept as an invariant.
-/

namespace QueryRules

open List Assignment

variable {α β : Type}

/-! ## Runs without an error -/

namespace Search

/-- From the state `s` the part `m` ends with the result `a` in the state `s'`. -/
def Ends (m : Search α) (s : SearchState) (a : α) (s' : SearchState) : Prop :=
  m.run.run s = (.ok a, s')

theorem ends_pure {a b : α} {s s' : SearchState} :
    Ends (pure a) s b s' ↔ b = a ∧ s' = s := by
  show ((Except.ok a, s) : Except SearchError α × SearchState) = (.ok b, s') ↔ _
  constructor
  · intro h
    cases h
    exact ⟨rfl, rfl⟩
  · rintro ⟨rfl, rfl⟩
    rfl

/-- A sequence ends where its second part does. -/
theorem ends_bind {m : Search α} {f : α → Search β} {s s' : SearchState} {b : β} :
    Ends (m >>= f) s b s' ↔ ∃ a s₁, Ends m s a s₁ ∧ Ends (f a) s₁ b s' := by
  unfold Ends
  rw [ExceptT.run_bind, StateT.run_bind]
  rcases h : m.run.run s with ⟨e | a, s₁⟩
  · constructor
    · intro hb
      cases hb
    · rintro ⟨a, s₂, ha, -⟩
      cases ha
  · constructor
    · intro hb
      exact ⟨a, s₁, rfl, hb⟩
    · rintro ⟨a', s₂, ha, hb⟩
      cases ha
      exact hb

theorem ends_map {m : Search α} {f : α → β} {s s' : SearchState} {b : β} :
    Ends (f <$> m) s b s' ↔ ∃ a, Ends m s a s' ∧ b = f a := by
  rw [map_eq_pure_bind, ends_bind]
  simp only [ends_pure]
  constructor
  · rintro ⟨a, s₁, ha, rfl, rfl⟩
    exact ⟨a, ha, rfl⟩
  · rintro ⟨a, ha, rfl⟩
    exact ⟨a, s', ha, rfl, rfl⟩

theorem ends_get {s s' r : SearchState} : Ends get s r s' ↔ s = r ∧ s = s' := by
  rw [eq_comm (a := s), eq_comm (a := s)]
  exact ends_pure

theorem ends_modify {f : SearchState → SearchState} {s s' : SearchState} {u : PUnit} :
    Ends (modify f) s u s' ↔ s' = f s := by
  show ((Except.ok PUnit.unit, f s) : Except SearchError PUnit × SearchState) = (.ok u, s') ↔ _
  constructor
  · intro h
    cases h
    rfl
  · rintro rfl
    rfl

theorem ends_modify_pure {f : SearchState → SearchState} {a b : α} {s s' : SearchState} :
    Ends (modify f >>= fun _ => pure a) s b s' ↔ b = a ∧ s' = f s := by
  simp only [ends_bind, ends_modify, ends_pure]
  constructor
  · rintro ⟨-, s₁, rfl, rfl, rfl⟩
    exact ⟨rfl, rfl⟩
  · rintro ⟨rfl, rfl⟩
    exact ⟨.unit, _, rfl, rfl, rfl⟩

theorem not_ends_throw {e : SearchError} {s s' : SearchState} {a : α} :
    ¬ Ends (throw e) s a s' := by
  intro h
  cases h

/-- Making a question neither reads nor changes the state. -/
theorem question_run (t : SearchTask) (flags : Assignment) (s : SearchState) :
    (question? t (t.rule flags)).run.run s = (t.question flags, s) := by
  unfold SearchTask.question question?
  repeat' split
  all_goals rfl

theorem ends_question {t : SearchTask} {flags : Assignment} {s s' : SearchState}
    {q : Option Question} :
    Ends (question? t (t.rule flags)) s q s' ↔ t.question flags = .ok q ∧ s' = s := by
  unfold Ends
  rw [question_run, Prod.mk.injEq, eq_comm (a := s)]

end Search

/-! ## Inclusion of assignments -/

namespace Assignment

theorem subset_refl (a : Assignment) : subset a a = true := by
  induction a with
  | nil => rfl
  | cons x xs ih => cases x <;> simpa [subset] using ih

/-- Implication of assignments is transitive. -/
theorem subset_trans {a b c : Assignment} (hab : subset a b = true) (hbc : subset b c = true) :
    subset a c = true := by
  induction a generalizing b c with
  | nil => cases b <;> cases c <;> simp_all [subset]
  | cons x xs ih =>
    cases b with
    | nil => simp [subset] at hab
    | cons y ys =>
      cases c with
      | nil => simp [subset] at hbc
      | cons z zs =>
        simp only [subset, Bool.and_eq_true] at hab hbc ⊢
        refine ⟨?_, ih hab.2 hbc.2⟩
        revert hab hbc
        cases x <;> cases y <;> cases z <;> simp

theorem subset_antisymm {a b : Assignment} (hab : subset a b = true) (hba : subset b a = true) :
    a = b := by
  induction a generalizing b with
  | nil => cases b <;> simp_all [subset]
  | cons x xs ih =>
    cases b with
    | nil => simp [subset] at hab
    | cons y ys =>
      simp only [subset, Bool.and_eq_true] at hab hba
      have hxy : x = y := by
        revert hab hba
        cases x <;> cases y <;> simp
      rw [hxy, ih hab.2 hba.2]

theorem subset_append {a₁ b₁ a₂ b₂ : Assignment} (h₁ : subset a₁ b₁ = true)
    (h₂ : subset a₂ b₂ = true) : subset (a₁ ++ a₂) (b₁ ++ b₂) = true := by
  induction a₁ generalizing b₁ with
  | nil => cases b₁ <;> simp_all [subset]
  | cons x xs ih =>
    cases b₁ with
    | nil => simp [subset] at h₁
    | cons y ys =>
      simp only [subset, Bool.and_eq_true, cons_append] at h₁ ⊢
      exact ⟨h₁.1, ih h₁.2⟩

/-- Flags of one list of places are compared place by place. -/
theorem subset_map {f g : α → Bool} {l : List α} :
    subset (l.map f) (l.map g) = true ↔ ∀ x ∈ l, f x = true → g x = true := by
  induction l with
  | nil => simp [subset]
  | cons a l ih =>
    simp only [map_cons, subset, Bool.and_eq_true, ih, forall_mem_cons]
    cases f a <;> simp

end Assignment

/-! ## Known assignments -/

/-- Two states that differ in counters, the trace and the clock only. -/
structure SearchState.SameMemory (s s' : SearchState) : Prop where
  eqs : s'.eqs = s.eqs
  neqs : s'.neqs = s.neqs
  reached : s'.integrityReached = s.integrityReached

namespace SearchTask

/-- Among the assignments seen is one that includes `flags` and for which the oracle said that the
queries differ. -/
def Refuted (t : SearchTask) (seen : List Assignment) (flags : Assignment) : Prop :=
  ∃ n ∈ seen, t.verdict n = .neq ∧ subset flags n = true

/-- What the state of a search says about the assignments seen so far. -/
structure Remembers (t : SearchTask) (seen : List Assignment) (s : SearchState) : Prop where
  eqs_nodup : s.eqs.Nodup
  eqs_right : ∀ a ∈ s.eqs, a ∈ seen ∧ t.verdict a = .eq
  eqs_least : ∀ a ∈ s.eqs, ∀ b ∈ s.eqs, subset a b = true → a = b
  neqs_right : ∀ a ∈ s.neqs, a ∈ seen ∧ t.verdict a = .neq
  complete : ∀ a ∈ seen, t.verdict a = .eq →
    (∃ b ∈ s.eqs, subset b a = true) ∨ t.Refuted seen a

variable {t : SearchTask} {seen seen' : List Assignment} {s s' : SearchState} {flags : Assignment}

theorem Refuted.mono (h : t.Refuted seen flags) (hsub : seen ⊆ seen') : t.Refuted seen' flags := by
  obtain ⟨n, hn, hrest⟩ := h
  exact ⟨n, hsub hn, hrest⟩

theorem Refuted.of_subset {a b : Assignment} (h : t.Refuted seen b)
    (hab : subset a b = true) : t.Refuted seen a := by
  obtain ⟨n, hn, hneq, hbn⟩ := h
  exact ⟨n, hn, hneq, subset_trans hab hbn⟩

theorem remembers_initial (t : SearchTask) : t.Remembers [] .initial where
  eqs_nodup := nodup_nil
  eqs_right := nofun
  eqs_least := nofun
  neqs_right := nofun
  complete := nofun

theorem Remembers.of_eqs_neqs (h : t.Remembers seen s) (heqs : s'.eqs = s.eqs)
    (hneqs : s'.neqs = s.neqs) : t.Remembers seen s' where
  eqs_nodup := heqs ▸ h.eqs_nodup
  eqs_right := heqs ▸ h.eqs_right
  eqs_least := heqs ▸ h.eqs_least
  neqs_right := hneqs ▸ h.neqs_right
  complete := heqs ▸ h.complete

/-- Assignments may be added to those seen as long as the equal ones among them are known or
refuted. -/
theorem Remembers.extend {extra : List Assignment} (h : t.Remembers seen s)
    (hextra : ∀ a ∈ extra, t.verdict a = .eq →
      (∃ b ∈ s.eqs, subset b a = true) ∨ t.Refuted (seen ++ extra) a) :
    t.Remembers (seen ++ extra) s where
  eqs_nodup := h.eqs_nodup
  eqs_right := fun a ha => ⟨mem_append_left _ (h.eqs_right a ha).1, (h.eqs_right a ha).2⟩
  eqs_least := h.eqs_least
  neqs_right := fun a ha => ⟨mem_append_left _ (h.neqs_right a ha).1, (h.neqs_right a ha).2⟩
  complete := by
    intro a ha heq
    rcases mem_append.mp ha with hseen | hnew
    · exact (h.complete a hseen heq).imp id fun hr => hr.mono (subset_append_left _ _)
    · exact hextra a hnew heq

/-- Refuted assignments may be skipped. -/
theorem Remembers.skip {extra : List Assignment} (h : t.Remembers seen s)
    (hextra : ∀ a ∈ extra, t.Refuted seen a) : t.Remembers (seen ++ extra) s :=
  h.extend fun a ha _ => .inr ((hextra a ha).mono (subset_append_left _ _))

theorem isKnownEq_iff : s.isKnownEq flags = true ↔
    ∃ b ∈ s.eqs, subset b flags = true := by
  simp [SearchState.isKnownEq]

/-- No assignment below a new one is known, and what is kept does not include it: it would have been
dropped. -/
theorem incomparable_of_kept (hnew : s.isKnownEq flags = false) {b : Assignment}
    (hb : b ∈ s.eqs.filter fun eq => !ssubset flags eq) :
    b ∈ s.eqs ∧ subset b flags = false ∧ subset flags b = false := by
  obtain ⟨hmem, hkeep⟩ := mem_filter.mp hb
  have hbelow : subset b flags = false := by
    rw [Bool.eq_false_iff]
    intro hsub
    rw [isKnownEq_iff.mpr ⟨b, hmem, hsub⟩] at hnew
    cases hnew
  refine ⟨hmem, hbelow, ?_⟩
  simpa [ssubset, hbelow] using hkeep

/-- A new assignment takes the place of those that include it. -/
theorem eqs_rememberEq (hnew : s.isKnownEq flags = false) : (s.rememberEq flags).eqs =
    s.eqs.filter (fun eq => !ssubset flags eq) ++ [flags] := by
  unfold SearchState.rememberEq
  refine if_neg fun hmem => ?_
  have hself := (incomparable_of_kept hnew hmem).2.1
  rw [subset_refl] at hself
  cases hself

theorem mem_eqs_rememberEq (hnew : s.isKnownEq flags = false) :
    flags ∈ (s.rememberEq flags).eqs := by
  rw [eqs_rememberEq hnew]
  exact mem_append_right _ (mem_singleton_self flags)

/-- Whatever includes a known assignment still does so: the known one is kept, or it is dropped for
the new one, which is below it. -/
theorem exists_subset_rememberEq (hnew : s.isKnownEq flags = false) {a : Assignment}
    (h : ∃ b ∈ s.eqs, subset b a = true) :
    ∃ b ∈ (s.rememberEq flags).eqs, subset b a = true := by
  obtain ⟨b, hb, hba⟩ := h
  by_cases hdrop : ssubset flags b = true
  · have hsub : subset flags b = true := by
      simp only [ssubset, Bool.and_eq_true] at hdrop
      exact hdrop.1
    exact ⟨flags, mem_eqs_rememberEq hnew, subset_trans hsub hba⟩
  · refine ⟨b, ?_, hba⟩
    rw [eqs_rememberEq hnew]
    exact mem_append_left _ (mem_filter.mpr ⟨hb, by simpa using hdrop⟩)

/-- A new assignment that makes the queries equal takes the place of the larger ones. -/
theorem Remembers.rememberEq (h : t.Remembers seen s) (heq : t.verdict flags = .eq)
    (hnew : s.isKnownEq flags = false) : t.Remembers (seen ++ [flags]) (s.rememberEq flags) := by
  -- What is kept is not comparable to the new one.
  have hmem : ∀ {b}, b ∈ (s.rememberEq flags).eqs →
      (b ∈ s.eqs ∧ subset b flags = false ∧ subset flags b = false) ∨
        b = flags := by
    intro b hb
    rw [eqs_rememberEq hnew, mem_append, mem_singleton] at hb
    exact hb.imp (incomparable_of_kept hnew) id
  refine ⟨?_, ?_, ?_, fun a ha => ?_, ?_⟩
  · rw [eqs_rememberEq hnew]
    refine List.Nodup.append (h.eqs_nodup.filter _) (nodup_singleton flags) ?_
    rw [disjoint_singleton]
    intro hkept
    have hself := (incomparable_of_kept hnew hkept).2.1
    rw [subset_refl] at hself
    cases hself
  · intro a ha
    rcases hmem ha with ⟨hold, -⟩ | rfl
    · exact ⟨mem_append_left _ (h.eqs_right a hold).1, (h.eqs_right a hold).2⟩
    · exact ⟨mem_append_right _ (mem_singleton_self _), heq⟩
  · intro a ha b hb hab
    rcases hmem ha with ⟨haold, hbelow, -⟩ | rfl <;> rcases hmem hb with ⟨hbold, -, habove⟩ | rfl
    · exact h.eqs_least a haold b hbold hab
    · exact absurd (hab.symm.trans hbelow) nofun
    · exact absurd (hab.symm.trans habove) nofun
    · rfl
  · exact ⟨mem_append_left _ (h.neqs_right a ha).1, (h.neqs_right a ha).2⟩
  · intro a ha haeq
    rcases mem_append.mp ha with hseen | hlast
    · rcases h.complete a hseen haeq with hknown | href
      · exact .inl (exists_subset_rememberEq hnew hknown)
      · exact .inr (href.mono (subset_append_left _ _))
    · obtain rfl := mem_singleton.mp hlast
      exact .inl ⟨a, mem_eqs_rememberEq hnew, subset_refl a⟩

/-- A new assignment under which the queries differ refutes those below it. -/
theorem Remembers.rememberNeq (h : t.Remembers seen s) (hneq : t.verdict flags = .neq) :
    t.Remembers (seen ++ [flags]) (s.rememberNeq flags) := by
  have hext : t.Remembers (seen ++ [flags]) s := by
    refine h.extend fun a ha heq => ?_
    rw [mem_singleton] at ha
    subst ha
    rw [hneq] at heq
    cases heq
  have hmem : ∀ {b}, b ∈ (s.rememberNeq flags).neqs → b ∈ s.neqs ∨ b = flags := by
    intro b hb
    unfold SearchState.rememberNeq at hb
    dsimp only at hb
    split at hb
    · exact .inl (mem_of_mem_filter hb)
    · rw [mem_append, mem_singleton] at hb
      exact hb.imp mem_of_mem_filter id
  refine ⟨hext.eqs_nodup, hext.eqs_right, hext.eqs_least, fun a ha => ?_, hext.complete⟩
  rcases hmem ha with hold | rfl
  · exact hext.neqs_right a hold
  · exact ⟨mem_append_right _ (mem_singleton_self _), hneq⟩

end SearchTask

/-! ## Complete choices -/

namespace Search

variable {t : SearchTask} {s s' : SearchState} {c : Choice} {a : Answer}

/-- What answering a complete choice can do: the answer is known from another assignment, or there
is no question, or the oracle is asked and its answer is remembered unless it is `unknown`. -/
theorem answerLeaf_ends (hdry : t.settings.isDryRun = false) (h : Ends (answerLeaf t c) s a s') :
    (s'.trace = s.trace ∧ s'.stats.oracleCalls = s.stats.oracleCalls ∧ s.SameMemory s' ∧
      ((a = .eq ∧ s.isKnownEq (t.flags c false) = true) ∨
        (a = .neq ∧ s.isKnownNeq (t.flags c false) = true) ∨
        (a = .unknown ∧ t.question (t.flags c false) = .ok none))) ∨
    ∃ q v, t.question (t.flags c false) = .ok (some q) ∧ s.isKnownEq (t.flags c false) = false ∧
      s'.trace = .asked q :: s.trace ∧ s'.stats.oracleCalls = s.stats.oracleCalls + 1 ∧
      t.oracle s.stats.oracleCalls q = .ok v ∧
      ((a = .eq ∧ v = .eq ∧ (s.rememberEq (t.flags c false)).SameMemory s') ∨
        (a = .neq ∧ v = .neq ∧ (s.rememberNeq (t.flags c false)).SameMemory s') ∨
        (a = .unknown ∧ v = .unknown ∧ s.SameMemory s')) := by
  unfold answerLeaf at h
  simp only [ends_bind, ends_modify, ends_get, hdry, Bool.false_eq_true, if_false] at h
  obtain ⟨-, s₁, rfl, s₂, _, ⟨rfl, rfl⟩, h⟩ := h
  set flags := t.flags c false
  split at h
  · next hknown =>
    obtain ⟨rfl, rfl⟩ := ends_modify_pure.mp h
    exact .inl ⟨rfl, rfl, ⟨rfl, rfl, rfl⟩, .inl ⟨rfl, hknown⟩⟩
  next hunknown =>
  split at h
  · next hknown =>
    obtain ⟨rfl, rfl⟩ := ends_modify_pure.mp h
    exact .inl ⟨rfl, rfl, ⟨rfl, rfl, rfl⟩, .inr (.inl ⟨rfl, hknown⟩)⟩
  obtain ⟨q, s₁, hq, h⟩ := ends_bind.mp h
  obtain ⟨hquestion, rfl⟩ := ends_question.mp hq
  -- Nothing is known, so the question is asked.
  cases q with
  | none =>
    obtain ⟨rfl, rfl⟩ := ends_pure.mp h
    exact .inl ⟨rfl, rfl, ⟨rfl, rfl, rfl⟩, .inr (.inr ⟨rfl, hquestion⟩)⟩
  | some q =>
    simp only [ends_bind, ends_modify] at h
    obtain ⟨_, s₁, rfl, _, s₂, rfl, h⟩ := h
    have hnew := Bool.eq_false_iff.mpr hunknown
    split at h
    · exact absurd h not_ends_throw
    · next horacle =>
      obtain ⟨rfl, rfl⟩ := ends_modify_pure.mp h
      exact .inr ⟨q, .eq, hquestion, hnew, rfl, rfl, horacle, .inl ⟨rfl, rfl, rfl, rfl, rfl⟩⟩
    · next horacle =>
      obtain ⟨rfl, rfl⟩ := ends_modify_pure.mp h
      exact .inr ⟨q, .neq, hquestion, hnew, rfl, rfl, horacle,
        .inr (.inl ⟨rfl, rfl, rfl, rfl, rfl⟩)⟩
    · next horacle =>
      obtain ⟨rfl, rfl⟩ := ends_pure.mp h
      exact .inr ⟨q, .unknown, hquestion, hnew, rfl, rfl, horacle,
        .inr (.inr ⟨rfl, rfl, rfl, rfl, rfl⟩)⟩

end Search

namespace SearchTask

variable {t : SearchTask} {seen : List Assignment} {s s' : SearchState} {c : Choice} {a : Answer}

/-- A complete choice is answered from memory or by the oracle; either way the memory stays right,
and the answer `neq` refutes the choice. -/
theorem Remembers.answerLeaf (hs : t.Remembers seen s) (hdry : t.settings.isDryRun = false)
    (hpure : ∀ n q, t.oracle n q = t.oracle 0 q) (h : Search.Ends (Search.answerLeaf t c) s a s') :
    (a ≠ .timeout ∧ s'.integrityReached = s.integrityReached) ∧
      t.Remembers (seen ++ [t.flags c false]) s' ∧
      (a = .neq → t.Refuted (seen ++ [t.flags c false]) (t.flags c false)) := by
  set flags := t.flags c false
  have hlast : flags ∈ seen ++ [flags] := mem_append_right _ (mem_singleton_self _)
  -- An assignment that is not equal adds nothing to what has to be known.
  have hskip : t.verdict flags = .unknown → t.Remembers (seen ++ [flags]) s := by
    intro hverdict
    refine hs.extend fun b hb heq => ?_
    rw [mem_singleton.mp hb, hverdict] at heq
    cases heq
  rcases Search.answerLeaf_ends hdry h with ⟨-, -, hsame, ⟨rfl, hknown⟩ | ⟨rfl, hknown⟩ |
    ⟨rfl, hquestion⟩⟩ | ⟨q, v, hquestion, hnew, -, -, horacle, hanswer⟩
  · have hext : t.Remembers (seen ++ [flags]) s := by
      refine hs.extend fun b hb _ => .inl ?_
      rw [mem_singleton.mp hb]
      exact isKnownEq_iff.mp hknown
    exact ⟨⟨nofun, hsame.reached⟩, hext.of_eqs_neqs hsame.eqs hsame.neqs, nofun⟩
  · have href : t.Refuted seen flags := by
      obtain ⟨n, hn, hsub⟩ := any_eq_true.mp hknown
      exact ⟨n, (hs.neqs_right n hn).1, (hs.neqs_right n hn).2, hsub⟩
    have hext : t.Remembers (seen ++ [flags]) s :=
      hs.skip fun b hb => (mem_singleton.mp hb) ▸ href
    exact ⟨⟨nofun, hsame.reached⟩, hext.of_eqs_neqs hsame.eqs hsame.neqs,
      fun _ => href.mono (subset_append_left _ _)⟩
  · have hverdict : t.verdict flags = .unknown := by
      unfold verdict
      rw [hquestion]
    exact ⟨⟨nofun, hsame.reached⟩, (hskip hverdict).of_eqs_neqs hsame.eqs hsame.neqs, nofun⟩
  · -- The number of the question does not matter.
    have hverdict : t.verdict flags = v := by
      rw [hpure] at horacle
      unfold verdict
      rw [hquestion]
      dsimp only
      rw [horacle]
    rcases hanswer with ⟨rfl, rfl, hsame⟩ | ⟨rfl, rfl, hsame⟩ | ⟨rfl, rfl, hsame⟩
    · have hmem := hs.rememberEq hverdict hnew
      exact ⟨⟨nofun, hsame.reached⟩, hmem.of_eqs_neqs hsame.eqs hsame.neqs, nofun⟩
    · have hmem := hs.rememberNeq hverdict
      exact ⟨⟨nofun, hsame.reached⟩, hmem.of_eqs_neqs hsame.eqs hsame.neqs,
        fun _ => ⟨flags, hlast, hverdict, subset_refl flags⟩⟩
    · exact ⟨⟨nofun, hsame.reached⟩, (hskip hverdict).of_eqs_neqs hsame.eqs hsame.neqs, nofun⟩

end SearchTask

end QueryRules
