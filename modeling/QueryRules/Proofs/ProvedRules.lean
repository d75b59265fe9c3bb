import QueryRules.Proofs.SearchFaults

/-!
# QueryRules — rules that are found were proved

The known assignments of a search are kept free of redundancy without comparing a new one with all
of them: a new assignment drops those that include it, and that none is included in it is what was
asked before. So the order in which a complete choice is answered matters, and the invariant speaks
of the complete choices that were answered and of the questions that were asked.

Nothing here needs the oracle to answer a question twice in the same way, or the search to end in
time.
-/

namespace QueryRules

open List

namespace Search

variable {t : SearchTask} {s s' : SearchState} {c : Choice} {a : Answer}

/-- What answering a complete choice can do. It is recorded with its answer; the oracle may be
asked, and if it says `eq`, the assignment is new and becomes known. -/
theorem leafStage_ends (hdry : t.settings.isDryRun = false) (hends : Ends (leafStage t c) s a s') :
    s'.answered = s.answered ++ [(c, a)] ∧ ∃ asked, s'.questions = s.questions ++ asked ∧
      s'.stats.oracleCalls = s.stats.oracleCalls + asked.length ∧
      ((s'.eqs = s.eqs ∧ (a = .eq → s.isKnownEq (t.flags c false) = true)) ∨
        ∃ q, asked = [q] ∧ a = .eq ∧ t.question (t.flags c false) = .ok (some q) ∧
          s.isKnownEq (t.flags c false) = false ∧ t.oracle s.stats.oracleCalls q = .ok .eq ∧
          s'.eqs = (s.rememberEq (t.flags c false)).eqs) := by
  obtain ⟨a', s₁, h, hrec⟩ := ends_bind.mp hends
  obtain ⟨rfl, rfl⟩ := ends_modify_pure.mp hrec
  rcases answerLeaf_ends hdry h with ⟨htrace, hcalls, hsame, hanswer⟩ |
    ⟨q, v, hquestion, hnew, htrace, hcalls, horacle, hanswer⟩
  · refine ⟨by simp [SearchState.answered, SearchState.record, htrace], [],
      by simp [SearchState.questions, SearchState.record, htrace], hcalls, .inl ⟨hsame.eqs, ?_⟩⟩
    rintro rfl
    rcases hanswer with ⟨-, hknown⟩ | ⟨heq, -⟩ | ⟨heq, -⟩
    · exact hknown
    · cases heq
    · cases heq
  · refine ⟨by simp [SearchState.answered, SearchState.record, htrace], [q],
      by simp [SearchState.questions, SearchState.record, htrace], hcalls, ?_⟩
    rcases hanswer with ⟨rfl, rfl, hsame⟩ | ⟨rfl, -, hsame⟩ | ⟨rfl, -, hsame⟩
    · exact .inr ⟨q, rfl, rfl, hquestion, hnew, horacle, hsame.eqs⟩
    · exact .inl ⟨hsame.eqs, fun heq => by cases heq⟩
    · exact .inl ⟨hsame.eqs, fun heq => by cases heq⟩

end Search

/-! ## The invariant -/

namespace SearchTask

variable {t : SearchTask} {s s' : SearchState} {c : Choice} {a : Answer}

/-- The assignment of an answered complete choice makes the queries equal: its question was asked,
and the oracle answered `eq`. -/
def IsProved (t : SearchTask) (s : SearchState) (flags : Assignment) : Prop :=
  (∃ c, (c, Answer.eq) ∈ s.answered ∧ t.flags c false = flags) ∧
    ∃ n q, t.question flags = .ok (some q) ∧ s.questions[n]? = some q ∧ t.oracle n q = .ok .eq

/-- What the known assignments have to do with the answers and questions so far. Known assignments
are pairwise incomparable, each has been answered `eq` by the oracle, and each answer `eq` lies
above a known assignment. -/
structure Proves (t : SearchTask) (s : SearchState) : Prop where
  /-- The number of the next question. -/
  calls : s.stats.oracleCalls = s.questions.length
  antichain : s.eqs.Pairwise fun a b =>
    Assignment.subset a b = false ∧ Assignment.subset b a = false
  proved : ∀ flags ∈ s.eqs, t.IsProved s flags
  covers : ∀ c, (c, Answer.eq) ∈ s.answered →
    ∃ flags ∈ s.eqs, Assignment.subset flags (t.flags c false) = true

theorem proves_initial (t : SearchTask) : t.Proves .initial where
  calls := rfl
  antichain := .nil
  proved _ h := absurd h not_mem_nil
  covers _ h := absurd h not_mem_nil

theorem stable_proves (t : SearchTask) : Search.Stable t.Proves := by
  intro s s' haside h
  refine ⟨?_, ?_, ?_, ?_⟩
  · rw [haside.calls, haside.questions, h.calls]
  · rw [haside.eqs]
    exact h.antichain
  · unfold IsProved
    rw [haside.eqs, haside.answered, haside.questions]
    exact h.proved
  · rw [haside.eqs, haside.answered]
    exact h.covers

/-- What is proved stays proved when more is answered and asked. -/
theorem IsProved.mono {flags : Assignment} (h : t.IsProved s flags)
    {answers : List (Choice × Answer)} {questions : List Question}
    (hanswered : s'.answered = s.answered ++ answers)
    (hquestions : s'.questions = s.questions ++ questions) : t.IsProved s' flags := by
  obtain ⟨⟨c, hc, hflags⟩, n, q, hquestion, hasked, horacle⟩ := h
  refine ⟨⟨c, ?_, hflags⟩, n, q, hquestion, ?_, horacle⟩
  · rw [hanswered]
    exact mem_append_left _ hc
  · rw [hquestions, getElem?_append_left (List.getElem?_eq_some_iff.mp hasked).1]
    exact hasked

/-- One complete choice. -/
theorem Proves.leafStage (hdry : t.settings.isDryRun = false) (hs : t.Proves s)
    (h : Search.Ends (Search.leafStage t c) s a s') : t.Proves s' := by
  obtain ⟨hanswered, asked, hquestions, hcalls, ⟨heqs, hknown⟩ |
    ⟨q, rfl, rfl, hquestion, hnew, horacle, heqs⟩⟩ := Search.leafStage_ends hdry h
  all_goals
    have hcalls' : s'.stats.oracleCalls = s'.questions.length := by
      rw [hcalls, hquestions, hs.calls, length_append]
  · -- If the answer is `eq`, the assignment lies above a known one.
    refine ⟨hcalls', heqs ▸ hs.antichain, fun flags hmem => ?_, fun d hd => ?_⟩
    · rw [heqs] at hmem
      exact (hs.proved flags hmem).mono hanswered hquestions
    · rw [hanswered, mem_append, mem_singleton] at hd
      rw [heqs]
      rcases hd with hold | hlast
      · exact hs.covers d hold
      · cases hlast
        exact isKnownEq_iff.mp (hknown rfl)
  · -- The oracle says `eq`, and no known assignment lies below the new one.
    set flags := t.flags c false
    have hproved : t.IsProved s' flags := by
      refine ⟨⟨c, ?_, rfl⟩, s.stats.oracleCalls, q, hquestion, ?_, horacle⟩
      · rw [hanswered]
        exact mem_append_right _ (mem_singleton_self _)
      · rw [hquestions, hs.calls, getElem?_append_right (Nat.le_refl _), Nat.sub_self]
        rfl
    refine ⟨hcalls', ?_, fun b hb => ?_, fun d hd => ?_⟩
    · rw [heqs, eqs_rememberEq hnew, pairwise_append]
      refine ⟨hs.antichain.filter _, pairwise_singleton _ _, fun b hb b' hb' => ?_⟩
      obtain rfl := mem_singleton.mp hb'
      exact (incomparable_of_kept hnew hb).2
    · rw [heqs, eqs_rememberEq hnew, mem_append, mem_singleton] at hb
      rcases hb with hkept | rfl
      · exact (hs.proved b (incomparable_of_kept hnew hkept).1).mono hanswered hquestions
      · exact hproved
    · rw [hanswered, mem_append, mem_singleton] at hd
      rw [heqs]
      rcases hd with hold | hlast
      · exact exists_subset_rememberEq hnew (hs.covers d hold)
      · cases hlast
        exact ⟨flags, mem_eqs_rememberEq hnew, Assignment.subset_refl flags⟩

/-- The invariant holds after a search that does not fail, whether it ended in time or not. -/
theorem proves_of_search {catalog : Catalog} {settings : Settings} {oracle : Oracle}
    {clock : Nat → Nat} (hdry : settings.isDryRun = false) {outcome : SearchOutcome}
    (hrun : (catalog.search settings oracle clock).result = .ok outcome) :
    (SearchTask.ofCatalog catalog settings oracle clock).Proves
        (catalog.search settings oracle clock).final ∧
      outcome.rules = (catalog.search settings oracle clock).final.eqs.map catalog.rule := by
  set t := SearchTask.ofCatalog catalog settings oracle clock
  have hkeeps : Search.Keeps t.Proves (fun _ => True) (Search.explore t) :=
    Search.explore_keeps (stable_proves t) (fun _ _ _ _ => trivial)
      fun c => ⟨fun hs hends => Proves.leafStage hdry hs hends, fun _ _ => trivial⟩
  obtain ⟨⟨a, hends⟩, hrules⟩ := Catalog.ends_of_search hrun
  exact ⟨hkeeps.ends (proves_initial t) hends, hrules⟩

end SearchTask

/-- **Every rule found was proved, and none is redundant.** A search that asks the oracle and does
not fail, whether it ends in time or not, returns the rules of assignments of which none is included
in another. Each is the assignment of a complete choice, its question was asked, and the oracle
answered `eq`; and each complete choice that was answered `eq`, by the oracle or from memory,
includes one of them. -/
theorem Catalog.search_returns_proved_antichain (catalog : Catalog) (settings : Settings)
    (oracle : Oracle) (clock : Nat → Nat) (hdry : settings.isDryRun = false)
    {outcome : SearchOutcome}
    (hrun : (catalog.search settings oracle clock).result = .ok outcome) :
    ∃ found : List Assignment, outcome.rules = found.map catalog.rule ∧
      found.Pairwise (fun a b => Assignment.subset a b = false ∧ Assignment.subset b a = false) ∧
      (∀ flags ∈ found, (SearchTask.ofCatalog catalog settings oracle clock).IsProved
        (catalog.search settings oracle clock).final flags) ∧
      ∀ c, (c, Answer.eq) ∈ (catalog.search settings oracle clock).final.answered →
        ∃ flags ∈ found, Assignment.subset flags
          ((SearchTask.ofCatalog catalog settings oracle clock).flags c false) = true := by
  obtain ⟨hproves, hrules⟩ := SearchTask.proves_of_search hdry hrun
  exact ⟨_, hrules, hproves.antichain, hproves.proved, hproves.covers⟩

/-- The search for a rule that removes a deduplication, out of time before its third complete
choice. The first one was found to be redundant after the second. -/
theorem Catalog.search_returns_proved_antichain_late :
    ∃ outcome : SearchOutcome,
      (Catalog.dedup.search { timeout := some 2 } Oracle.strict id).result = .ok outcome ∧
      outcome.timedOut = true ∧ outcome.rules.length = 1 ∧
      (Catalog.dedup.search { timeout := some 2 } Oracle.strict id).final.answered.length = 2 ∧
      ∃ found : List Assignment, outcome.rules = found.map Catalog.dedup.rule ∧
        found.Pairwise (fun a b =>
          Assignment.subset a b = false ∧ Assignment.subset b a = false) ∧
        (∀ flags ∈ found,
          (SearchTask.ofCatalog Catalog.dedup { timeout := some 2 } Oracle.strict id).IsProved
            (Catalog.dedup.search { timeout := some 2 } Oracle.strict id).final flags) ∧
        ∀ c, (c, Answer.eq) ∈
            (Catalog.dedup.search { timeout := some 2 } Oracle.strict id).final.answered →
          ∃ flags ∈ found, Assignment.subset flags
            ((SearchTask.ofCatalog Catalog.dedup { timeout := some 2 } Oracle.strict id).flags c
              false) = true := by
  have hresult :
      ((Catalog.dedup.search { timeout := some 2 } Oracle.strict id).result.toOption.any fun o =>
        o.timedOut && o.rules.length == 1) = true := by
    decide +kernel
  cases hrun : (Catalog.dedup.search { timeout := some 2 } Oracle.strict id).result with
  | error e =>
    rw [hrun] at hresult
    cases hresult
  | ok outcome =>
    rw [hrun] at hresult
    simp only [Except.toOption, Option.any_some, Bool.and_eq_true, beq_iff_eq] at hresult
    exact ⟨outcome, rfl, hresult.1, hresult.2, by decide +kernel,
      Catalog.search_returns_proved_antichain _ _ _ _ rfl hrun⟩

end QueryRules
