import QueryRules.Proofs.Relabeling
import QueryRules.Proofs.TidyTerms

/-!
# QueryRules — normal forms that are written as tidy terms

A disjunction is settled if every conjunction has a factor and everything squashed or negated is of
a shape that no law takes apart. Tidy terms and settled disjunctions belong together.
-/

namespace QueryRules

open List

/-! ## Settled disjunctions -/

mutual

/-- A conjunction with a factor, in which what is squashed stays as it is below a squash and what is
negated stays as it is below a negation, at every level. -/
def Conj.Settled : Conj → Prop
  | ⟨_, tables, preds, squash, negation⟩ =>
    (tables ≠ [] ∨ preds ≠ [] ∨ squash ≠ none ∨ negation ≠ none) ∧
      (∀ d, squash = some d → Disj.Squashable d) ∧
      (∀ d, negation = some d → ∀ c ∈ d, c.Negatable) ∧
      Disj.SettledOption squash ∧ Disj.SettledOption negation

/-- An optional disjunction that is not empty and settled. -/
def Disj.SettledOption : Option (List Conj) → Prop
  | none => True
  | some d => d ≠ [] ∧ Disj.Settled d

/-- A disjunction of settled conjunctions. -/
def Disj.Settled : List Conj → Prop
  | [] => True
  | c :: cs => c.Settled ∧ Disj.Settled cs

end

variable {o : Option Disj}

theorem Disj.settledOption_iff :
    Disj.SettledOption o ↔ ∀ d, o = some d → d ≠ [] ∧ Disj.Settled d := by
  cases o with
  | none | some d => simp [Disj.SettledOption]

/-- Settled conjunctions by their parts. -/
theorem Conj.settled_iff {c : Conj} : c.Settled ↔
    (c.tables ≠ [] ∨ c.preds ≠ [] ∨ c.squash ≠ none ∨ c.negation ≠ none) ∧
      (∀ d, c.squash = some d → Disj.Squashable d ∧ d ≠ [] ∧ Disj.Settled d) ∧
      (∀ d, c.negation = some d → (∀ e ∈ d, e.Negatable) ∧ d ≠ [] ∧ Disj.Settled d) := by
  obtain ⟨vars, tables, preds, squash, negation⟩ := c
  rw [Conj.Settled, Disj.settledOption_iff, Disj.settledOption_iff]
  constructor
  · rintro ⟨hparts, hsq, hneg, hsettled, hsettled'⟩
    exact ⟨hparts, fun d hd => ⟨hsq d hd, hsettled d hd⟩, fun d hd => ⟨hneg d hd, hsettled' d hd⟩⟩
  · rintro ⟨hparts, hsq, hneg⟩
    exact ⟨hparts, fun d hd => (hsq d hd).1, fun d hd => (hneg d hd).1,
      fun d hd => (hsq d hd).2, fun d hd => (hneg d hd).2⟩

variable {d : Disj}

theorem Disj.settled_iff : Disj.Settled d ↔ ∀ c ∈ d, c.Settled := by
  induction d with
  | nil => simp [Disj.Settled]
  | cons c cs ih => rw [Disj.Settled, ih, forall_mem_cons]

theorem Disj.settled_append {d e : Disj} (hd : Disj.Settled d) (he : Disj.Settled e) :
    Disj.Settled (d ++ e) := by
  rw [Disj.settled_iff] at hd he ⊢
  intro c hc
  exact (mem_append.mp hc).elim (hd c) (he c)

/-! ## What a tidy term says is settled -/

/-- Factors that make a settled conjunction. -/
structure Gathered.Settled (g : Gathered) : Prop where
  squashes : ∀ d ∈ g.squashes, d ≠ [] ∧ Disj.Squashable d ∧ Disj.Settled d
  negated : ∀ c ∈ g.negated, c.Negatable ∧ c.Settled

namespace Gathered

theorem settled_empty : empty.Settled :=
  ⟨fun _ h => absurd h not_mem_nil, fun _ h => absurd h not_mem_nil⟩

theorem Settled.append {g g' : Gathered} (h : g.Settled) (h' : g'.Settled) :
    (g.append g').Settled where
  squashes d hd := (mem_append.mp hd).elim (h.squashes d) (h'.squashes d)
  negated c hc := (mem_append.mp hc).elim (h.negated c) (h'.negated c)

/-- Gathered factors make a settled conjunction. -/
theorem Settled.toConj {g : Gathered} (h : g.Settled) (hpos : 0 < g.size) (vars : List Tuple) :
    (g.toConj vars).Settled := by
  rw [Conj.settled_iff]
  refine ⟨?_, fun d hd => ?_, fun d hd => ?_⟩
  · -- A product without any of the four has no factor.
    by_contra hnone
    simp only [ne_eq, not_or, not_not] at hnone
    obtain ⟨ht, hp, hs, hn⟩ := hnone
    have hs' : g.squashes = [] := head?_eq_none_iff.mp hs
    have hn' : g.negated = [] := by
      by_contra hne
      simp [Gathered.toConj, hne] at hn
    rw [size, show g.tables = [] from ht, show g.preds = [] from hp, hs', hn'] at hpos
    exact absurd hpos (Nat.lt_irrefl 0)
  · obtain ⟨hne, hsq, hsettled⟩ := h.squashes d (mem_of_mem_head? hd)
    exact ⟨hsq, hne, hsettled⟩
  · obtain ⟨hne, rfl⟩ : g.negated ≠ [] ∧ g.negated = d := by
      simpa [Gathered.toConj] using hd
    exact ⟨fun c hc => (h.negated c hc).1, hne,
      Disj.settled_iff.mpr fun c hc => (h.negated c hc).2⟩

end Gathered

namespace Term

/-- A product says a settled conjunction, if its factors do. -/
theorem Tidy.settled_of_gather {t : Term} (h : t.Tidy) (hp : t.IsProduct) (hg : t.gather.Settled) :
    Disj.Settled t.spread := by
  rw [spread_of_isProduct hp]
  exact ⟨hg.toConj (h.size_pos hp) [], trivial⟩

/-- What a tidy term says is settled; one induction for sums and products. -/
theorem Tidy.settled {t : Term} (h : t.Tidy) : Disj.Settled t.spread ∧ t.gather.Settled := by
  induction t with
  | table n row =>
    have hg : (Term.table n row).gather.Settled := by
      constructor <;> simp [gather]
    exact ⟨h.settled_of_gather (isProduct_of_isAtom rfl) hg, hg⟩
  | pred n args =>
    have hg : (Term.pred n args).gather.Settled := by
      constructor <;> simp [gather]
    exact ⟨h.settled_of_gather (isProduct_of_isAtom rfl) hg, hg⟩
  | eq l r =>
    have hg : (Term.eq l r).gather.Settled := by
      constructor <;> simp [gather]
    exact ⟨h.settled_of_gather (isProduct_of_isAtom rfl) hg, hg⟩
  | add l r ihl ihr =>
    rw [spread, gather]
    exact ⟨Disj.settled_append (ihl h.1).1 (ihr h.2).1, Gathered.settled_empty⟩
  | mul l r ihl ihr =>
    -- The gathered factors are settled one by one.
    have hg := (ihl h.1.1).2.append (ihr h.2.1.1).2
    rw [← gather] at hg
    exact ⟨h.settled_of_gather (isProduct_mul l r) hg, hg⟩
  | not t ih =>
    have hg : (Term.not t).gather.Settled := by
      refine ⟨by simp [gather], fun c hc => ?_⟩
      rw [gather] at hc
      exact ⟨h.2 c hc, Disj.settled_iff.mp (ih h.1).1 c hc⟩
    exact ⟨h.settled_of_gather (isProduct_not t) hg, hg⟩
  | squash t ih =>
    have hg : (Term.squash t).gather.Settled := by
      refine ⟨fun d hd => ?_, by simp [gather]⟩
      rw [gather] at hd
      obtain rfl := mem_singleton.mp hd
      exact ⟨t.spread_ne_nil, h.2, (ih h.1).1⟩
    exact ⟨h.settled_of_gather (isProduct_squash t) hg, hg⟩
  | sum vars body ih =>
    rw [spread, gather]
    obtain ⟨-, hbody, hp⟩ := h
    exact ⟨⟨(ih hbody).2.toConj (hbody.size_pos hp) vars, trivial⟩, Gathered.settled_empty⟩

end Term

/-! ## A settled disjunction is written as a tidy term that says it -/

namespace Term

/-- A tidy term that says the disjunction. -/
def Writes (t : Term) (d : Disj) : Prop :=
  t.Tidy ∧ t.spread = d

theorem writes_sumOver (vars : List Tuple) {body : Term} {g : Gathered} (h : body.Tidy)
    (hp : body.IsProduct) (hg : body.gather = g) : (sumOver vars body).Writes [g.toConj vars] := by
  unfold sumOver
  split
  · next hvars =>
    rw [List.isEmpty_iff.mp hvars]
    exact ⟨h, by rw [spread_of_isProduct hp, hg]⟩
  · next hvars =>
    refine ⟨⟨fun hnil => hvars (by rw [hnil]; rfl), h, hp⟩, ?_⟩
    rw [spread, hg]

end Term

namespace Gathered

theorem concat_tables (tables : List TableAtom) :
    concat ((tables.map TableAtom.toTerm).map Term.gather) = ⟨tables, [], [], []⟩ := by
  simp [concat, flatMap_map, TableAtom.toTerm, Term.gather]

theorem concat_preds (preds : List PredAtom) :
    concat ((preds.map PredAtom.toTerm).map Term.gather) = ⟨[], preds, [], []⟩ := by
  have hatom : ∀ p : PredAtom, p.toTerm.gather = ⟨[], [p], [], []⟩ := by
    intro p
    cases p with
    | pred n args | eq l r => rw [PredAtom.toTerm, Term.gather]
  simp [concat, flatMap_map, hatom]

/-- The factors of a conjunction make the conjunction. -/
theorem toConj_parts {c : Conj} (h : c.negation ≠ some []) :
    toConj c.vars ⟨c.tables, c.preds, c.squash.toList, c.negation.getD []⟩ = c := by
  obtain ⟨vars, tables, preds, squash, negation⟩ := c
  cases squash <;> cases negation <;> simp_all [toConj]

end Gathered

namespace Conj

/-- The factors of a conjunction as terms, with its squash and its negation written as given. -/
def factorTerms (c : Conj) (squash negation : Option Term) : List Term :=
  c.tables.map TableAtom.toTerm ++ c.preds.map PredAtom.toTerm
    ++ squash.toList.map Term.squash ++ negation.toList.map Term.not

variable {c : Conj} {squash negation : Option Term}

theorem toTerm_eq (c : Conj) :
    c.toTerm = .sumOver c.vars
      (.product (c.factorTerms (Disj.toTerm? c.squash) (Disj.toTerm? c.negation))) := by
  obtain ⟨vars, tables, preds, squash, negation⟩ := c
  rw [toTerm]
  rfl

/-- Factors that were written are gathered again. -/
theorem gather_factorTerms (hsquash : squash.map Term.spread = c.squash)
    (hnegation : negation.map Term.spread = c.negation) :
    Gathered.concat ((c.factorTerms squash negation).map Term.gather)
      = ⟨c.tables, c.preds, c.squash.toList, c.negation.getD []⟩ := by
  have hs : Gathered.concat ((squash.toList.map Term.squash).map Term.gather)
      = ⟨[], [], c.squash.toList, []⟩ := by
    rw [← hsquash]
    cases squash <;> simp [Gathered.concat, Term.gather]
  have hn : Gathered.concat ((negation.toList.map Term.not).map Term.gather)
      = ⟨[], [], [], c.negation.getD []⟩ := by
    rw [← hnegation]
    cases negation <;> simp [Gathered.concat, Term.gather]
  simp only [factorTerms, map_append, Gathered.concat_append, Gathered.concat_tables,
    Gathered.concat_preds, hs, hn]
  simp [Gathered.append]

theorem tidy_factorTerms (hsquash : ∀ t ∈ squash, (Term.squash t).Tidy)
    (hnegation : ∀ t ∈ negation, (Term.not t).Tidy) :
    ∀ f ∈ c.factorTerms squash negation, f.Tidy ∧ f.IsProduct := by
  intro f hf
  simp only [factorTerms, mem_append, mem_map, Option.mem_toList] at hf
  rcases hf with ((⟨a, -, rfl⟩ | ⟨p, -, rfl⟩) | ⟨t, ht, rfl⟩) | ⟨t, ht, rfl⟩
  · exact ⟨trivial, Term.isProduct_of_isAtom rfl⟩
  · cases p with
    | pred n args | eq l r => exact ⟨trivial, Term.isProduct_of_isAtom rfl⟩
  · exact ⟨hsquash t ht, Term.isProduct_squash t⟩
  · exact ⟨hnegation t ht, Term.isProduct_not t⟩

/-- A settled conjunction is written tidily, if its squash and its negation are. -/
theorem Settled.writes (hc : c.Settled) (hsquash : squash.map Term.spread = c.squash)
    (hsquash' : ∀ t ∈ squash, t.Tidy) (hnegation : negation.map Term.spread = c.negation)
    (hnegation' : ∀ t ∈ negation, t.Tidy) :
    (Term.sumOver c.vars (.product (c.factorTerms squash negation))).Writes [c] := by
  obtain ⟨hparts, hsq, hneg⟩ := Conj.settled_iff.mp hc
  have hgather := gather_factorTerms hsquash hnegation
  have hfactors : ∀ f ∈ c.factorTerms squash negation, f.Tidy ∧ f.IsProduct := by
    refine tidy_factorTerms (fun t ht => ⟨hsquash' t ht, ?_⟩) fun t ht => ⟨hnegation' t ht, ?_⟩
    · exact (hsq _ (by rw [← hsquash, ht]; rfl)).1
    · exact (hneg _ (by rw [← hnegation, ht]; rfl)).1
  -- There is a factor, so the written product is no unit that was put in its place.
  obtain ⟨p, hp⟩ : ∃ p, Term.product? (c.factorTerms squash negation) = some p := by
    cases hfs : c.factorTerms squash negation with
    | cons f fs => exact ⟨_, rfl⟩
    | nil =>
      obtain ⟨htables, hpreds, rfl, rfl⟩ :
          c.tables = [] ∧ c.preds = [] ∧ squash = none ∧ negation = none := by
        simpa [factorTerms, and_assoc] using hfs
      simp [htables, hpreds, ← hsquash, ← hnegation] at hparts
  rw [Term.product, hp, Option.getD_some]
  rw [← Term.gather_product? hp] at hgather
  -- An optional squash is one squash at most.
  have hone : p.gather.squashes.length ≤ 1 := by
    rw [hgather]
    exact Option.length_toList_le
  obtain ⟨htidy, hproduct⟩ := Term.tidy_product? hp hfactors hone
  have hwrites := Term.writes_sumOver c.vars htidy hproduct hgather
  rwa [Gathered.toConj_parts fun hnil => (hneg [] hnil).2.1 rfl] at hwrites

end Conj

/-- A disjunction is written tidily, if its conjunctions are. -/
theorem Disj.writes_of_terms (hne : d ≠ []) (htidy : ∀ t ∈ Disj.toTerms d, t.Tidy)
    (hspread : (Disj.toTerms d).flatMap Term.spread = d) : (Disj.toTerm d).Writes d := by
  obtain ⟨p, hp⟩ : ∃ p, Term.total? (Disj.toTerms d) = some p := by
    cases d with
    | nil => exact absurd rfl hne
    | cons c cs =>
      rw [Disj.toTerms]
      exact ⟨_, rfl⟩
  rw [Disj.toTerm, hp, Option.getD_some]
  exact ⟨Term.tidy_total? hp htidy, (Term.spread_total? hp).trans hspread⟩

mutual

theorem Conj.writes_toTerm : (c : Conj) → c.Settled → c.toTerm.Writes [c]
  | ⟨vars, tables, preds, squash, negation⟩, hc => by
    obtain ⟨hsquash, hsquash'⟩ := Disj.writes_toTerm? squash hc.2.2.2.1
    obtain ⟨hnegation, hnegation'⟩ := Disj.writes_toTerm? negation hc.2.2.2.2
    rw [Conj.toTerm_eq]
    exact hc.writes hsquash hsquash' hnegation hnegation'

theorem Disj.writes_toTerm? : (o : Option (List Conj)) → Disj.SettledOption o →
    (Disj.toTerm? o).map Term.spread = o ∧ ∀ t ∈ Disj.toTerm? o, t.Tidy
  | none, _ => by
    rw [Disj.toTerm?]
    exact ⟨rfl, fun t ht => by cases ht⟩
  | some d, hd => by
    obtain ⟨htidy, hspread⟩ := Disj.writes_toTerms d hd.2
    obtain ⟨htidy', hspread'⟩ := Disj.writes_of_terms hd.1 htidy hspread
    rw [Disj.toTerm?]
    refine ⟨congrArg some hspread', fun t ht => ?_⟩
    cases ht
    exact htidy'

/-- What is written of a disjunction spreads into it again. -/
theorem Disj.writes_toTerms : (d : List Conj) → Disj.Settled d →
    (∀ t ∈ Disj.toTerms d, t.Tidy) ∧ (Disj.toTerms d).flatMap Term.spread = d
  | [], _ => by
    rw [Disj.toTerms]
    exact ⟨fun t ht => absurd ht not_mem_nil, rfl⟩
  | c :: cs, hd => by
    obtain ⟨htidy, hspread⟩ := Conj.writes_toTerm c hd.1
    obtain ⟨htidys, hspreads⟩ := Disj.writes_toTerms cs hd.2
    rw [Disj.toTerms, flatMap_cons, hspread, hspreads]
    exact ⟨forall_mem_cons.mpr ⟨htidy, htidys⟩, rfl⟩

end

/-- A settled disjunction is written as a tidy term that says it. -/
theorem Disj.writes_toTerm (hne : d ≠ []) (hd : Disj.Settled d) : d.toTerm.Writes d := by
  obtain ⟨htidy, hspread⟩ := Disj.writes_toTerms d hd
  exact Disj.writes_of_terms hne htidy hspread

/-! ## Relabeling -/

section Relabeled

variable (names : Nat → String)

variable {σ : Labels} {k : Nat}

theorem Disj.relabel_ne_nil (h : d ≠ []) :
    Disj.relabel names σ k d ≠ [] := by
  cases d with
  | nil => exact absurd rfl h
  | cons c cs =>
    rw [Disj.relabel]
    exact cons_ne_nil _ _

theorem Disj.mem_relabel {c' : Conj}
    (h : c' ∈ Disj.relabel names σ k d) : ∃ c ∈ d, ∃ k', c' = c.relabel names σ k' := by
  induction d generalizing k with
  | nil =>
    rw [Disj.relabel] at h
    cases h
  | cons c cs ih =>
    rw [Disj.relabel] at h
    rcases mem_cons.mp h with rfl | h
    · exact ⟨c, mem_cons_self, k, rfl⟩
    · obtain ⟨e, he, k', rfl⟩ := ih h
      exact ⟨e, mem_cons_of_mem _ he, k', rfl⟩

theorem Disj.relabelOption_eq_some {d' : Disj}
    (h : Disj.relabelOption names σ k o = some d') :
    ∃ d, o = some d ∧ d' = Disj.relabel names σ k d := by
  cases o with
  | none =>
    rw [Disj.relabelOption] at h
    cases h
  | some d =>
    rw [Disj.relabelOption] at h
    cases h
    exact ⟨d, rfl, rfl⟩

theorem Disj.relabelOption_eq_none :
    Disj.relabelOption names σ k o = none ↔ o = none := by
  cases o <;> simp [Disj.relabelOption]

theorem Conj.negatable_relabel {c : Conj} (h : c.Negatable) :
    (c.relabel names σ k).Negatable := by
  rw [Conj.relabel_eq]
  rcases h with h | ⟨hsquash, hnegation, hlen⟩
  · exact .inl fun hnil => h (map_eq_nil_iff.mp hnil)
  · refine .inr ⟨(Disj.relabelOption_eq_none names).mpr hsquash,
      (Disj.relabelOption_eq_none names).mpr hnegation, ?_⟩
    simpa [Conj.mapParts] using hlen

/-- New names for the binders keep what can stand under a squash. -/
theorem Disj.squashable_relabel (h : Disj.Squashable d) :
    Disj.Squashable (Disj.relabel names σ k d) := by
  intro c' hd hvars
  -- As many conjunctions as before: a single one comes from a single one.
  cases d with
  | nil =>
    rw [Disj.relabel] at hd
    cases hd
  | cons c cs =>
    cases cs with
    | cons e es =>
      rw [Disj.relabel, Disj.relabel] at hd
      cases hd
    | nil =>
      rw [Disj.relabel, Disj.relabel] at hd
      cases hd
      rw [Conj.relabel_eq] at hvars ⊢
      obtain ⟨hsquash, hatoms⟩ := h c rfl (map_eq_nil_iff.mp hvars)
      refine ⟨(Disj.relabelOption_eq_none names).mpr hsquash, ?_⟩
      simpa [Conj.mapParts] using hatoms

mutual

/-- New names for the binders change no shape of a conjunction. -/
theorem Conj.settled_relabel : (c : Conj) → c.Settled → ∀ (σ : Labels) (k : Nat),
    (c.relabel names σ k).Settled
  | ⟨vars, tables, preds, squash, negation⟩, hc, σ, k => by
    obtain ⟨hparts, hsq, hneg, hsettled, hsettled'⟩ := hc
    rw [Conj.relabel]
    refine ⟨?_, ?_, ?_, Disj.settledOption_relabelOption squash hsettled _ _,
      Disj.settledOption_relabelOption negation hsettled' _ _⟩
    · simpa [Disj.relabelOption_eq_none] using hparts
    · intro d' hd'
      obtain ⟨d, hd, rfl⟩ := Disj.relabelOption_eq_some names hd'
      exact Disj.squashable_relabel names (hsq d hd)
    · intro d' hd' c' hc'
      obtain ⟨d, hd, rfl⟩ := Disj.relabelOption_eq_some names hd'
      obtain ⟨c, hc, k', rfl⟩ := Disj.mem_relabel names hc'
      exact Conj.negatable_relabel names (hneg d hd c hc)

theorem Disj.settledOption_relabelOption : (o : Option (List Conj)) → Disj.SettledOption o →
    ∀ (σ : Labels) (k : Nat), Disj.SettledOption (Disj.relabelOption names σ k o)
  | none, _, _, _ => by
    rw [Disj.relabelOption]
    exact trivial
  | some d, hd, σ, k => by
    rw [Disj.relabelOption]
    exact ⟨Disj.relabel_ne_nil names hd.1, Disj.settled_relabel d hd.2 σ k⟩

/-- New names for the binders change no shape. -/
theorem Disj.settled_relabel : (d : List Conj) → Disj.Settled d → ∀ (σ : Labels) (k : Nat),
    Disj.Settled (Disj.relabel names σ k d)
  | [], _, _, _ => by
    rw [Disj.relabel]
    exact trivial
  | c :: cs, hd, σ, k => by
    rw [Disj.relabel]
    exact ⟨Conj.settled_relabel c hd.1 σ k, Disj.settled_relabel cs hd.2 σ _⟩

end

end Relabeled

end QueryRules
