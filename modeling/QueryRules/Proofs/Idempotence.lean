import QueryRules.Proofs.HereditaryForms
import QueryRules.Proofs.NegationShapes
import QueryRules.Proofs.ReductionSoundness
import QueryRules.Proofs.SettledForms

/-!
# QueryRules — normalization is idempotent

A normal form is written as a term by `Disj.toTerm`. Normalizing that term gives the normal form
back, although the second run starts anew with the first pass: it splits the negations that the
first run has merged, and it has laws that the last pass has not.

## The architecture

* **the first run** — its result is tidy (`Term.tidy_of_reduce`), so what it says is settled
  (`Term.Tidy.settled`), and a settled disjunction is written as a tidy term again
  (`Disj.writes_toTerm`).
* **the second run** — on a tidy term every step changes the grouping only, so the same disjunction
  is read afterwards (`Term.Tidy.ofTerm_reduce`).
* **names** — both runs end with `Disj.renameBound`, which done twice is done once
  (`Disj.renameBound_renameBound`). For this no variable may have the name of a tag. The names that
  the laws bring in begin with `u` (`Term.names_reduce`), and what is read has no others.
-/

namespace QueryRules

open List

/-! ## Names that a reduction brings in -/

/-- The supply hands out the same names as before, from a later number on. -/
def FreshNames.Continues (s s' : FreshNames) : Prop :=
  s'.stem = s.stem ∧ s'.taken = s.taken

namespace Law

theorem continues_renameClashing (clashes : Tuple → Bool) (vars : List Tuple) (body : Term)
    (s : FreshNames) : s.Continues (renameClashing clashes vars body s).2.2 := by
  induction vars generalizing body s with
  | nil => exact ⟨rfl, rfl⟩
  | cons v vs ih =>
    rw [renameClashing]
    split
    · exact ih (body.subst v (.var s.pick.1)) s.pick.2
    · exact ih body s

theorem continues_fire {law : Law} {t t' : Term} {s s' : FreshNames}
    (h : law.fire? s t = some (t', s')) : s.Continues s' := by
  unfold fire? at h
  split at h
  · cases h
    exact continues_renameClashing _ _ _ s
  · cases h
    exact continues_renameClashing _ _ _ s
  · cases h
    exact continues_renameClashing _ _ _ s
  · obtain ⟨new, -, heq⟩ := Option.map_eq_some_iff.mp h
    cases heq
    exact ⟨rfl, rfl⟩

end Law

namespace Term

theorem continues_reduce? {laws : List Law} {t : Term} {s : FreshNames} {f : Firing}
    (h : t.reduce? s laws = some f) : s.Continues f.fresh := by
  refine reduce?_induction (motive := fun _ f => s.Continues f.fresh) ?_ id id id id id id id h
  intro t f _ hfirst
  obtain ⟨-, law, -, -, hfire, -⟩ := Law.firstAt?_eq_some hfirst
  exact Law.continues_fire hfire

instance decidablePlainNames (t : Term) : Decidable (PlainNames t.uses) :=
  decidable_of_iff (∀ x ∈ t.varNames, IsPlain x)
    ⟨fun h x hx => h x (mem_collectNames.mpr (.inr hx)),
      fun h x hx => h x ((mem_collectNames.mp hx).resolve_left not_mem_nil)⟩

/-- The variables of a reduced term are those of the term and new ones from its supply. -/
theorem names_reduce {t t' : Term} (hbase : t.baseBinders = true) (h : t.reduce = .ok t') :
    t'.baseBinders = true ∧
      ∀ x, t'.uses (.var x) = true → t.uses (.var x) = true ∨ ∃ k : Nat, x = "u" ++ k.repr := by
  obtain ⟨p, hp, rfl⟩ := exists_reduceRecorded h
  have hready : p.term.Ready p.fresh :=
    Pass.runAll_keeps (P := fun u s => u.Ready s) (fun _ _ _ _ _ hf hu => ready_reduce? hu hf) hp
      (ready_freshFor hbase)
  have hfresh : (Law.freshFor t).Continues p.fresh := by
    refine Pass.runAll_keeps (P := fun _ s => (Law.freshFor t).Continues s) ?_ hp ⟨rfl, rfl⟩
    rintro laws - s u f hf ⟨hstem, htaken⟩
    obtain ⟨hstem', htaken'⟩ := continues_reduce? hf
    exact ⟨hstem'.trans hstem, htaken'.trans htaken⟩
  refine ⟨hready.binders, fun x hx => ?_⟩
  rcases hready.reserved x hx with htaken | ⟨k, -, hname⟩
  · rw [hfresh.2] at htaken
    have hused := mem_collectNames.mp htaken
    exact .inl (hused.resolve_left not_mem_nil)
  · refine .inr ⟨k, ?_⟩
    rw [hname, FreshNames.name, hfresh.1]
    rfl

end Term

/-! ## Names of what a term says -/

namespace Gathered

/-- Whether `v` occurs in a factor. -/
def Uses (g : Gathered) (v : Tuple) : Prop :=
  (∃ a ∈ g.tables, a.row.uses v = true) ∨ (∃ p ∈ g.preds, p.uses v = true) ∨
    (∃ d ∈ g.squashes, Disj.uses d v = true) ∨ Disj.uses g.negated v = true

variable {g g' : Gathered} {v : Tuple}

theorem Uses.of_append (h : (g.append g').Uses v) : g.Uses v ∨ g'.Uses v := by
  simp only [Uses, append, mem_append, or_and_right, exists_or, Disj.uses_iff] at h ⊢
  rcases h with (h | h) | (h | h) | (h | h) | h | h <;> simp only [h, true_or, or_true]

theorem Uses.of_toConj {vars : List Tuple} (h : (g.toConj vars).uses v = true) :
    v ∈ vars ∨ g.Uses v := by
  simp only [toConj, Conj.uses, Bool.or_eq_true, decide_eq_true_eq, any_eq_true] at h
  rcases h with (((hvars | htables) | hpreds) | hsquash) | hnegation
  · exact .inl hvars
  · exact .inr (.inl htables)
  · exact .inr (.inr (.inl hpreds))
  · cases hhead : g.squashes.head? with
    | none =>
      rw [hhead] at hsquash
      cases hsquash
    | some d =>
      rw [hhead] at hsquash
      exact .inr (.inr (.inr (.inl ⟨d, mem_of_mem_head? hhead, hsquash⟩)))
  · split at hnegation
    · cases hnegation
    · exact .inr (.inr (.inr (.inr hnegation)))

end Gathered

namespace Term

/-- What occurs in a conjunction that a term says, or in a factor of it, occurs in the term. -/
theorem uses_of_spread (t : Term) (v : Tuple) :
    (Disj.uses t.spread v = true → t.uses v = true) ∧ (t.gather.Uses v → t.uses v = true) := by
  -- A product says a single conjunction without binders.
  have hproduct : ∀ {t : Term}, t.IsProduct → (t.gather.Uses v → t.uses v = true) →
      (Disj.uses t.spread v = true → t.uses v = true) ∧ (t.gather.Uses v → t.uses v = true) := by
    intro t hp hg
    refine ⟨fun h => ?_, hg⟩
    rw [spread_of_isProduct hp] at h
    obtain ⟨c, hc, hcv⟩ := Disj.uses_iff.mp h
    rw [mem_singleton.mp hc] at hcv
    exact hg ((Gathered.Uses.of_toConj hcv).resolve_left not_mem_nil)
  induction t with
  | table n row =>
    refine hproduct (isProduct_of_isAtom rfl) fun h => ?_
    simpa [gather, Gathered.Uses, uses, Disj.uses] using h
  | pred n args | eq l r =>
    refine hproduct (isProduct_of_isAtom rfl) fun h => ?_
    simpa [gather, Gathered.Uses, uses, Disj.uses, PredAtom.uses] using h
  | mul l r ihl ihr =>
    refine hproduct (isProduct_mul l r) fun h => ?_
    rw [gather] at h
    rw [uses, Bool.or_eq_true]
    exact h.of_append.imp ihl.2 ihr.2
  | not t ih =>
    refine hproduct (isProduct_not t) fun h => ih.1 ?_
    simpa [gather, Gathered.Uses] using h
  | squash t ih =>
    refine hproduct (isProduct_squash t) fun h => ih.1 ?_
    simpa [gather, Gathered.Uses, Disj.uses] using h
  | add l r ihl ihr =>
    rw [spread, gather, uses, Bool.or_eq_true]
    refine ⟨fun h => ?_, fun h => ?_⟩
    · obtain ⟨c, hc, hcv⟩ := Disj.uses_iff.mp h
      exact (mem_append.mp hc).imp (fun hc => ihl.1 (Disj.uses_iff.mpr ⟨c, hc, hcv⟩))
        fun hc => ihr.1 (Disj.uses_iff.mpr ⟨c, hc, hcv⟩)
    · simp [Gathered.Uses, Gathered.empty, Disj.uses] at h
  | sum vars body ih =>
    rw [spread, gather, uses, Bool.or_eq_true, decide_eq_true_eq]
    refine ⟨fun h => ?_, fun h => ?_⟩
    · obtain ⟨c, hc, hcv⟩ := Disj.uses_iff.mp h
      rw [mem_singleton.mp hc] at hcv
      exact (Gathered.Uses.of_toConj hcv).imp id ih.2
    · simp [Gathered.Uses, Gathered.empty, Disj.uses] at h

end Term

/-! ## The second run -/

namespace Term

/-- The first half of normalization: a reduction whose result is read. -/
theorem exists_reduce_of_normalize {t : Term} {d : Disj} (h : t.normalize = .ok d) :
    ∃ t', t.reduce = .ok t' ∧ d = Disj.renameBound t'.spread := by
  unfold normalize at h
  cases hred : t.reduce with
  | error l =>
    rw [hred] at h
    cases h
  | ok t' =>
    obtain ⟨e, he⟩ := ofTerm_of_reduce hred
    -- The reader finds what the reduced term says.
    have hspread := (spread_readings t').1 e he
    rw [hred] at h
    change (Disj.ofTerm t').map Disj.renameBound = .ok d at h
    rw [he] at h
    cases h
    exact ⟨t', rfl, by rw [hspread]⟩

/-- Normalization within the step limit is a reduction within it. -/
theorem exists_reduce_of_within {t : Term} (h : ∀ l, t.normalize ≠ .error (.stepLimit l)) :
    ∃ t', t.reduce = .ok t' := by
  cases hred : t.reduce with
  | ok t' => exact ⟨t', rfl⟩
  | error l =>
    refine absurd ?_ (h l)
    unfold normalize
    rw [hred]
    rfl

/-- A tidy term is normalized by naming its bound variables. -/
theorem Tidy.normalize_eq {t t' : Term} (ht : t.Tidy) (h : t.reduce = .ok t') :
    t.normalize = .ok (Disj.renameBound t.spread) := by
  unfold normalize
  rw [h]
  change (Disj.ofTerm t').map Disj.renameBound = _
  rw [ht.ofTerm_reduce h]
  rfl

/-- **Normalization is idempotent.** Let every summation of a term have binders, all of them row
variables, and let no variable have the name of a tag. Then the normal form, written as a term, is
its own normal form, if it is normalized within the step limit. -/
theorem normalize_normalize {t : Term} {d : Disj} (hbase : t.baseBinders = true)
    (hbinders : t.hasBinders = true) (hplain : PlainNames t.uses) (h : t.normalize = .ok d)
    (hlimit : ∀ l, d.toTerm.normalize ≠ .error (.stepLimit l)) : d.toTerm.normalize = .ok d := by
  obtain ⟨t', hred, rfl⟩ := exists_reduce_of_normalize h
  obtain ⟨hbase', hnames⟩ := names_reduce hbase hred
  have htidy := tidy_of_reduce hbinders hred
  have hspread := baseBinders_spread hbase'
  have hplain' : PlainNames (Disj.uses t'.spread) := by
    intro x hx
    rcases hnames x ((uses_of_spread t' _).1 hx) with hused | ⟨k, rfl⟩
    · exact hplain x hused
    · -- A name that a law brought in begins with `u`.
      intro hhead
      rw [String.toList_append] at hhead
      simp at hhead
  -- The first run ends with a settled disjunction, and naming its variables keeps that.
  have hwrites : (Disj.renameBound t'.spread).toTerm.Writes (Disj.renameBound t'.spread) := by
    rw [Disj.renameBound_eq_relabel hspread hplain']
    exact Disj.writes_toTerm (Disj.relabel_ne_nil _ t'.spread_ne_nil)
      (Disj.settled_relabel _ _ htidy.settled.1 [] 0)
  -- The second run reads it back and names the variables once more.
  obtain ⟨t'', hred'⟩ := exists_reduce_of_within hlimit
  rw [hwrites.1.normalize_eq hred', hwrites.2, Disj.renameBound_renameBound hspread hplain']

/-- `Sum{x}(R(x) * not(S(x) + T(x0) * ||Sum{x}(U(x))||))`, times
`||not(not(A(x))) * Sum{y, y}(B(y))|| * not(C(x))`. -/
def mixedNegations : Term :=
  .mul
    (.sum [.var "x"] (.mul (.table "R" (.var "x"))
      (.not (.add (.table "S" (.var "x"))
        (.mul (.table "T" (.var "x0")) (.squash (.sum [.var "x"] (.table "U" (.var "x")))))))))
    (.mul
      (.squash (.mul (.not (.not (.table "A" (.var "x"))))
        (.sum [.var "y", .var "y"] (.table "B" (.var "y")))))
      (.not (.table "C" (.var "x"))))

/-- `Sum{x1}(R(x1) * ||c + d|| * not(S(x1) + C(x)))` with `Sum{x2, x2}(A(x) * B(x2) * not(T(x0)))`
for `c` and `Sum{x4, x4}(A(x) * B(x4) * not(Sum{x6}(U(x6))))` for `d`. -/
def mergedNegations : Disj :=
  [⟨[.var "x1"], [⟨"R", .var "x1"⟩], [],
    some [⟨[.var "x2", .var "x2"], [⟨"A", .var "x"⟩, ⟨"B", .var "x2"⟩], [], none,
        some [⟨[], [⟨"T", .var "x0"⟩], [], none, none⟩]⟩,
      ⟨[.var "x4", .var "x4"], [⟨"A", .var "x"⟩, ⟨"B", .var "x4"⟩], [], none,
        some [⟨[.var "x6"], [⟨"U", .var "x6"⟩], [], none, none⟩]⟩],
    some [⟨[], [⟨"S", .var "x1"⟩], [], none, none⟩, ⟨[], [⟨"C", .var "x"⟩], [], none, none⟩]⟩]

/-- Negations from both factors are merged, a binder is listed twice, the free variable `x` has the
name of binders, and `x0` is a canonical name that is skipped. -/
theorem normalize_normalize_merged :
    (mixedNegations.baseBinders = true ∧ mixedNegations.hasBinders = true ∧
      PlainNames mixedNegations.uses) ∧
      mixedNegations.normalize = .ok mergedNegations ∧
      mergedNegations.toTerm.normalize = .ok mergedNegations := by
  have hplain : PlainNames mixedNegations.uses := by decide +kernel
  have hnormalize : mixedNegations.normalize = .ok mergedNegations := by decide +kernel
  have hwithin : mergedNegations.toTerm.normalize.isOk = true := by decide +kernel
  refine ⟨⟨by decide, by decide, hplain⟩, hnormalize, ?_⟩
  refine normalize_normalize (by decide) (by decide) hplain hnormalize fun l hl => ?_
  rw [hl] at hwithin
  cases hwithin

end Term

end QueryRules
