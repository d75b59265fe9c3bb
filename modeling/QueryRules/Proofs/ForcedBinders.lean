import QueryRules.Proofs.DistinctBinders
import QueryRules.Proofs.NestedSteps
import QueryRules.Proofs.TupleCongruences

/-!
# QueryRules — eliminating binders that are forced

The equalities of a conjunction may force a bound variable to have the row of another tuple. Then
the variable is replaced by the tuple and its binder removed. `Disj.eliminateConstants` does so with
constant tuples and `Disj.eliminateUnranged` with variables over which no table ranges. Both keep
the value in every model and environment and bring in no free variable (`Disj.elimination_sound`).
-/

namespace QueryRules

universe u

namespace Conj

variable {c c' c'' : Conj} {v image : Tuple} {g : String} {scope : String → Prop}
  {find? : Conj → Option (Tuple × Tuple)}

/-! ## Forced binders -/

/-- The equalities of a conjunction force a binder to have the row of another tuple, in which it
does not occur. -/
structure Forced (c : Conj) (v image : Tuple) : Prop where
  bound : v ∈ c.vars
  other : image ≠ v
  apart : image.uses v = false
  alike : image ∈ (Congruence.ofPreds c.preds).classOf v

theorem forced_of_findForced? {eligible admissible : Tuple → Bool}
    (h : c.findForced? eligible admissible = some (v, image)) : c.Forced v image := by
  obtain ⟨w, hw, hfind⟩ := List.exists_of_findSome?_eq_some h
  split at hfind
  · obtain ⟨t, ht, heq⟩ := Option.map_eq_some_iff.mp hfind
    cases heq
    have hadmitted := List.find?_some ht
    simp only [Bool.and_eq_true, decide_eq_true_eq, Bool.not_eq_true'] at hadmitted
    exact ⟨hw, hadmitted.1.1, hadmitted.1.2, List.mem_of_find?_eq_some ht⟩
  · cases hfind

namespace Forced

theorem exists_var (h : c.Forced v image) (hc : Scoped scope c) : ∃ g, v = .var g := by
  obtain ⟨g, hg, -⟩ := hc.binders v h.bound
  exact ⟨g, hg⟩

/-- The image has the variables of equalities only, so they are in sight. -/
theorem sees (h : c.Forced (.var g) image) (hc : Scoped scope c) :
    ∀ x, image.uses (.var x) = true → (scope x ∨ .var x ∈ c.vars) ∧ x ≠ g := by
  intro x hx
  have hlisted := (Congruence.same_of_mem_classOf h.alike).2
  obtain ⟨p, hp, hused⟩ := Congruence.uses_of_mem_keys (hlisted h.other) hx
  obtain ⟨t, ht, hused⟩ := PredAtom.uses_iff.mp hused
  have hatom : t ∈ c.tuples := List.mem_append_right _ (List.mem_flatMap.mpr ⟨p, hp, ht⟩)
  refine ⟨hc.inside (.inl ⟨t, hatom, hused⟩), ?_⟩
  rintro rfl
  exact absurd hx (Bool.eq_false_iff.mp h.apart)

section Value

variable {D : Type*} [Fintype D] [DecidableEq D] {m : Model D}

/-- The sum over the rows of the binder has one term, that of the row of the image. -/
theorem sum_bodyValue (h : c.Forced (.var g) image) (env : Env D) :
    Env.sumBinders [.var g] (c.bodyValue m) env
      = c.bodyValue m (env.bind (.var g) (image.value m env)) := by
  have hsame := (Congruence.same_of_mem_classOf h.alike).1
  refine Finset.sum_eq_single (image.value m env) (fun d _ hd => ?_)
    fun hnot => absurd (Finset.mem_univ _) hnot
  show c.bodyValue m (env.bind (.var g) d) = 0
  by_contra hne
  -- Where the product is not zero, the equalities hold, and the image does not see the binder.
  have hrow := Congruence.value_eq_of_same (factors_ne_zero hne).2 hsame
  rw [Tuple.value_bind_of_not_uses m h.apart env d] at hrow
  have hd' : (Tuple.var g).value m (env.bind (.var g) d) = d := by simp [Tuple.value, Env.bind]
  exact hd (hd'.symm.trans hrow)

/-- A binder whose row is forced can be replaced by that row. -/
theorem value_eliminate (h : c.Forced (.var g) image) (hc : Scoped scope c) (hd : c.Distinct)
    (env : Env D) : (c.eliminate (.var g) image).toTerm.value m env = c.toTerm.value m env := by
  have hcount : c.vars.count (.var g) = 1 :=
    List.count_eq_one_of_mem ((hereditary_distinct c).mp hd).1 h.bound
  calc (c.eliminate (.var g) image).toTerm.value m env
      = Env.sumBinders (c.vars.filter (· ≠ .var g))
          (fun e => c.bodyValue m (e.bind (.var g) (image.value m e))) env :=
        hc.value_eliminate h.bound (h.sees hc) env
    _ = Env.sumBinders (c.vars.filter (· ≠ .var g)) (Env.sumBinders [.var g] (c.bodyValue m))
          env := by
        congr 1
        funext e
        exact (h.sum_bodyValue e).symm
    _ = Env.sumBinders c.vars (c.bodyValue m) env := Env.sumBinders_filter hcount _ env
    _ = c.toTerm.value m env := (Conj.value_toTerm m env c).symm

end Value

end Forced

/-! ## One conjunction -/

/-- A conjunction of the same scope that has the same value in every model and environment. -/
structure Preserves (scope : String → Prop) (c c' : Conj) : Prop where
  inScope : Scoped scope c'
  value : ∀ (D : Type u) [Fintype D] [DecidableEq D] (m : Model D) (env : Env D),
    c'.toTerm.value m env = c.toTerm.value m env

/-- What eliminating binders keeps at one level. The levels below need the binders to be distinct
again, and their number not to have changed. -/
structure Settles (scope : String → Prop) (c c' : Conj) : Prop
    extends Preserves.{u} scope c c' where
  distinct : c'.Distinct
  depth : c'.depth = c.depth

theorem Settles.refl (hc : Scoped scope c) (hd : c.Distinct) : Settles.{u} scope c c :=
  ⟨⟨hc, fun _ _ _ _ _ => rfl⟩, hd, rfl⟩

theorem Settles.trans (h : Settles.{u} scope c c') (h' : Settles.{u} scope c' c'') :
    Settles.{u} scope c c'' :=
  ⟨⟨h'.inScope, fun D _ _ m env => (h'.value D m env).trans (h.value D m env)⟩,
    h'.distinct, h'.depth.trans h.depth⟩

theorem Forced.settles (h : c.Forced v image) (hc : Scoped scope c) (hd : c.Distinct) :
    Settles.{u} scope c (c.eliminate v image) := by
  obtain ⟨g, rfl⟩ := h.exists_var hc
  refine ⟨⟨hc.eliminate h.bound (h.sees hc), fun D _ _ m env => h.value_eliminate hc hd env⟩,
    hd.eliminate hc h.bound image, ?_⟩
  rw [eliminate, depth_subst, depth_eq, depth_eq]

/-- A run of eliminations. Induction on the rounds; each ends with what the next one needs. -/
theorem settles_eliminateAll (hfind : ∀ c v image, find? c = some (v, image) → c.Forced v image)
    (rounds : Nat) (hc : Scoped scope c) (hd : c.Distinct) :
    Settles.{u} scope c (eliminateAll find? rounds c) := by
  induction rounds generalizing c with
  | zero => exact .refl hc hd
  | succ rounds ih =>
    rw [eliminateAll]
    split
    · exact .refl hc hd
    · next v image hfound =>
      have hstep : Settles.{u} scope c (c.eliminate v image) :=
        (hfind c v image hfound).settles hc hd
      exact hstep.trans (ih hstep.inScope hstep.distinct)

theorem settles_settle (hfind : ∀ c v image, find? c = some (v, image) → c.Forced v image)
    (hc : Scoped scope c) (hd : c.Distinct) : Settles.{u} scope c (c.settle find?) := by
  have hrun : Settles.{u} scope c (eliminateAll find? c.vars.length c) :=
    settles_eliminateAll hfind c.vars.length hc hd
  exact hrun.trans ⟨⟨hrun.inScope.dropTrivial, fun D _ _ m env => value_dropTrivial env _⟩,
    hrun.distinct.dropTrivial, depth_dropTrivial _⟩

/-! ## All levels -/

/-- Eliminating binders at all levels keeps the scope and the value. -/
theorem descend_settle (hfind : ∀ c v image, find? c = some (v, image) → c.Forced v image)
    (levels : Nat) : ∀ {c c' : Conj} {scope : String → Prop},
      c.descend (fun c => (.ok (c.settle find?) : Except Empty Conj)) levels = .ok c' →
      c.depth ≤ levels → Scoped scope c → c.Distinct → Preserves.{u} scope c c' := by
  -- The step changes what is nested, too, so the levels below start from a conjunction that is
  -- scoped and has distinct binders again.
  induction levels using Nat.strong_induction_on with
  | _ levels ih =>
    intro c c' scope h hdepth hc hd
    have hsettled : Settles.{u} scope c (c.settle find?) := settles_settle hfind hc hd
    obtain ⟨c₁, hstep, hreworked⟩ := descend_inv h fun c₁ hc₁ => by
      cases hc₁
      rw [hsettled.depth]
      exact hdepth
    cases hstep
    -- The binders left by the step are in scope below; those it removed have no occurrence there.
    have hbelow : ∀ d, (c.settle find?).Nests d → ∀ e ∈ d, ∀ e', (∃ fewer < levels,
        e.depth ≤ fewer ∧ e.descend (fun c => (.ok (c.settle find?) : Except Empty Conj)) fewer
          = .ok e') → Preserves.{u} (fun x => scope x ∨ .var x ∈ (c.settle find?).vars) e e' := by
      rintro d hnests e he e' ⟨fewer, hlt, hedepth, hwork⟩
      exact ih fewer hlt hwork hedepth (hsettled.inScope.nested hnests he)
        (((hereditary_distinct _).mp hsettled.distinct).2 d hnests e he)
    refine ⟨hreworked.keeps_scope hsettled.inScope fun d hnests e he e' hwork =>
      (hbelow d hnests e he e' hwork).inScope, fun D _ _ m env => ?_⟩
    rw [← hsettled.value D m env]
    exact hreworked.keeps_value (fun d hnests e he e' hwork =>
      (hbelow d hnests e he e' hwork).value D m) env

end Conj

namespace Disj

/-- Eliminating what a search finds to be forced, in a normal form. -/
theorem settle_sound {find? : Conj → Option (Tuple × Tuple)}
    (hfind : ∀ c v image, find? c = some (v, image) → c.Forced v image) {t : Term} {d : Disj}
    (hbase : t.baseBinders = true) (hdistinct : t.distinctBinders = true)
    (hplain : PlainNames t.uses) (hd : t.normalize = .ok d) {e : Disj}
    (he : e = Id.run (d.descend fun c => pure (c.settle find?))) :
    (∀ x ∈ e.freeNames, x ∈ d.freeNames) ∧
      ∀ (D : Type u) [Fintype D] [DecidableEq D] (m : Model D) (env : Env D),
        e.toTerm.value m env = d.toTerm.value m env := by
  have hscoped := Term.scoped_of_normalize hbase hplain hd
  have hlisted := Term.distinct_of_normalize hbase hdistinct hplain hd
  have hdescend : d.mapM (fun c => c.descend
      (fun c => (.ok (c.settle find?) : Except Empty Conj)) c.depth) = .ok e := by
    rw [he]
    exact Conj.mapM_pure (fun c => Conj.descend_pure _ c.depth c) d
  have hrel := Conj.forall₂_of_mapM (R := Conj.Preserves.{u} (Disj.Free · d)) hdescend
      fun c hc c' hwork =>
    Conj.descend_settle hfind c.depth hwork (Nat.le_refl _) (hscoped c hc) (hlisted c hc)
  simp only [mem_freeNames]
  refine ⟨fun x hx => ?_, fun D _ _ m env => ?_⟩
  · obtain ⟨c', hc', hx⟩ := free_iff.mp hx
    obtain ⟨c, -, hc⟩ := Conj.exists_of_forall₂ hrel hc'
    exact hc.inScope.scope_of_free hx
  · exact Conj.value_of_forall₂ hrel fun c _ c' hc => hc.value D m env

/-- **Eliminating forced binders.** Let a disjunction be the normal form of a term over row
variables, none of which is listed twice by a summation or has the name of a tag. Replacing bound
variables that are forced to be constant, whatever the constants are, and replacing those over which
no table ranges, both give a disjunction with no new free variable and with the same value in every
model and environment. -/
theorem elimination_sound {t : Term} {d : Disj} (hbase : t.baseBinders = true)
    (hdistinct : t.distinctBinders = true) (hplain : PlainNames t.uses) (hd : t.normalize = .ok d)
    (consts : Constants) :
    ((∀ x ∈ (d.eliminateConstants consts).freeNames, x ∈ d.freeNames) ∧
      ∀ (D : Type u) [Fintype D] [DecidableEq D] (m : Model D) (env : Env D),
        (d.eliminateConstants consts).toTerm.value m env = d.toTerm.value m env) ∧
    ((∀ x ∈ d.eliminateUnranged.freeNames, x ∈ d.freeNames) ∧
      ∀ (D : Type u) [Fintype D] [DecidableEq D] (m : Model D) (env : Env D),
        d.eliminateUnranged.toTerm.value m env = d.toTerm.value m env) :=
  ⟨settle_sound (fun _ _ _ h => Conj.forced_of_findForced? h) hbase hdistinct hplain hd rfl,
    settle_sound (fun _ _ _ h => Conj.forced_of_findForced? h) hbase hdistinct hplain hd rfl⟩

/-- `Sum{x, y}(R(y) * [x = y.a] * [y = k] * not(Sum{z}(R(z) * [z = x.b] * P(z, x))))`. -/
def forcedRows : Term :=
  .sum [.var "x", .var "y"] (.mul (.table "R" (.var "y"))
    (.mul (.eq (.var "x") (.attr (.var "y") "a")) (.mul (.eq (.var "y") (.var "k"))
      (.not (.sum [.var "z"] (.mul (.table "R" (.var "z"))
        (.mul (.eq (.var "z") (.attr (.var "x") "b")) (.pred "P" [.var "z", .var "x"]))))))))

/-- Its normal form, with `x0`, `x1` and `x2` for `x`, `y` and `z`. -/
def forced : Conj :=
  ⟨[.var "x0", .var "x1"], [⟨"R", .var "x1"⟩],
    [.eq (.var "x0") (.attr (.var "x1") "a"), .eq (.var "x1") (.var "k")], none,
    some [⟨[.var "x2"], [⟨"R", .var "x2"⟩],
      [.eq (.var "x2") (.attr (.var "x0") "b"), .pred "P" [.var "x2", .var "x0"]], none, none⟩]⟩

/-- `R(k) * not(R(k.a.b) * P(k.a.b, k.a))`. -/
def forcedToConstants : Conj :=
  ⟨[], [⟨"R", .var "k"⟩], [], none,
    some [⟨[], [⟨"R", .attr (.attr (.var "k") "a") "b"⟩],
      [.pred "P" [.attr (.attr (.var "k") "a") "b", .attr (.var "k") "a"]], none, none⟩]⟩

/-- `Sum{x1}(R(x1) * [x1 = k] * not(Sum{x2}(R(x2) * [x2 = x1.a.b] * P(x2, x1.a))))`. -/
def forcedToRanged : Conj :=
  ⟨[.var "x1"], [⟨"R", .var "x1"⟩], [.eq (.var "x1") (.var "k")], none,
    some [⟨[.var "x2"], [⟨"R", .var "x2"⟩],
      [.eq (.var "x2") (.attr (.attr (.var "x1") "a") "b"),
        .pred "P" [.var "x2", .attr (.var "x1") "a"]], none, none⟩]⟩

/-- With `k` constant all three binders go, the one below the negation because of the two above.
Without constants only `x` goes, and it stands below the negation, too. -/
theorem elimination_sound_forced :
    (forcedRows.baseBinders = true ∧ forcedRows.distinctBinders = true ∧
      PlainNames forcedRows.uses ∧ forcedRows.normalize = .ok [forced] ∧
      eliminateConstants [forced] (.ofList [.var "k"]) = [forcedToConstants] ∧
      eliminateUnranged [forced] = [forcedToRanged]) ∧
    ∀ (D : Type) [Fintype D] [DecidableEq D] (m : Model D) (env : Env D),
      Term.value m (Disj.toTerm [forcedToConstants]) env = Term.value m (Disj.toTerm [forced]) env ∧
      Term.value m (Disj.toTerm [forcedToRanged]) env =
        Term.value m (Disj.toTerm [forced]) env := by
  have hplain : PlainNames forcedRows.uses := by decide +kernel
  have hnormal : forcedRows.normalize = .ok [forced] := by decide +kernel
  have hconsts : eliminateConstants [forced] (.ofList [.var "k"]) = [forcedToConstants] := by
    decide +kernel
  have hranged : eliminateUnranged [forced] = [forcedToRanged] := by decide +kernel
  refine ⟨⟨by decide, by decide, hplain, hnormal, hconsts, hranged⟩, fun D _ _ m env => ?_⟩
  obtain ⟨⟨-, hvalue⟩, -, hvalue'⟩ :=
    elimination_sound (by decide) (by decide) hplain hnormal (.ofList [.var "k"])
  rw [← hconsts, ← hranged]
  exact ⟨hvalue D m env, hvalue' D m env⟩

end Disj

end QueryRules
