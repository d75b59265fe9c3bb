import QueryRules.Proofs.ScopedForms

/-!
# QueryRules — dropping predicates that a table implies

Where a row is in a table, its columns that are declared to be never null are not null. So
`[NotNull(t.c)]` may be dropped next to `R(t)`, and also in what is squashed or negated there. In a
normal form this keeps the value wherever the declarations hold (`Disj.dropNotNull_sound`).

A predicate at some level is dropped because of an atom further out, which is a factor of a product
around it. The induction on the levels carries both that these atoms are not zero in the environment
at hand and that their variables are in scope. The first is there because a product with a zero
among its tables does not depend on its other factors. The second makes sure that no binder on the
way down changes an atom: binders of a scoped conjunction are not in scope. Nothing is said about
the sign of what is nested, so it does not matter whether that is negated.
-/

namespace QueryRules

open List

/-- The declarations of columns that are never null hold in a model: the predicate holds of the
column of every row of the table. -/
def Model.Filled {D : Type*} (m : Model D) (facts : Facts) : Prop :=
  ∀ nn ∈ facts.notNull, ∀ d, m.table nn.table d ≠ 0 →
    m.pred Term.notNullName [m.attr nn.column d] = true

/-! ## The parts of the result -/

theorem Disj.dropImpliedIn_eq_map (facts : Facts) (scope : TableScope) (d : Disj) :
    Disj.dropImpliedIn facts scope d = d.map (Conj.dropImplied facts scope) := by
  induction d with
  | nil => rfl
  | cons c cs ih => rw [Disj.dropImpliedIn, ih, map_cons]

theorem Disj.dropImpliedOption_eq_map (facts : Facts) (scope : TableScope) (o : Option Disj) :
    Disj.dropImpliedOption facts scope o = o.map fun d => d.map (Conj.dropImplied facts scope) := by
  cases o with
  | none => rfl
  | some d => exact congrArg some (Disj.dropImpliedIn_eq_map facts scope d)

/-- What is implied is a predicate on a column of the row that an atom in scope is about. -/
theorem TableScope.exists_of_implies {scope : TableScope} {facts : Facts} {p : PredAtom}
    (h : scope.implies facts p = true) : ∃ a ∈ scope, ∃ nn ∈ facts.notNull,
      nn.table = a.name ∧ p = .pred Term.notNullName [.attr a.row nn.column] := by
  unfold implies at h
  split at h
  · next name base column =>
    simp only [Bool.and_eq_true, beq_iff_eq, any_eq_true, decide_eq_true_eq,
      Facts.isNotNull] at h
    obtain ⟨rfl, a, ha, rfl, nn, hnn, hname, rfl⟩ := h
    exact ⟨a, ha, nn, hnn, hname, rfl⟩
  · cases h

section Value

variable {D : Type*} [Fintype D] [DecidableEq D] {m : Model D} {facts : Facts}

theorem TableScope.value_of_implies {scope : TableScope} {p : PredAtom} {env : Env D}
    (hm : m.Filled facts) (hscope : ∀ a ∈ scope, a.toTerm.value m env ≠ 0)
    (h : scope.implies facts p = true) : p.toTerm.value m env = 1 := by
  obtain ⟨a, ha, nn, hnn, hname, rfl⟩ := exists_of_implies h
  refine if_pos (hm nn hnn (a.row.value m env) ?_)
  rw [hname]
  exact hscope a ha

namespace Conj

variable {scope : String → Prop} {outer : TableScope} {c : Conj} {env : Env D}

/-- Dropping predicates that are one keeps their product. -/
theorem prod_preds_dropImplied (himplied : ∀ p ∈ c.preds,
      (outer.enter c.vars c.tables).implies facts p = true → p.toTerm.value m env = 1) :
    ((c.dropImplied facts outer).preds.map fun p => p.toTerm.value m env).prod
      = (c.preds.map fun p => p.toTerm.value m env).prod := by
  obtain ⟨vars, tables, preds, squash, negation⟩ := c
  have hkept : ∀ ps : List PredAtom, (∀ p ∈ ps, p ∈ preds) →
      ((ps.filter fun p => !(outer.enter vars tables).implies facts p).map
        fun p => p.toTerm.value m env).prod = (ps.map fun p => p.toTerm.value m env).prod := by
    intro ps hps
    induction ps with
    | nil => rfl
    | cons p ps ih =>
      have hrest := ih fun q hq => hps q (mem_cons_of_mem _ hq)
      cases himp : (outer.enter vars tables).implies facts p with
      | true =>
        have hone := himplied p (hps p mem_cons_self) himp
        rw [filter_cons_of_neg (by simp [himp]), hrest, map_cons, prod_cons, hone,
          Nat.one_mul]
      | false =>
        rw [filter_cons_of_pos (by simp [himp]), map_cons, prod_cons, hrest,
          map_cons, prod_cons]
  rw [dropImplied]
  dsimp only
  split
  · rfl
  · rw [prod_withPreds]
    exact hkept preds fun _ hp => hp

/-- What dropping implied predicates does to the other parts. -/
theorem dropImplied_parts (facts : Facts) (outer : TableScope) (c : Conj) :
    (c.dropImplied facts outer).vars = c.vars ∧ (c.dropImplied facts outer).tables = c.tables ∧
      (c.dropImplied facts outer).squash
        = c.squash.map (List.map (dropImplied facts (outer.enter c.vars c.tables))) ∧
      (c.dropImplied facts outer).negation
        = c.negation.map (List.map (dropImplied facts (outer.enter c.vars c.tables))) := by
  obtain ⟨vars, tables, preds, squash, negation⟩ := c
  rw [dropImplied]
  exact ⟨rfl, rfl, Disj.dropImpliedOption_eq_map _ _ _, Disj.dropImpliedOption_eq_map _ _ _⟩

/-! ## All levels -/

/-- The atoms around have their variables in scope and are not zero. -/
structure Guarded (m : Model D) (scope : String → Prop) (outer : TableScope) (env : Env D) :
    Prop where
  sees : ∀ a ∈ outer, ∀ x, a.row.uses (.var x) = true → scope x
  holds : ∀ a ∈ outer, a.toTerm.value m env ≠ 0

/-- Going below binders: the atoms around are not affected, those of the conjunction are added. -/
theorem Guarded.enter {e : Env D} (h : Guarded m scope outer env) (hc : Scoped scope c)
    (he : env.AgreesOff c.vars e) (htables : ∀ a ∈ c.tables, a.toTerm.value m e ≠ 0) :
    Guarded m (fun x => scope x ∨ .var x ∈ c.vars) (outer.enter c.vars c.tables) e := by
  refine ⟨fun a ha x hx => ?_, fun a ha => ?_⟩
  · rcases mem_append.mp ha with ha | ha
    · exact .inl (h.sees a (mem_of_mem_filter ha) x hx)
    · exact hc.inside (.inl ⟨a.row, mem_append_left _ (mem_map_of_mem ha), hx⟩)
  · rcases mem_append.mp ha with ha | ha
    · have houter := mem_of_mem_filter ha
      -- No variable of the atom is bound on the way.
      have hrow : a.row.value m e = a.row.value m env := Tuple.value_congr m a.row fun x hx =>
        he x (hc.not_mem (h.sees a houter x hx))
      show m.table a.name (a.row.value m e) ≠ 0
      rw [hrow]
      exact h.holds a houter
    · exact htables a ha

/-- **Dropping implied predicates keeps the value** where the atoms around are not zero. Induction
on the levels. A product with a zero among its tables is zero before and after; in any other the
tables join the atoms around. -/
theorem Scoped.value_dropImplied (hm : m.Filled facts) (hc : Scoped scope c)
    (h : Guarded m scope outer env) :
    (c.dropImplied facts outer).toTerm.value m env = c.toTerm.value m env := by
  induction hc generalizing outer env with
  | @intro scope c binders inside nested ih =>
    have hc : Scoped scope c := .intro binders inside nested
    obtain ⟨hvars, htables, hsquash, hnegation⟩ := dropImplied_parts facts outer c
    rw [Conj.value_toTerm, Conj.value_toTerm, hvars]
    refine Env.sumBinders_congr fun e he => ?_
    -- Where an atom has no row, both sides are zero. Elsewhere the facts apply.
    by_cases hzero : ∃ a ∈ c.tables, a.toTerm.value m e = 0
    · obtain ⟨a, ha, hzero⟩ := hzero
      have hvanish : ∀ {c' : Conj}, c'.tables = c.tables → c'.bodyValue m e = 0 := by
        intro c' htables
        by_contra hne
        exact (factors_ne_zero hne).1 a (htables ▸ ha) hzero
      rw [hvanish htables, hvanish rfl]
    · have hinner := h.enter hc he fun a ha ha0 => hzero ⟨a, ha, ha0⟩
      have hbelow : ∀ o : Option Disj, (∀ d, o = some d → c.Nests d) →
          (o.map (List.map (dropImplied facts (outer.enter c.vars c.tables)))).map
              (fun d => Term.value m (Disj.toTerm d) e)
            = o.map fun d => Term.value m (Disj.toTerm d) e := by
        intro o ho
        rw [Option.map_map]
        refine Option.map_congr fun d hd => ?_
        show Term.value m (Disj.toTerm (d.map _)) e = _
        rw [Disj.value_toTerm, Disj.value_toTerm, map_map]
        refine congrArg List.sum (map_congr_left fun c' hc' => ?_)
        exact ih d (ho d hd) c' hc' hinner
      refine bodyValue_congr (by rw [htables]) (prod_preds_dropImplied fun p _ himp => ?_) ?_ ?_
      · exact TableScope.value_of_implies hm hinner.holds himp
      · rw [hsquash]
        exact hbelow c.squash fun d hd => .inl hd
      · rw [hnegation]
        exact hbelow c.negation fun d hd => .inr hd

end Conj

end Value

namespace Disj

/-- **Dropping predicates that say what is declared.** Let a disjunction be the normal form of a
term over row variables, none of which has the name of a tag. Dropping every predicate that a column
is not null, where a table atom in scope has the column and the column is declared to be never null,
keeps the value in every environment and every model in which the declarations hold. -/
theorem dropNotNull_sound {t : Term} {d : Disj} (hbase : t.baseBinders = true)
    (hplain : PlainNames t.uses) (hd : t.normalize = .ok d) (facts : Facts) (D : Type*) [Fintype D]
    [DecidableEq D] (m : Model D) (hm : m.Filled facts) (env : Env D) :
    (d.dropNotNull facts).toTerm.value m env = d.toTerm.value m env := by
  have hscoped := Term.scoped_of_normalize hbase hplain hd
  unfold dropNotNull
  split
  · rfl
  · rw [dropImpliedIn_eq_map, value_toTerm, value_toTerm, map_map]
    refine congrArg List.sum (map_congr_left fun c hc => ?_)
    refine (hscoped c hc).value_dropImplied hm ⟨fun a ha => ?_, fun a ha => ?_⟩
    · exact absurd ha not_mem_nil
    · exact absurd ha not_mem_nil

/-- `Sum{x}(R(x) * [NotNull(x.a)] * not(n))` with
`Sum{y}(S(y.s) * [NotNull(x.b)] * [NotNull(y.s.c)] * P(y.d))` for `n`. -/
def checkedRows : Term :=
  .sum [.var "x"] (.mul (.table "R" (.var "x")) (.mul (.notNull (.attr (.var "x") "a"))
    (.not (.sum [.var "y"] (.mul (.table "S" (.attr (.var "y") "s"))
      (.mul (.notNull (.attr (.var "x") "b")) (.mul (.notNull (.attr (.attr (.var "y") "s") "c"))
        (.pred "P" [.attr (.var "y") "d"]))))))))

/-- Its normal form, with `x0` and `x1` for `x` and `y`. -/
def checked : Conj :=
  ⟨[.var "x0"], [⟨"R", .var "x0"⟩], [.pred "NotNull" [.attr (.var "x0") "a"]], none,
    some [⟨[.var "x1"], [⟨"S", .attr (.var "x1") "s"⟩],
      [.pred "NotNull" [.attr (.var "x0") "b"],
        .pred "NotNull" [.attr (.attr (.var "x1") "s") "c"],
        .pred "P" [.attr (.var "x1") "d"]], none, none⟩]⟩

/-- `Sum{x0}(R(x0) * not(Sum{x1}(S(x1.s) * P(x1.d))))`. -/
def unchecked : Conj :=
  ⟨[.var "x0"], [⟨"R", .var "x0"⟩], [], none,
    some [⟨[.var "x1"], [⟨"S", .attr (.var "x1") "s"⟩], [.pred "P" [.attr (.var "x1") "d"]], none,
      none⟩]⟩

/-- The columns `a` and `b` of `R` and `c` of `S` are never null. -/
def filledColumns : Facts :=
  ⟨[], [], [⟨"R", "a"⟩, ⟨"R", "b"⟩, ⟨"S", "c"⟩]⟩

/-- A row that is in all tables, and null; both are their own columns. -/
def filledRows : Model Bool :=
  ⟨fun _ => false, fun _ d => d, fun _ _ => false, fun _ d => d.toNat,
    fun n ds => n == Term.notNullName && ds == [true], fun _ => rfl⟩

/-- Below the negation one predicate is implied by the atom there, whose row is a column, and one by
the atom around. -/
theorem dropNotNull_sound_checked :
    (checkedRows.baseBinders = true ∧ PlainNames checkedRows.uses ∧
      checkedRows.normalize = .ok [checked] ∧ dropNotNull [checked] filledColumns = [unchecked] ∧
      filledRows.Filled filledColumns) ∧
      Term.value filledRows (Disj.toTerm [checked]) (fun _ => false) = 1 ∧
      Term.value filledRows (Disj.toTerm [unchecked]) (fun _ => false) = 1 := by
  have hplain : PlainNames checkedRows.uses := by decide +kernel
  have hnormal : checkedRows.normalize = .ok [checked] := by decide +kernel
  have hdropped : dropNotNull [checked] filledColumns = [unchecked] := by decide +kernel
  have hfilled : filledRows.Filled filledColumns := by
    unfold Model.Filled
    decide
  have hvalue : Term.value filledRows (Disj.toTerm [checked]) (fun _ => false) = 1 := by
    decide +kernel
  have hsound := dropNotNull_sound (by decide) hplain hnormal filledColumns Bool filledRows hfilled
  refine ⟨⟨by decide, hplain, hnormal, hdropped, hfilled⟩, hvalue, ?_⟩
  rw [← hdropped, hsound, hvalue]

end Disj

end QueryRules
