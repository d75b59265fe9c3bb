import QueryRules.Proofs.KeyedMerges
import QueryRules.Proofs.NormalizedValues

/-!
# QueryRules — conjunctions that count at most one row

If all atoms of a conjunction are over one table, every binder is the row of one, and a unique key
of the table is constant in every row, then at most one choice of rows gives a product other than
zero, and that product is one. So the conjunction is zero or one, and squashing it keeps its value
(`Conj.squashed_sound`).
-/

namespace QueryRules

open List

/-! ## Constants -/

namespace Constants

variable {consts : Constants} {x : String}

mutual

/-- The variables of a constant tuple are listed. -/
theorem mem_of_isConstant : (t : Tuple) → consts.isConstant t = true →
    t.uses (.var x) = true → .var x ∈ consts.tuples
  | .const c, _, hx => by cases hx
  | .var n, h, hx => by
    have hn : n = x := by simpa [Tuple.uses] using hx
    rw [← hn]
    exact of_decide_eq_true h
  | .attr base a, h, hx => mem_of_isConstant base h (by simpa [Tuple.uses] using hx)
  | .call f args, h, hx => mem_of_areConstant args h (by simpa [Tuple.uses] using hx)

theorem mem_of_areConstant : (ts : List Tuple) → consts.areConstant ts = true →
    Tuple.anyUses ts (.var x) = true → .var x ∈ consts.tuples
  | [], _, hx => by cases hx
  | t :: ts, h, hx => by
    obtain ⟨ht, hts⟩ := Bool.and_eq_true_iff.mp h
    rcases Bool.or_eq_true_iff.mp hx with hx | hx
    · exact mem_of_isConstant t ht hx
    · exact mem_of_areConstant ts hts hx

end

end Constants

/-! ## Sums of at most one term -/

namespace Env

variable {D : Type*} [Fintype D] {vs : List Tuple} {f : Env D → Nat} {env : Env D}

theorem exists_of_sumBinders_ne_zero (h : sumBinders vs f env ≠ 0) :
    ∃ e, AgreesOff vs env e ∧ f e ≠ 0 := by
  induction vs generalizing env with
  | nil => exact ⟨env, fun _ _ => rfl, h⟩
  | cons v vs ih =>
    obtain ⟨d, -, hd⟩ := Finset.exists_ne_zero_of_sum_ne_zero h
    obtain ⟨e, he, hne⟩ := ih hd
    exact ⟨e, he.of_bind, hne⟩

/-- A sum is one at most if its terms are, and no two environments have a term other than zero.
Induction on the binders: two rows of the first one with a sum other than zero belong to two such
environments, which are one, and the binder does not come again. -/
theorem sumBinders_le_one (hvars : ∀ v ∈ vs, ∃ x, v = .var x) (hnodup : vs.Nodup)
    (hle : ∀ e, f e ≤ 1)
    (hunique : ∀ e e', AgreesOff vs env e → AgreesOff vs env e' → f e ≠ 0 → f e' ≠ 0 → e = e') :
    sumBinders vs f env ≤ 1 := by
  induction vs generalizing env with
  | nil => exact hle env
  | cons v vs ih =>
    obtain ⟨y, rfl⟩ := hvars v mem_cons_self
    obtain ⟨hy, hvs⟩ := nodup_cons.mp hnodup
    have hterm : ∀ d, sumBinders vs f (env.bind (.var y) d) ≤ 1 := fun d =>
      ih (fun w hw => hvars w (mem_cons_of_mem _ hw)) hvs fun e e' he he' =>
        hunique e e' he.of_bind he'.of_bind
    have hrow : ∀ {d e}, AgreesOff vs (env.bind (.var y) d) e → e y = d := by
      intro d e he
      rw [he y hy]
      simp [Env.bind]
    show ∑ d, sumBinders vs f (env.bind (.var y) d) ≤ 1
    by_cases hzero : ∀ d, sumBinders vs f (env.bind (.var y) d) = 0
    · rw [Finset.sum_eq_zero fun d _ => hzero d]
      exact Nat.zero_le 1
    -- Two rows that count would be the same row, so one summand is left.
    · obtain ⟨d, hd⟩ := not_forall.mp hzero
      rw [Finset.sum_eq_single_of_mem d (Finset.mem_univ d) fun d' _ hd' => ?_]
      · exact hterm d
      · by_contra hne
        obtain ⟨e, he, hfe⟩ := exists_of_sumBinders_ne_zero hd
        obtain ⟨e', he', hfe'⟩ := exists_of_sumBinders_ne_zero hne
        have heq := hunique e e' he.of_bind he'.of_bind hfe hfe'
        exact hd' (by rw [← hrow he', ← heq, hrow he])

end Env

/-! ## Keys that are constant -/

namespace Conj

variable {facts : Facts} {consts : Constants} {c s : Conj} {uk : UniqueKey}

/-- All atoms are over the table of a unique key, every binder is the row of one, and every column
of the key is equivalent to a constant in each of them. -/
structure Pinned (facts : Facts) (consts : Constants) (c : Conj) (uk : UniqueKey) : Prop where
  key : uk ∈ facts.uniqueKeys
  tables : ∀ a ∈ c.tables, a.name = uk.table
  covered : ∀ v ∈ c.vars, ∃ a ∈ c.tables, a.row = v
  constant : ∀ a ∈ c.tables, ∀ col ∈ uk.columns,
    ∃ t ∈ (Congruence.ofPreds c.preds).classOf (a.row.project col), consts.isConstant t = true

/-- The test finds a unique key that is constant. -/
theorem exists_pinned (h : c.isKeyedByConstant facts consts = true) :
    ∃ uk, c.Pinned facts consts uk := by
  unfold isKeyedByConstant at h
  split at h
  · cases h
  · next a rest htables =>
    simp only [Bool.and_eq_true, all_eq_true, any_eq_true, decide_eq_true_eq] at h
    -- That the rows are bound here is not needed: a row around the binders is one row anyway.
    obtain ⟨⟨⟨hnames, -⟩, hcovered⟩, uk, huk, -, hconstant⟩ := h
    obtain ⟨hkey, htable⟩ := mem_filter.mp huk
    have hname : uk.table = a.name := of_decide_eq_true htable
    refine ⟨uk, hkey, fun b hb => ?_, fun v hv => ?_, fun b hb col hcol => ?_⟩
    · rw [htables] at hb
      rw [hname]
      rcases mem_cons.mp hb with rfl | hb
      · rfl
      · exact hnames b hb
    · exact mem_map.mp (hcovered v hv)
    · exact hconstant b.row (mem_map_of_mem hb) col hcol

namespace Pinned

variable {D : Type*} [Fintype D] [DecidableEq D] {m : Model D} {env e e' : Env D}

/-- Every factor of the product is one at most. -/
theorem bodyValue_le_one (h : c.Pinned facts consts uk) (hm : m.Keyed facts) (env : Env D) :
    c.bodyValue m env ≤ 1 := by
  have hprod : ∀ {α : Type} {f : α → Nat} {as : List α}, (∀ a ∈ as, f a ≤ 1) →
      (as.map f).prod ≤ 1 := by
    intro α f as hle
    have hpow := prod_le_pow_card (as.map f) 1 (forall_mem_map.mpr hle)
    rwa [one_pow] at hpow
  have hbit : ∀ (p : Prop) [Decidable p], (if p then 1 else 0) ≤ 1 ∧ (if p then 0 else 1) ≤ 1 := by
    intro p _
    by_cases hp : p <;> simp [hp]
  have htables : (c.tables.map fun a => a.toTerm.value m env).prod ≤ 1 := by
    refine hprod fun a ha => ?_
    show m.table a.name _ ≤ 1
    rw [h.tables a ha]
    exact hm.once uk h.key _
  have hpreds : (c.preds.map fun p => p.toTerm.value m env).prod ≤ 1 := by
    refine hprod fun p _ => ?_
    cases p with
    | pred n args | eq l r => exact (hbit _).1
  unfold bodyValue factorsValue
  exact Nat.mul_le_mul (Nat.mul_le_mul (Nat.mul_le_mul htables hpreds)
    (hprod fun d _ => (hbit _).2)) (hprod fun d _ => (hbit _).1)

/-- Where the product is not zero, the key of a row is that of the constants around. -/
theorem exists_key (h : c.Pinned facts consts uk) (hconsts : ∀ v ∈ c.vars, v ∉ consts.tuples)
    (m : Model D) (env : Env D) {x : String} (hx : .var x ∈ c.vars) {col : String}
    (hcol : col ∈ uk.columns) :
    ∃ t : Tuple, ∀ e, env.AgreesOff c.vars e → c.bodyValue m e ≠ 0 →
      m.attr col (e x) = t.value m env := by
  obtain ⟨a, ha, hrow⟩ := h.covered _ hx
  obtain ⟨t, ht, hconst⟩ := h.constant a ha col hcol
  have hsame := (Congruence.same_of_mem_classOf ht).1
  refine ⟨t, fun e he hne => ?_⟩
  have hvalue := Congruence.value_eq_of_same (factors_ne_zero hne).2 hsame
  rw [hrow, Tuple.value_project] at hvalue
  -- No binder is a constant, so the constant has the same row around the binders.
  refine hvalue.trans (Tuple.value_congr m t fun y hy => he y fun hmem => ?_)
  exact hconsts _ hmem (Constants.mem_of_isConstant t hconst hy)

/-- In two environments that differ at the binders only, the constants have the same rows. So the
keys agree, and with them the rows. -/
theorem rows_unique (h : c.Pinned facts consts uk) (hm : m.Keyed facts)
    (hconsts : ∀ v ∈ c.vars, v ∉ consts.tuples) (he : env.AgreesOff c.vars e)
    (he' : env.AgreesOff c.vars e') (hne : c.bodyValue m e ≠ 0) (hne' : c.bodyValue m e' ≠ 0) :
    e = e' := by
  funext x
  by_cases hx : .var x ∈ c.vars
  · obtain ⟨⟨name, row⟩, ha, hrow⟩ := h.covered _ hx
    obtain rfl : name = uk.table := h.tables _ ha
    obtain rfl : row = .var x := hrow
    refine hm.unique uk h.key (e x) (e' x) ((factors_ne_zero hne).1 _ ha)
      ((factors_ne_zero hne').1 _ ha) fun col hcol => ?_
    obtain ⟨t, ht⟩ := h.exists_key hconsts m env hx hcol
    rw [ht e he hne, ht e' he' hne']
  · rw [he x hx, he' x hx]

theorem value_le_one (h : c.Pinned facts consts uk) (hm : m.Keyed facts)
    (hvars : ∀ v ∈ c.vars, ∃ x, v = .var x) (hnodup : c.vars.Nodup)
    (hconsts : ∀ v ∈ c.vars, v ∉ consts.tuples) (env : Env D) : c.toTerm.value m env ≤ 1 := by
  rw [Conj.value_toTerm]
  exact Env.sumBinders_le_one hvars hnodup (h.bodyValue_le_one hm) fun _ _ =>
    h.rows_unique hm hconsts

end Pinned

/-! ## Squashing -/

/-- A squashed conjunction is the truth value of the conjunction. -/
theorem value_squashed {D : Type*} [Fintype D] [DecidableEq D] {m : Model D}
    (hbase : c.BaseBinders) (hplain : PlainNames c.uses) (h : c.squashed = .ok s) (env : Env D) :
    s.toTerm.value m env = if c.toTerm.value m env = 0 then 0 else 1 := by
  have hnormal : (Term.squash c.toTerm).normalize = .ok [s] := by
    unfold squashed at h
    cases hd : (Term.squash c.toTerm).normalize with
    | error err =>
      rw [hd] at h
      cases h
    | ok d =>
      rw [hd] at h
      rcases d with _ | ⟨s', _ | ⟨s'', d⟩⟩
      · cases h
      · cases h
        rfl
      · cases h
  have hvalue := Term.value_normalize (m := m) (t := .squash c.toTerm) (baseBinders_toTerm hbase)
    (plainNames_toTerm hplain) hnormal env
  rw [Disj.value_toTerm, map_singleton, sum_singleton] at hvalue
  exact hvalue

/-- **Squashing conjunctions that are keyed by constants.** Let the binders of a conjunction be row
variables, those at its top listed once and not among the constants, and let no variable have the
name of a tag. If a unique key of its table is constant in every row, the value is zero or one
wherever the unique keys hold, and the squashed conjunction has the same value. -/
theorem squashed_sound (hbase : c.BaseBinders) (hnodup : c.vars.Nodup) (hplain : PlainNames c.uses)
    (hconsts : ∀ v ∈ c.vars, v ∉ consts.tuples)
    (hkeyed : c.isKeyedByConstant facts consts = true) (D : Type*) [Fintype D] [DecidableEq D]
    (m : Model D) (hm : m.Keyed facts) (env : Env D) :
    (c.toTerm.value m env = 0 ∨ c.toTerm.value m env = 1) ∧
      ∀ s, c.squashed = .ok s → s.toTerm.value m env = c.toTerm.value m env := by
  obtain ⟨uk, hpinned⟩ := exists_pinned hkeyed
  have hvars := ((hereditary_baseBinders c).mp hbase).1
  have hbit : c.toTerm.value m env = 0 ∨ c.toTerm.value m env = 1 :=
    Nat.le_one_iff_eq_zero_or_eq_one.mp (hpinned.value_le_one hm hvars hnodup hconsts env)
  refine ⟨hbit, fun s hs => ?_⟩
  rw [value_squashed hbase hplain hs env]
  rcases hbit with hzero | hone
  · rw [hzero, if_pos rfl]
  · rw [hone, if_neg Nat.one_ne_zero]

/-- `Sum{x, y}(R(x) * R(y) * [x.k = f.a] * [y.k = 1] * not(Sum{z}(S(z) * [z = y])))`. -/
def pinned : Conj :=
  ⟨[.var "x", .var "y"], [⟨"R", .var "x"⟩, ⟨"R", .var "y"⟩],
    [.eq (.attr (.var "x") "k") (.attr (.var "f") "a"), .eq (.attr (.var "y") "k") (.const "1")],
    none, some [⟨[.var "z"], [⟨"S", .var "z"⟩], [.eq (.var "z") (.var "y")], none, none⟩]⟩

/-- The same below a squash, with `x0`, `x1` and `x2` for `x`, `y` and `z`. -/
def pinnedSquash : Conj :=
  ⟨[], [], [], some [⟨[.var "x0", .var "x1"], [⟨"R", .var "x0"⟩, ⟨"R", .var "x1"⟩],
    [.eq (.attr (.var "x0") "k") (.attr (.var "f") "a"),
      .eq (.attr (.var "x1") "k") (.const "1")], none,
    some [⟨[.var "x2"], [⟨"S", .var "x2"⟩], [.eq (.var "x2") (.var "x1")], none, none⟩]⟩], none⟩

/-- Two rows, which are their own columns and both in `R` once. -/
def pinnedRows : Model Bool :=
  ⟨fun _ => false, fun _ d => d, fun _ _ => false, fun n _ => if n = "R" then 1 else 0,
    fun _ _ => false, fun _ => rfl⟩

/-- Two rows of one table, one of them keyed by a literal and the other by a column of a free
variable that is constant. They are different rows here. -/
theorem squashed_sound_pinned :
    (pinned.isKeyedByConstant Disj.keyedByK (.ofList [.var "f"]) = true ∧
      pinnedRows.Keyed Disj.keyedByK ∧ pinned.squashed = .ok pinnedSquash) ∧
      pinned.toTerm.value pinnedRows (fun _ => true) = 1 ∧
      pinnedSquash.toTerm.value pinnedRows (fun _ => true) = 1 := by
  have hbase : pinned.BaseBinders := by
    simp [pinned, BaseBinders, Disj.BaseBinders, Disj.BaseBindersOption]
  have hplain : PlainNames pinned.uses := by
    intro x hx
    have hnames : x = "x" ∨ x = "y" ∨ x = "f" ∨ x = "z" := by
      simp [pinned, uses, Disj.uses, Disj.usesOption, PredAtom.uses, Tuple.uses] at hx
      tauto
    rcases hnames with rfl | rfl | rfl | rfl <;> decide
  have hkeyed : pinned.isKeyedByConstant Disj.keyedByK (.ofList [.var "f"]) = true := by
    decide +kernel
  have hrows : pinnedRows.Keyed Disj.keyedByK := ⟨by decide, by decide⟩
  have hsquashed : pinned.squashed = .ok pinnedSquash := by decide +kernel
  have hvalue : pinned.toTerm.value pinnedRows (fun _ => true) = 1 := by decide +kernel
  have hsound := squashed_sound hbase (by decide) hplain (by decide +kernel) hkeyed Bool pinnedRows
    hrows fun _ => true
  refine ⟨⟨hkeyed, hrows, hsquashed⟩, hvalue, ?_⟩
  rw [hsound.2 pinnedSquash hsquashed, hvalue]

end Conj

end QueryRules
