import QueryRules.Proofs.ScopedForms

/-!
# QueryRules — normalization keeps values

The last part of normalization gives binders their canonical names. A relabeling keeps the value
(`Disj.value_relabel`): an environment for the new names that has, under the new name of every free
variable, the row of the variable makes the same of the disjunction. Below binders the two
environments run through the same rows, since different variables in sight have different names.

Together with the reduction and the reading of its result, a normal form has the value of the term
(`Term.value_normalize`).
-/

namespace QueryRules

open List

section Rows

variable {D : Type*} {m : Model D}

mutual

/-- A renamed tuple has the row of the tuple in the environment read through the renaming. -/
theorem Tuple.value_rename (f : String → String) (env : Env D) : (t : Tuple) →
    (t.rename f).value m env = t.value m fun x => env (f x)
  | .var x => rfl
  | .const c => rfl
  | .attr base a => by
    rw [Tuple.rename, Tuple.value_project, Tuple.value_rename f env base, Tuple.value]
  | .call g args => by
    rw [Tuple.rename, Tuple.value, Tuple.values_renameAll f env args, Tuple.value]

theorem Tuple.values_renameAll (f : String → String) (env : Env D) : (ts : List Tuple) →
    Tuple.values m env (Tuple.renameAll f ts) = Tuple.values m (fun x => env (f x)) ts
  | [] => rfl
  | t :: ts => by
    rw [Tuple.renameAll, Tuple.values, Tuple.value_rename f env t, Tuple.values_renameAll f env ts,
      Tuple.values]

end

theorem Tuple.values_eq_map (env : Env D) (ts : List Tuple) :
    Tuple.values m env ts = ts.map (Tuple.value m env) := by
  induction ts with
  | nil => rfl
  | cons t ts ih => rw [Tuple.values, ih, map_cons]

namespace Labels

/-- Under the new names of the variables in `free`, the second environment has the rows that the
first one has under the old names. -/
def Carries (free : String → Prop) (σ : Labels) (env env' : Env D) : Prop :=
  ∀ x, free x → env' (σ.name x) = env x

variable {free : String → Prop} {σ : Labels} {env env' : Env D}

theorem Carries.mono {free' : String → Prop} (h : Carries free σ env env')
    (hfree : ∀ x, free' x → free x) : Carries free' σ env env' :=
  fun x hx => h x (hfree x hx)

theorem Carries.value_tuple (h : Carries free σ env env') {t : Tuple}
    (ht : ∀ x, t.uses (.var x) = true → free x) : (σ.tuple t).value m env' = t.value m env := by
  unfold tuple
  split
  · next hempty =>
    refine Tuple.value_congr m t fun x hx => ?_
    have hrow := h x (ht x hx)
    rw [List.isEmpty_iff.mp hempty] at hrow
    exact hrow
  · rw [Tuple.value_rename]
    exact Tuple.value_congr m t fun x hx => h x (ht x hx)

end Labels

/-- Summations over renamed binders agree if what they sum up agrees wherever the rows do. Induction
on the binders; a binder that has got its row is known from then on. -/
theorem Env.sumBinders_relabel [Fintype D] {σ : Labels} {f f' : Env D → Nat} {vs : List Tuple}
    (hvars : ∀ v ∈ vs, ∃ x, v = .var x) (known : String → Prop) {env env' : Env D}
    (hinj : ∀ x, known x ∨ .var x ∈ vs → ∀ z, .var z ∈ vs → σ.name z = σ.name x → z = x)
    (henv : σ.Carries known env env')
    (hf : ∀ e e', σ.Carries (fun x => known x ∨ .var x ∈ vs) e e' → f' e' = f e) :
    sumBinders (vs.map σ.tuple) f' env' = sumBinders vs f env := by
  induction vs generalizing known env env' with
  | nil => exact hf env env' fun x hx => henv x (hx.resolve_right not_mem_nil)
  | cons v vs ih =>
    obtain ⟨y, rfl⟩ := hvars v mem_cons_self
    have hmem : ∀ x, ((known x ∨ x = y) ∨ .var x ∈ vs) ↔ (known x ∨ .var x ∈ .var y :: vs) := by
      intro x
      rw [mem_cons, Tuple.var.injEq, or_assoc]
    rw [map_cons, Labels.tuple_var]
    unfold sumBinders
    refine Finset.sum_congr rfl fun d _ => ?_
    refine ih (fun v hv => hvars v (mem_cons_of_mem _ hv)) (fun x => known x ∨ x = y)
      (fun x hx z hz => ?_) (fun x hx => ?_)
      fun e e' hcarries => hf e e' (hcarries.mono fun x hx => (hmem x).mpr hx)
    · exact hinj x ((hmem x).mp hx) z (mem_cons_of_mem _ hz)
    · by_cases hxy : x = y
      · subst hxy
        simp [Env.bind]
      · -- Another name is not bound here.
        have hknown : known x := hx.resolve_right hxy
        have hname : σ.name x ≠ σ.name y := fun heq =>
          hxy (hinj x (.inl hknown) y mem_cons_self heq.symm).symm
        rw [Env.bind_var_of_ne env' hname, Env.bind_var_of_ne env hxy]
        exact henv x hknown

end Rows

/-! ## Relabeling -/

section Relabeled

variable {D : Type*} [Fintype D] [DecidableEq D] {m : Model D} {names : Nat → String}

theorem Conj.values_tables_relabel {c : Conj} {σ : Labels} {env env' : Env D}
    (h : σ.Carries (fun x => c.Inside x) env env') :
    ((c.tables.map (TableAtom.mapTuple σ.tuple)).map fun a => a.toTerm.value m env')
      = c.tables.map fun a => a.toTerm.value m env := by
  rw [map_map]
  refine map_congr_left fun a ha => ?_
  have hrow := h.value_tuple (m := m) (t := a.row) fun x hx =>
    .inl ⟨a.row, mem_append_left _ (mem_map_of_mem ha), hx⟩
  exact congrArg (m.table a.name) hrow

theorem Conj.values_preds_relabel {c : Conj} {σ : Labels} {env env' : Env D}
    (h : σ.Carries (fun x => c.Inside x) env env') :
    ((c.preds.map (PredAtom.mapTuple σ.tuple)).map fun p => p.toTerm.value m env')
      = c.preds.map fun p => p.toTerm.value m env := by
  rw [map_map]
  refine map_congr_left fun p hp => ?_
  have hrows : ∀ t ∈ p.tuples, (σ.tuple t).value m env' = t.value m env := fun t ht =>
    h.value_tuple fun x hx =>
      .inl ⟨t, mem_append_right _ (mem_flatMap.mpr ⟨p, hp, ht⟩), hx⟩
  cases p with
  | pred n args =>
    have hargs : Tuple.values m env' (args.map σ.tuple) = Tuple.values m env args := by
      rw [Tuple.values_eq_map, Tuple.values_eq_map, map_map]
      exact map_congr_left hrows
    show (if m.pred n (Tuple.values m env' (args.map σ.tuple)) = true then 1 else 0) = _
    rw [hargs]
    rfl
  | eq l r =>
    have hl := hrows l mem_cons_self
    have hr := hrows r (mem_cons_of_mem _ mem_cons_self)
    show (if (σ.tuple l).value m env' = (σ.tuple r).value m env' then 1 else 0) = _
    rw [hl, hr]
    rfl

mutual

/-- **A relabeling keeps the value**, in an environment that carries the rows of the free variables
over to their new names. -/
theorem Conj.value_relabel (hnames : Function.Injective names) : (c : Conj) → c.BaseBinders →
    ∀ {σ : Labels} {k : Nat} {env env' : Env D}, Labels.Apart (fun x => c.Free x) names k σ →
      σ.Carries (fun x => c.Free x) env env' →
        (c.relabel names σ k).toTerm.value m env' = c.toTerm.value m env
  | ⟨vars, tables, preds, squash, negation⟩, hbase, σ, k, env, env', hapart, henv => by
    obtain ⟨hvars, hsquash, hnegation⟩ := hbase
    have hinside : ∀ x, Conj.Inside x ⟨vars, tables, preds, squash, negation⟩ →
        .var x ∈ vars ∨ Conj.Free x ⟨vars, tables, preds, squash, negation⟩ := fun x hx =>
      Conj.Inside.mem_or_free hx
    -- The binders take the names from `k` on, and no name after those is used below them.
    have hbelow := (hapart.bind hnames vars).mono hinside (Nat.le_refl _)
    rw [Conj.value_toTerm, Conj.value_toTerm, Conj.relabel]
    refine Env.sumBinders_relabel hvars
      (fun x => Conj.Free x ⟨vars, tables, preds, squash, negation⟩)
      (fun x hx z hz heq => hapart.name_inj hnames hx.symm hz heq) (fun x hx => ?_)
      fun e e' hcarries => ?_
    · rw [Labels.name_unbound (Conj.free_iff.mp hx).1]
      exact henv x hx
    · have hcarries := hcarries.mono fun x hx => (hinside x hx).symm
      refine Conj.bodyValue_congr (congrArg List.prod (Conj.values_tables_relabel hcarries))
        (congrArg List.prod (Conj.values_preds_relabel hcarries))
        (Disj.value_relabelOption hnames squash hsquash
          (hbelow.mono (fun x hx => .inr (.inl hx)) (Nat.le_refl _))
          (hcarries.mono fun x hx => .inr (.inl hx)))
        (Disj.value_relabelOption hnames negation hnegation
          (hbelow.mono (fun x hx => .inr (.inr hx)) (Nat.le_add_right _ _))
          (hcarries.mono fun x hx => .inr (.inr hx)))

theorem Disj.value_relabelOption (hnames : Function.Injective names) :
    (o : Option (List Conj)) → Disj.BaseBindersOption o →
    ∀ {σ : Labels} {k : Nat} {env env' : Env D},
      Labels.Apart (fun x => Disj.FreeOption x o) names k σ →
      σ.Carries (fun x => Disj.FreeOption x o) env env' →
        (Disj.relabelOption names σ k o).map (fun d => Term.value m (Disj.toTerm d) env')
          = o.map fun d => Term.value m (Disj.toTerm d) env
  | none, _, _, _, _, _, _, _ => rfl
  | some d, hbase, _, _, _, _, hapart, henv =>
    congrArg some (Disj.value_relabel hnames d hbase hapart henv)

/-- New names for the binders keep the value of a form. -/
theorem Disj.value_relabel (hnames : Function.Injective names) : (d : List Conj) →
    Disj.BaseBinders d → ∀ {σ : Labels} {k : Nat} {env env' : Env D},
      Labels.Apart (fun x => Disj.Free x d) names k σ →
      σ.Carries (fun x => Disj.Free x d) env env' →
        Term.value m (Disj.toTerm (Disj.relabel names σ k d)) env'
          = Term.value m (Disj.toTerm d) env
  | [], _, _, _, _, _, _, _ => by
    rw [Disj.relabel, Disj.value_toTerm, Disj.value_toTerm]
    rfl
  | c :: cs, hbase, _, _, _, _, hapart, henv => by
    have hhead := Conj.value_relabel hnames c hbase.1
      (hapart.mono (fun x hx => .inl hx) (Nat.le_refl _)) (henv.mono fun x hx => .inl hx)
    have htail := Disj.value_relabel hnames cs hbase.2
      (hapart.mono (fun x hx => .inr hx) (Nat.le_add_right _ c.slots))
      (henv.mono fun x hx => .inr hx)
    rw [Disj.value_toTerm, Disj.value_toTerm] at htail
    rw [Disj.relabel, Disj.value_toTerm, Disj.value_toTerm, map_cons, map_cons,
      sum_cons, sum_cons, hhead, htail]

end

/-- **Normalization keeps the value** of a term over row variables, none of which has the name of a
tag. -/
theorem Term.value_normalize {t : Term} {d : Disj} (hbase : t.baseBinders = true)
    (hplain : PlainNames t.uses) (h : t.normalize = .ok d) (env : Env D) :
    d.toTerm.value m env = t.value m env := by
  obtain ⟨t', hred, hspread, rfl⟩ := exists_relabel_of_normalize hbase hplain h
  obtain ⟨e, he⟩ := ofTerm_of_reduce hred
  have hread : t'.spread.toTerm.value m env = t'.value m env := by
    rw [(spread_readings t').1 e he]
    exact Disj.value_ofTerm m he env
  have hnamed := Disj.value_relabel (m := m) (FreshNames.nth_injective _) _ hspread
    (Disj.apart_canonicalNames t'.spread) fun x _ => (rfl : env x = env x)
  rw [hnamed, hread, value_reduce m hbase hred]

end Relabeled

end QueryRules
