import QueryRules.Proofs.ScopedForms

/-!
# QueryRules — binders that are listed once

A summation may list a variable twice, and then it counts every row of the other binders once for
each row of the variable. If no summation of a term does so, no conjunction of its normal form does
(`Term.distinct_of_normalize`).

The laws keep binders distinct since a binder that clashes gets a name that is not reserved
(`Law.distinct_renameClashing`). A step, a pass and all passes keep them by the lemmas on what is
kept; reading does so because a conjunction has the binders of one summation
(`Term.Hereditary.spread`), and naming because different binders get different names.
-/

namespace QueryRules

/-! ## Terms -/

/-- No summation lists a binder twice. -/
def Term.distinctBinders : Term → Bool
  | .table _ _ | .pred _ _ | .eq _ _ => true
  | .add l r | .mul l r => l.distinctBinders && r.distinctBinders
  | .not t | .squash t => t.distinctBinders
  | .sum vars body => decide vars.Nodup && body.distinctBinders

namespace Term

theorem hereditary_distinct : Hereditary (fun t => t.distinctBinders = true) List.Nodup := by
  refine ⟨Bool.and_eq_true_iff, Bool.and_eq_true_iff, Iff.rfl, Iff.rfl, ?_⟩
  intro vars body
  exact Bool.and_eq_true_iff.trans (and_congr_left fun _ => decide_eq_true_iff)

/-- Replacing a binder by a name that is not there keeps binders distinct. -/
theorem nodup_substAll {vars : List Tuple} {y n : String} (hvars : ∀ v ∈ vars, v.isVar = true)
    (hn : .var n ∉ vars) (h : vars.Nodup) : (Tuple.substAll vars (.var y) (.var n)).Nodup := by
  rw [Tuple.substAll_eq_map]
  refine h.map_on fun v hv w hw heq => ?_
  obtain ⟨a, rfl⟩ := Tuple.exists_eq_var (hvars v hv)
  obtain ⟨b, rfl⟩ := Tuple.exists_eq_var (hvars w hw)
  simp only [Tuple.subst] at heq
  split at heq
  · next ha =>
    split at heq
    · next hb => rw [ha, hb]
    · exact absurd (heq ▸ hw) hn
  · split at heq
    · exact absurd (heq ▸ hv) hn
    · exact heq

/-- A substitution of a new variable keeps the binders apart. -/
theorem distinct_subst {t : Term} {y n : String} (hbase : t.baseBinders = true)
    (hn : t.uses (.var n) = false) (h : t.distinctBinders = true) :
    (t.subst (.var y) (.var n)).distinctBinders = true := by
  induction t with
  | table name row | pred name args | eq l r => rfl
  | not t ih | squash t ih => exact ih hbase hn h
  | add l r ihl ihr =>
    obtain ⟨hbl, hbr⟩ := hereditary_baseBinders.add.mp hbase
    obtain ⟨hnl, hnr⟩ := Bool.or_eq_false_iff.mp hn
    obtain ⟨hl, hr⟩ := hereditary_distinct.add.mp h
    exact hereditary_distinct.add.mpr ⟨ihl hbl hnl hl, ihr hbr hnr hr⟩
  | mul l r ihl ihr =>
    obtain ⟨hbl, hbr⟩ := hereditary_baseBinders.mul.mp hbase
    obtain ⟨hnl, hnr⟩ := Bool.or_eq_false_iff.mp hn
    obtain ⟨hl, hr⟩ := hereditary_distinct.mul.mp h
    exact hereditary_distinct.mul.mpr ⟨ihl hbl hnl hl, ihr hbr hnr hr⟩
  | sum vars body ih =>
    obtain ⟨hvars, hbody⟩ := Bool.and_eq_true_iff.mp hbase
    obtain ⟨hnv, hnb⟩ := Bool.or_eq_false_iff.mp hn
    obtain ⟨hnodup, hd⟩ := hereditary_distinct.sum.mp h
    refine hereditary_distinct.sum.mpr ⟨?_, ih hbody hnb hd⟩
    exact nodup_substAll (List.all_eq_true.mp hvars) (of_decide_eq_false hnv) hnodup

end Term

/-! ## Laws -/

namespace Law

/-- Renaming clashing binders keeps binders distinct: a new name is none of the binders after it. -/
theorem distinct_renameClashing {clashes : Tuple → Bool} {vars : List Tuple} {body : Term}
    {s : FreshNames} (hready : (Term.sum vars body).Ready s)
    (h : (Term.sum vars body).distinctBinders = true) :
    (renameClashing clashes vars body s).1.Nodup ∧
      (renameClashing clashes vars body s).2.1.distinctBinders = true := by
  induction vars generalizing body s with
  | nil => exact Term.hereditary_distinct.sum.mp h
  | cons v vs ih =>
    obtain ⟨⟨y, rfl, hy⟩, htail⟩ := Term.ready_sum_cons.mp hready
    obtain ⟨hnodup, hd⟩ := Term.hereditary_distinct.sum.mp h
    obtain ⟨hv, hvs⟩ := List.nodup_cons.mp hnodup
    rw [renameClashing]
    split
    -- A new name is reserved, so no later one is the same.
    · obtain ⟨hapart, hunused⟩ := pick_unused htail
      have hbinders := (Term.ready_sum.mp htail).2.2.binders
      obtain ⟨ihvars, ihbody⟩ := ih (ready_subst_pick htail y) (Term.hereditary_distinct.sum.mpr
        ⟨hvs, Term.distinct_subst hbinders hunused hd⟩)
      refine ⟨List.nodup_cons.mpr ⟨fun hmem => ?_, ihvars⟩, ihbody⟩
      rcases mem_renameClashing hmem with ⟨hold, -⟩ | ⟨x, hx, hnot⟩
      · exact hapart hold
      · rw [← Tuple.var.inj hx] at hnot
        exact hnot s.reserved_pick
    · obtain ⟨ihvars, ihbody⟩ := ih htail (Term.hereditary_distinct.sum.mpr ⟨hvs, hd⟩)
      refine ⟨List.nodup_cons.mpr ⟨fun hmem => ?_, ihvars⟩, ihbody⟩
      rcases mem_renameClashing hmem with ⟨hold, -⟩ | ⟨x, hx, hnot⟩
      · exact hv hold
      · rw [← Tuple.var.inj hx] at hnot
        exact hnot hy

/-- A law keeps the binders apart. -/
theorem distinct_fire {law : Law} {s s' : FreshNames} {t t' : Term} (hready : t.Ready s)
    (h : t.distinctBinders = true) (hfire : law.fire? s t = some (t', s')) :
    t'.distinctBinders = true := by
  have hdistinct := Term.hereditary_distinct
  unfold fire? at hfire
  split at hfire
  · obtain ⟨hsum, hr⟩ := hdistinct.mul.mp h
    obtain ⟨hvars, hbody⟩ := distinct_renameClashing (Term.ready_mul.mp hready).1 hsum
    obtain ⟨rfl, rfl⟩ := Prod.mk.inj (Option.some.inj hfire)
    exact hdistinct.sumOver hvars (hdistinct.mul.mpr ⟨hbody, hr⟩)
  · obtain ⟨hl, hsum⟩ := hdistinct.mul.mp h
    obtain ⟨hvars, hbody⟩ := distinct_renameClashing (Term.ready_mul.mp hready).2 hsum
    obtain ⟨rfl, rfl⟩ := Prod.mk.inj (Option.some.inj hfire)
    exact hdistinct.sumOver hvars (hdistinct.mul.mpr ⟨hl, hbody⟩)
  · -- The binders of the inner summation that are among the outer ones are renamed.
    obtain ⟨-, hres, hinner⟩ := Term.ready_sum.mp hready
    obtain ⟨houter, hsum⟩ := hdistinct.sum.mp h
    obtain ⟨hvars, hbody⟩ := distinct_renameClashing hinner hsum
    obtain ⟨rfl, rfl⟩ := Prod.mk.inj (Option.some.inj hfire)
    refine hdistinct.sumOver (List.Nodup.append houter hvars fun v hv hv' => ?_) hbody
    rcases mem_renameClashing hv' with ⟨-, hclash⟩ | ⟨x, rfl, hnew⟩
    · exact of_decide_eq_false hclash hv
    · exact hnew (hres x hv)
  · obtain ⟨new, hnew, heq⟩ := Option.map_eq_some_iff.mp hfire
    obtain ⟨rfl, rfl⟩ := Prod.mk.inj heq
    exact plain_keeps hdistinct h hnew

end Law

/-! ## Steps and passes -/

namespace Term

/-- A step at any depth keeps the binders apart. -/
theorem distinct_reduce? {s : FreshNames} {laws : List Law} {t : Term} {f : Firing}
    (h : t.reduce? s laws = some f) (hready : t.Ready s) (hd : t.distinctBinders = true) :
    f.result.distinctBinders = true := by
  have hdistinct := hereditary_distinct
  refine reduce?_induction (motive := fun t f => t.Ready s → t.distinctBinders = true →
    f.result.distinctBinders = true) ?_ ?_ ?_ ?_ ?_ ?_ ?_ ?_ h hready hd
  · intro t f _ hfirst hready hd
    obtain ⟨-, law, -, -, hfire, -⟩ := Law.firstAt?_eq_some hfirst
    exact Law.distinct_fire hready hd hfire
  · intro l r f hl hready hd
    obtain ⟨hdl, hdr⟩ := hdistinct.add.mp hd
    exact hdistinct.add.mpr ⟨hl (ready_add.mp hready).1 hdl, hdr⟩
  · intro l r f hr hready hd
    obtain ⟨hdl, hdr⟩ := hdistinct.add.mp hd
    exact hdistinct.add.mpr ⟨hdl, hr (ready_add.mp hready).2 hdr⟩
  · intro l r f hl hready hd
    obtain ⟨hdl, hdr⟩ := hdistinct.mul.mp hd
    exact hdistinct.mul.mpr ⟨hl (ready_mul.mp hready).1 hdl, hdr⟩
  · intro l r f hr hready hd
    obtain ⟨hdl, hdr⟩ := hdistinct.mul.mp hd
    exact hdistinct.mul.mpr ⟨hdl, hr (ready_mul.mp hready).2 hdr⟩
  · exact fun ht hready => ht (ready_not.mp hready)
  · exact fun ht hready => ht (ready_squash.mp hready)
  · intro vars t f ht hready hd
    obtain ⟨hvars, hbody⟩ := hdistinct.sum.mp hd
    exact hdistinct.sum.mpr ⟨hvars, ht (ready_sum.mp hready).2.2 hbody⟩

theorem distinct_reduce {t t' : Term} (hbase : t.baseBinders = true)
    (hd : t.distinctBinders = true) (h : t.reduce = .ok t') : t'.distinctBinders = true := by
  obtain ⟨p, hp, rfl⟩ := exists_reduceRecorded h
  have hkept : p.term.Ready p.fresh ∧ p.term.distinctBinders = true := by
    refine Pass.runAll_keeps (P := fun u s => u.Ready s ∧ u.distinctBinders = true) ?_ hp
      ⟨ready_freshFor hbase, hd⟩
    rintro laws - s u f hf ⟨hready, hu⟩
    exact ⟨ready_reduce? hready hf, distinct_reduce? hf hready hu⟩
  exact hkept.2

end Term

/-! ## Normal forms -/

/-- Neither the conjunction nor one nested in it lists a binder twice. -/
inductive Conj.Distinct : Conj → Prop
  | intro {c : Conj} (vars : c.vars.Nodup) (nested : ∀ d, c.Nests d → ∀ e ∈ d, Distinct e) :
      Distinct c

theorem Conj.hereditary_distinct : Conj.Hereditary Conj.Distinct List.Nodup := by
  intro c
  constructor
  · rintro ⟨hvars, hnested⟩
    exact ⟨hvars, hnested⟩
  · rintro ⟨hvars, hnested⟩
    exact .intro hvars hnested

theorem Conj.nests_relabel {names : Nat → String} {c e' : Conj} {d' : Disj} {σ : Labels} {k : Nat}
    (hd' : (c.relabel names σ k).Nests d') (he' : e' ∈ d') :
    ∃ d, c.Nests d ∧ ∃ e ∈ d, ∃ σ' k', e' = e.relabel names σ' k' := by
  rw [Conj.relabel_eq] at hd'
  rcases hd' with hd' | hd'
  · obtain ⟨d, hd, rfl⟩ := Disj.relabelOption_eq_some names hd'
    obtain ⟨e, he, k', rfl⟩ := Disj.mem_relabel names he'
    exact ⟨d, .inl hd, e, he, _, k', rfl⟩
  · obtain ⟨d, hd, rfl⟩ := Disj.relabelOption_eq_some names hd'
    obtain ⟨e, he, k', rfl⟩ := Disj.mem_relabel names he'
    exact ⟨d, .inr hd, e, he, _, k', rfl⟩

/-- Different binders of a conjunction get different names. -/
theorem Conj.Distinct.relabel {names : Nat → String} (hnames : Function.Injective names) {c : Conj}
    (h : c.Distinct) (hbase : c.BaseBinders) (σ : Labels) (k : Nat) :
    (c.relabel names σ k).Distinct := by
  induction h generalizing σ k with
  | @intro c hvars hnested ih =>
    obtain ⟨hvar, hbelow⟩ := (hereditary_baseBinders c).mp hbase
    refine .intro ?_ fun d' hd' e' he' => ?_
    · rw [Conj.relabel_eq]
      refine hvars.map_on fun v hv w hw heq => ?_
      obtain ⟨x, rfl⟩ := hvar v hv
      obtain ⟨y, rfl⟩ := hvar w hw
      rw [Labels.tuple_var, Labels.tuple_var, Labels.name_bound hv, Labels.name_bound hw] at heq
      rw [Labels.name_ofBinders_inj hnames hv hw (Tuple.var.inj heq)]
    · obtain ⟨d, hd, e, he, σ', k', rfl⟩ := nests_relabel hd' he'
      exact ih d hd e he (hbelow d hd e he) σ' k'

/-- **Binders of a normal form are listed once**, if those of the term are. -/
theorem Term.distinct_of_normalize {t : Term} {d : Disj} (hbase : t.baseBinders = true)
    (hdistinct : t.distinctBinders = true) (hplain : PlainNames t.uses)
    (h : t.normalize = .ok d) : ∀ c ∈ d, c.Distinct := by
  obtain ⟨t', hred, hspread, rfl⟩ := exists_relabel_of_normalize hbase hplain h
  have hread := hereditary_distinct.spread Conj.hereditary_distinct List.nodup_nil
    (distinct_reduce hbase hdistinct hred)
  intro c hc
  obtain ⟨e, he, k, rfl⟩ := Disj.mem_relabel _ hc
  have hbase' : e.BaseBinders := Disj.baseBinders_iff.mp hspread e he
  exact (hread.1 e he).relabel (FreshNames.nth_injective _) hbase' _ _

namespace Conj.Distinct

/-- Replacing a variable that is in scope changes no binder. -/
theorem subst {scope : String → Prop} {c : Conj} {g : String} (h : c.Distinct)
    (hc : Scoped scope c) (hg : scope g) (image : Tuple) : (c.subst (.var g) image).Distinct := by
  induction h generalizing scope with
  | @intro c hvars hnested ih =>
    refine .intro ?_ fun d hd e he => ?_
    · rw [vars_subst_of_not_mem (hc.not_mem hg)]
      exact hvars
    · obtain ⟨d', hd', rfl⟩ := nests_subst hd
      rw [hc.subst_nested hg hd'] at he
      obtain ⟨e', he', rfl⟩ := List.mem_map.mp he
      exact ih d' hd' e' he' (hc.nested hd' he') (.inl hg)

theorem eliminate {scope : String → Prop} {c : Conj} {g : String} (h : c.Distinct)
    (hc : Scoped scope c) (hg : .var g ∈ c.vars) (image : Tuple) :
    (c.eliminate (.var g) image).Distinct := by
  have hunbound : Distinct { c with vars := c.vars.filter (· ≠ .var g) } := by
    obtain ⟨hvars, hnested⟩ := h
    exact .intro (hvars.filter _) hnested
  exact hunbound.subst (hc.unbind hg) (.inr rfl) image

theorem dropTrivial {c : Conj} (h : c.Distinct) : c.dropTrivial.Distinct := by
  obtain ⟨hvars, hnested⟩ := h
  obtain ⟨hsame, -, hsquash, hnegation, -⟩ := c.dropTrivial_spec
  refine .intro (hsame ▸ hvars) fun d hd => hnested d ?_
  unfold Nests at hd ⊢
  rw [← hsquash, ← hnegation]
  exact hd

end Conj.Distinct

end QueryRules
