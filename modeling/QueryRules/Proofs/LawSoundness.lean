import QueryRules.Proofs.Freshness
import QueryRules.Proofs.Value

/-!
# QueryRules — laws keep values

Every law of the reduction, fired at the root of a term, gives a term of the same value in every
model and environment.

Three laws move a term under binders, and for them two things have to be known about the term that
the law meets: its binders are row variables, and the supply of names reserves every variable that
occurs in it. This is `Term.Ready`; a law hands it on to its result, together with a supply that
reserves no less than before.
-/

namespace QueryRules

open List

variable {D : Type*} [Fintype D] [DecidableEq D]

/-! ## Terms that a law may meet -/

/-- Binders are row variables, and every variable that occurs is reserved in the supply. -/
structure Term.Ready (s : FreshNames) (t : Term) : Prop where
  binders : t.baseBinders = true
  reserved : ∀ x, t.uses (.var x) = true → s.Reserved x

/-- A supply that reserves at least the names that another one does. -/
def FreshNames.Grows (s s' : FreshNames) : Prop :=
  ∀ x, s.Reserved x → s'.Reserved x

variable {vars : List Tuple} {body : Term}

namespace Term

variable {s s' : FreshNames}

theorem Ready.mono {t : Term} (h : t.Ready s) (hs : s.Grows s') : t.Ready s' :=
  ⟨h.binders, fun x hx => hs x (h.reserved x hx)⟩

theorem ready_add {l r : Term} : (Term.add l r).Ready s ↔ l.Ready s ∧ r.Ready s := by
  constructor
  · intro h
    have hb : l.baseBinders = true ∧ r.baseBinders = true := by
      simpa [baseBinders] using h.binders
    exact ⟨⟨hb.1, fun x hx => h.reserved x (by simp [uses, hx])⟩,
      ⟨hb.2, fun x hx => h.reserved x (by simp [uses, hx])⟩⟩
  · rintro ⟨hl, hr⟩
    refine ⟨by simp [baseBinders, hl.binders, hr.binders], fun x hx => ?_⟩
    rcases (by simpa [uses] using hx : l.uses (.var x) = true ∨ r.uses (.var x) = true) with h | h
    · exact hl.reserved x h
    · exact hr.reserved x h

/-- A product is ready exactly if the sum of the same terms is. -/
theorem ready_mul {l r : Term} : (Term.mul l r).Ready s ↔ l.Ready s ∧ r.Ready s := by
  have hsame : (Term.mul l r).Ready s ↔ (Term.add l r).Ready s :=
    ⟨fun h => ⟨h.binders, h.reserved⟩, fun h => ⟨h.binders, h.reserved⟩⟩
  rw [hsame, ready_add]

theorem ready_not {t : Term} : (Term.not t).Ready s ↔ t.Ready s :=
  ⟨fun h => ⟨h.binders, h.reserved⟩, fun h => ⟨h.binders, h.reserved⟩⟩

theorem ready_squash {t : Term} : (Term.squash t).Ready s ↔ t.Ready s :=
  ⟨fun h => ⟨h.binders, h.reserved⟩, fun h => ⟨h.binders, h.reserved⟩⟩

theorem ready_sum :
    (Term.sum vars body).Ready s ↔
      (∀ v ∈ vars, v.isVar = true) ∧ (∀ x, .var x ∈ vars → s.Reserved x) ∧ body.Ready s := by
  constructor
  · intro h
    have hb : (∀ v ∈ vars, v.isVar = true) ∧ body.baseBinders = true := by
      simpa [baseBinders] using h.binders
    exact ⟨hb.1, fun x hx => h.reserved x (by simp [uses, hx]),
      hb.2, fun x hx => h.reserved x (by simp [uses, hx])⟩
  · rintro ⟨hv, hx, hbody⟩
    refine ⟨by simpa [baseBinders] using ⟨hv, hbody.binders⟩, fun x h => ?_⟩
    rcases (by simpa [uses] using h : .var x ∈ vars ∨ body.uses (.var x) = true) with h | h
    · exact hx x h
    · exact hbody.reserved x h

theorem ready_sum_cons {v : Tuple} {vs : List Tuple} :
    (Term.sum (v :: vs) body).Ready s ↔
      (∃ y, v = .var y ∧ s.Reserved y) ∧ (Term.sum vs body).Ready s := by
  rw [ready_sum, ready_sum]
  constructor
  · rintro ⟨hvars, hres, hbody⟩
    obtain ⟨y, rfl⟩ := Tuple.exists_eq_var (hvars v mem_cons_self)
    exact ⟨⟨y, rfl, hres y mem_cons_self⟩, fun w hw => hvars w (mem_cons_of_mem _ hw),
      fun x hx => hres x (mem_cons_of_mem _ hx), hbody⟩
  · rintro ⟨⟨y, rfl, hy⟩, hvars, hres, hbody⟩
    refine ⟨forall_mem_cons.mpr ⟨rfl, hvars⟩, fun x hx => ?_, hbody⟩
    rcases mem_cons.mp hx with hx | hx
    · rw [Tuple.var.inj hx]
      exact hy
    · exact hres x hx

end Term

/-! ## Properties of all parts -/

/-- A term has the property `P` exactly if its direct subterms have it and the binders, if it is a
summation, have the property `B`. -/
structure Term.Hereditary (P : Term → Prop) (B : List Tuple → Prop) : Prop where
  add : ∀ {l r : Term}, P (.add l r) ↔ P l ∧ P r
  mul : ∀ {l r : Term}, P (.mul l r) ↔ P l ∧ P r
  not : ∀ {t : Term}, P (.not t) ↔ P t
  squash : ∀ {t : Term}, P (.squash t) ↔ P t
  sum : ∀ {vars : List Tuple} {body : Term}, P (.sum vars body) ↔ B vars ∧ P body

namespace Term

variable {P : Term → Prop} {B : List Tuple → Prop}

theorem Hereditary.sumOver (h : Hereditary P B) (hvars : B vars)
    (hbody : P body) : P (Term.sumOver vars body) := by
  unfold Term.sumOver
  split
  · exact hbody
  · exact h.sum.mpr ⟨hvars, hbody⟩

theorem hereditary_ready (s : FreshNames) : Hereditary (Ready s) fun vars =>
    (∀ v ∈ vars, v.isVar = true) ∧ ∀ x, .var x ∈ vars → s.Reserved x :=
  ⟨ready_add, ready_mul, ready_not, ready_squash, ready_sum.trans and_assoc.symm⟩

end Term

/-! ## Products and sums of lists

What products inherit from their factors, and sums from their summands. -/

namespace Term

variable {P : Term → Prop}

theorem foldl_keeps {op : Term → Term → Term} (hop : ∀ {l r}, P l → P r → P (op l r)) {t : Term}
    {ts : List Term} (h : ∀ u ∈ t :: ts, P u) : P (ts.foldl op t) := by
  obtain ⟨ht, hts⟩ := forall_mem_cons.mp h
  exact List.foldlRecOn ts op ht fun u hu w hw => hop hu (hts w hw)

theorem product?_keeps (hmul : ∀ {l r}, P l → P r → P (.mul l r)) {ts : List Term} {p : Term}
    (h : product? ts = some p) (hts : ∀ t ∈ ts, P t) : P p := by
  cases ts with
  | nil => simp [product?] at h
  | cons t ts =>
    rw [product?, Option.some.injEq] at h
    exact h ▸ foldl_keeps hmul hts

theorem total?_keeps (hadd : ∀ {l r}, P l → P r → P (.add l r)) {ts : List Term} {p : Term}
    (h : total? ts = some p) (hts : ∀ t ∈ ts, P t) : P p := by
  cases ts with
  | nil => simp [total?] at h
  | cons t ts =>
    rw [total?, Option.some.injEq] at h
    exact h ▸ foldl_keeps hadd hts

/-- What holds of a product and is kept by its two sides holds of every factor. -/
theorem factors_keep (hmul : ∀ {l r}, P (.mul l r) → P l ∧ P r) {t : Term} (h : P t) :
    ∀ f ∈ t.factors, P f := by
  fun_induction Term.factors t with
  | case1 l r ih =>
    obtain ⟨hl, hr⟩ := hmul h
    intro f hf
    rcases mem_append.mp hf with hf | hf
    · exact ih hl f hf
    · rw [mem_singleton.mp hf]
      exact hr
  | case2 t _ =>
    intro f hf
    rw [mem_singleton.mp hf]
    exact h

end Term

/-! ## Renaming clashing binders -/

namespace Law

/-- A binder after the renaming is an old one that does not clash, or a new one. -/
theorem mem_renameClashing {clashes : Tuple → Bool} {vars : List Tuple} {body : Term}
    {s : FreshNames} {v : Tuple} (hv : v ∈ (renameClashing clashes vars body s).1) :
    (v ∈ vars ∧ clashes v = false) ∨ ∃ x, v = .var x ∧ ¬ s.Reserved x := by
  induction vars generalizing body s with
  | nil => exact absurd hv not_mem_nil
  | cons w vs ih =>
    rw [renameClashing] at hv
    split at hv
    · rcases mem_cons.mp hv with rfl | hv
      · exact .inr ⟨_, rfl, s.pick_not_reserved⟩
      · -- What is new after the pick was new before it.
        refine (ih hv).imp (fun h => ⟨mem_cons_of_mem _ h.1, h.2⟩) ?_
        rintro ⟨x, rfl, hnew⟩
        exact ⟨x, rfl, fun hx => hnew hx.pick⟩
    · next hclash =>
      rcases mem_cons.mp hv with rfl | hv
      · exact .inl ⟨mem_cons_self, Bool.eq_false_iff.mpr hclash⟩
      · exact (ih hv).imp_left fun h => ⟨mem_cons_of_mem _ h.1, h.2⟩

/-- What renaming the clashing binders of a summation gives: a summation of the same value. -/
structure Renaming (m : Model D) (vars : List Tuple) (body : Term) (s : FreshNames)
    (vars' : List Tuple) (body' : Term) (s' : FreshNames) : Prop where
  grows : s.Grows s'
  ready : (Term.sum vars' body').Ready s'
  value : ∀ env, Env.sumBinders vars' (body'.value m) env = Env.sumBinders vars (body.value m) env

/-- Substituting a name just picked leaves a summation ready. -/
theorem ready_subst_pick {s : FreshNames}
    (h : (Term.sum vars body).Ready s) (v : String) :
    (Term.sum vars (body.subst (.var v) (.var s.pick.1))).Ready s.pick.2 := by
  obtain ⟨hvars, hres, hbody⟩ := Term.ready_sum.mp h
  refine Term.ready_sum.mpr ⟨hvars, fun x hx => (hres x hx).pick, ?_, fun x hx => ?_⟩
  · rw [Term.baseBinders_subst_var]
    exact hbody.binders
  · rcases Term.uses_subst_var hx with rfl | ⟨_, hx⟩
    · exact s.reserved_pick
    · exact (hbody.reserved x hx).pick

/-- All names of a ready summation are reserved, so the name that is picked is none of them. -/
theorem pick_unused {s : FreshNames}
    (h : (Term.sum vars body).Ready s) :
    .var s.pick.1 ∉ vars ∧ body.uses (.var s.pick.1) = false := by
  obtain ⟨-, hres, hbody⟩ := Term.ready_sum.mp h
  exact ⟨fun hmem => s.pick_not_reserved (hres _ hmem),
    Bool.eq_false_iff.mpr fun hu => s.pick_not_reserved (hbody.reserved _ hu)⟩

/-- `renameClashing` renames as it should. Induction on the binders; each clashing one takes a name
that occurs neither in the body nor among the binders after it. -/
theorem renaming_renameClashing (m : Model D) (clashes : Tuple → Bool) (vars : List Tuple)
    (body : Term) (s : FreshNames) (h : (Term.sum vars body).Ready s) :
    Renaming m vars body s (renameClashing clashes vars body s).1
      (renameClashing clashes vars body s).2.1 (renameClashing clashes vars body s).2.2 := by
  induction vars generalizing body s with
  | nil => exact ⟨fun _ hx => hx, h, fun _ => rfl⟩
  | cons v vs ih =>
    obtain ⟨⟨y, rfl, hy⟩, htail⟩ := Term.ready_sum_cons.mp h
    rw [renameClashing]
    split
    · obtain ⟨hvsn, hbodyn⟩ := pick_unused htail
      have hyn : y ≠ s.pick.1 := fun hyn => s.pick_not_reserved (hyn ▸ hy)
      have ih := ih _ _ (ready_subst_pick htail y)
      refine ⟨fun x hx => ih.grows x hx.pick,
        Term.ready_sum_cons.mpr ⟨⟨_, rfl, ih.grows _ s.reserved_pick⟩, ih.ready⟩, fun env => ?_⟩
      rw [Env.sumBinders, Env.sumBinders, ← Env.sumBinders_rename m hyn hbodyn vs hvsn env]
      exact Finset.sum_congr rfl fun d _ => ih.value _
    · have ih := ih _ _ htail
      refine ⟨ih.grows, Term.ready_sum_cons.mpr ⟨⟨y, rfl, ih.grows y hy⟩, ih.ready⟩, fun env => ?_⟩
      rw [Env.sumBinders, Env.sumBinders]
      exact Finset.sum_congr rfl fun d _ => ih.value _

/-- A term whose variables are reserved has the same value under all binders that are renamed
where they clash with it. -/
theorem value_bind_renameClashing (m : Model D) {r body : Term} {s : FreshNames}
    (hsum : (Term.sum vars body).Ready s) (hr : r.Ready s) :
    ∀ v ∈ (renameClashing (fun v => r.uses v) vars body s).1, ∀ env d,
      r.value m (env.bind v d) = r.value m env := by
  intro v hv env d
  rcases mem_renameClashing hv with ⟨hmem, hclash⟩ | ⟨x, rfl, hnew⟩
  · obtain ⟨x, rfl⟩ := Tuple.exists_eq_var ((Term.ready_sum.mp hsum).1 v hmem)
    exact Term.value_bind_of_not_uses m hclash env d
  · refine Term.value_bind_of_not_uses m (Bool.eq_false_iff.mpr fun hu => ?_) env d
    exact hnew (hr.reserved x hu)

/-! ## Laws on factors

A squash is the truth value of its body and a negation the opposite one. The truth value of a
product is the product of the truth values, and the negation of a sum the product of the
negations. -/

theorem squashBody?_eq_some {f x : Term} : squashBody? f = some x ↔ f = .squash x := by
  cases f <;> simp [squashBody?]

theorem notBody?_eq_some {f x : Term} : notBody? f = some x ↔ f = .not x := by
  cases f <;> simp [notBody?]

/-- Merging factors keeps the value if the merged factor has the value of the opened ones. -/
theorem value_mergeFactors (m : Model D) (env : Env D) {body? : Term → Option Term}
    {merge : List Term → Option Term} {w : Nat → Nat} {t t' : Term}
    (hw : ∀ f x, body? f = some x → f.value m env = w (x.value m env))
    (hmerge : ∀ bodies merged, merge bodies = some merged →
      merged.value m env = ((bodies.map (·.value m env)).map w).prod)
    (h : mergeFactors? body? merge t = some t') : t'.value m env = t.value m env := by
  unfold mergeFactors? at h
  split at h
  · cases h
  · split at h
    · next merged hmerged =>
      rw [Term.value_product? m env h, map_append, prod_append, map_singleton,
        prod_singleton, hmerge _ _ hmerged, Term.value_eq_prod_factors m env t, map_map,
        prod_filter_filterMap hw t.factors]
      rfl
    · cases h

/-- Merging factors keeps what products share with their factors, if the merged factor has it. -/
theorem mergeFactors?_keeps {P Q : Term → Prop} (hmul : ∀ {l r}, P (.mul l r) ↔ P l ∧ P r)
    {body? : Term → Option Term} {merge : List Term → Option Term} {t t' : Term}
    (hbody : ∀ f x, body? f = some x → P f → Q x)
    (hmerge : ∀ bodies merged, merge bodies = some merged → (∀ b ∈ bodies, Q b) → P merged)
    (ht : P t) (h : mergeFactors? body? merge t = some t') : P t' := by
  have hfactors := Term.factors_keep hmul.mp ht
  unfold mergeFactors? at h
  split at h
  · cases h
  · split at h
    · next merged hmerged =>
      refine Term.product?_keeps (fun hl hr => hmul.mpr ⟨hl, hr⟩) h fun f hf => ?_
      rcases mem_append.mp hf with hf | hf
      · exact hfactors f (mem_of_mem_filter hf)
      · rw [mem_singleton.mp hf]
        refine hmerge _ _ hmerged fun b hb => ?_
        obtain ⟨f', hf', hb'⟩ := mem_filterMap.mp hb
        exact hbody f' b hb' (hfactors f' hf')
    · cases h

variable {t t' : Term}

/-- Opening the squash factors of a squashed product keeps its truth value: a factor is zero
exactly if the opened factor is. -/
theorem value_openSquashes (m : Model D) (env : Env D)
    (h : openSquashes? t = some t') : t'.value m env = (Term.squash t).value m env := by
  unfold openSquashes? at h
  split at h
  · obtain ⟨p, hp, rfl⟩ := Option.map_eq_some_iff.mp h
    have hfactor : ∀ f : Term, ((squashBody? f).getD f).value m env = 0 ↔ f.value m env = 0 := by
      intro f
      cases hf : squashBody? f with
      | none => rfl
      | some x => simp [squashBody?_eq_some.mp hf, Term.value]
    have hzero : p.value m env = 0 ↔ t.value m env = 0 := by
      rw [Term.value_product? m env hp, Term.value_eq_prod_factors m env t, prod_eq_zero_iff,
        prod_eq_zero_iff]
      simp [hfactor]
    simp only [Term.value, hzero]
  · cases h

theorem openSquashes?_keeps {P : Term → Prop} (hmul : ∀ {l r}, P (.mul l r) ↔ P l ∧ P r)
    (hsquash : ∀ {t}, P (.squash t) ↔ P t) {t t' : Term} (ht : P t)
    (h : openSquashes? t = some t') : P t' := by
  have hfactors := Term.factors_keep hmul.mp ht
  unfold openSquashes? at h
  split at h
  · obtain ⟨p, hp, rfl⟩ := Option.map_eq_some_iff.mp h
    refine hsquash.mpr (Term.product?_keeps (fun hl hr => hmul.mpr ⟨hl, hr⟩) hp fun f hf => ?_)
    obtain ⟨f', hf', rfl⟩ := mem_map.mp hf
    cases hopen : squashBody? f' with
    | none => exact hfactors f' hf'
    | some x =>
      have hsq := hfactors f' hf'
      rw [squashBody?_eq_some.mp hopen] at hsq
      exact hsquash.mp hsq
  · cases h

theorem value_swapLast (m : Model D) (env : Env D) (l r : Term) :
    (swapLast l r).value m env = l.value m env * r.value m env := by
  unfold swapLast
  split
  · simp only [Term.value]
    exact mul_right_comm _ _ _
  · exact mul_comm _ _

theorem swapLast_keeps {P : Term → Prop} (hmul : ∀ {l r}, P (.mul l r) ↔ P l ∧ P r) {l r : Term}
    (h : P (.mul l r)) : P (swapLast l r) := by
  obtain ⟨hl, hr⟩ := hmul.mp h
  unfold swapLast
  split
  · obtain ⟨hhead, hlast⟩ := hmul.mp hl
    exact hmul.mpr ⟨hmul.mpr ⟨hhead, hr⟩, hlast⟩
  · exact hmul.mpr ⟨hr, hl⟩

/-! ## Firing a law -/

/-- A law that needs no fresh name keeps the value. One case for each line of `Law.plain?`. -/
theorem plain_value (m : Model D) (env : Env D) {law : Law}
    (h : law.plain? t = some t') : t'.value m env = t.value m env := by
  unfold plain? at h
  split at h
  · -- `||(||x||)||`
    cases h
    simp only [Term.value]
    split <;> simp_all
  · exact value_openSquashes m env h
  · -- `not(||x||)`
    cases h
    simp only [Term.value]
    split <;> simp_all
  · -- `Sum{v}(x + y)`
    cases h
    simp only [Term.value, Term.value_sumOver]
    exact (Env.sumBinders_add _ _ _ env).symm
  · -- `not(x + y)`
    cases h
    simp only [Term.value, Nat.add_eq_zero_iff]
    split <;> simp_all
  · -- `not(x * y)`
    cases h
    simp only [Term.value, Nat.mul_eq_zero]
    split <;> split <;> simp_all
  · -- `not(not(x))`
    cases h
    simp only [Term.value]
    split <;> simp_all
  · -- `||not(x)||`
    cases h
    simp only [Term.value]
    split <;> simp_all
  · cases h
    exact mul_assoc _ _ _
  · cases h
    exact add_assoc _ _ _
  · cases h
    exact (add_mul _ _ _).symm
  · cases h
    exact (mul_add _ _ _).symm
  · -- a squash moves right
    split at h
    · cases h
      exact value_swapLast m env _ _
    · cases h
  · -- a negation moves right
    split at h
    · cases h
      exact value_swapLast m env _ _
    · cases h
  · refine value_mergeFactors m env (w := fun n => if n = 0 then 0 else 1) (fun f x hf => ?_)
      (fun bodies merged hmerged => ?_) h
    · rw [squashBody?_eq_some.mp hf]
      rfl
    · obtain ⟨p, hp, rfl⟩ := Option.map_eq_some_iff.mp hmerged
      rw [Term.value, Term.value_product? m env hp]
      exact (prod_map_truth _).symm
  · refine value_mergeFactors m env (w := fun n => if n = 0 then 1 else 0) (fun f x hf => ?_)
      (fun bodies merged hmerged => ?_) h
    · rw [notBody?_eq_some.mp hf]
      rfl
    · obtain ⟨p, hp, rfl⟩ := Option.map_eq_some_iff.mp hmerged
      rw [Term.value, Term.value_total? m env hp]
      exact (prod_map_negation _).symm
  · cases h

/-- A law that needs no fresh name keeps what holds of all parts, since it makes no new ones. -/
theorem plain_keeps {P : Term → Prop} {B : List Tuple → Prop} (hP : Term.Hereditary P B) {law : Law}
    {t t' : Term} (ht : P t) (h : law.plain? t = some t') : P t' := by
  unfold plain? at h
  split at h
  · cases h
    exact hP.squash.mp ht
  · exact openSquashes?_keeps hP.mul hP.squash (hP.squash.mp ht) h
  · cases h
    exact hP.not.mpr (hP.squash.mp (hP.not.mp ht))
  · cases h
    obtain ⟨hvars, hbody⟩ := hP.sum.mp ht
    obtain ⟨ha, hb⟩ := hP.add.mp hbody
    exact hP.add.mpr ⟨hP.sumOver hvars ha, hP.sumOver hvars hb⟩
  · cases h
    obtain ⟨ha, hb⟩ := hP.add.mp (hP.not.mp ht)
    exact hP.mul.mpr ⟨hP.not.mpr ha, hP.not.mpr hb⟩
  · cases h
    obtain ⟨ha, hb⟩ := hP.mul.mp (hP.not.mp ht)
    exact hP.squash.mpr (hP.add.mpr ⟨hP.not.mpr ha, hP.not.mpr hb⟩)
  · cases h
    exact hP.squash.mpr (hP.not.mp (hP.not.mp ht))
  · cases h
    exact hP.squash.mp ht
  · cases h
    obtain ⟨ha, hbc⟩ := hP.mul.mp ht
    obtain ⟨hb, hc⟩ := hP.mul.mp hbc
    exact hP.mul.mpr ⟨hP.mul.mpr ⟨ha, hb⟩, hc⟩
  · cases h
    obtain ⟨ha, hbc⟩ := hP.add.mp ht
    obtain ⟨hb, hc⟩ := hP.add.mp hbc
    exact hP.add.mpr ⟨hP.add.mpr ⟨ha, hb⟩, hc⟩
  · cases h
    obtain ⟨hab, hc⟩ := hP.mul.mp ht
    obtain ⟨ha, hb⟩ := hP.add.mp hab
    exact hP.add.mpr ⟨hP.mul.mpr ⟨ha, hc⟩, hP.mul.mpr ⟨hb, hc⟩⟩
  · cases h
    obtain ⟨ha, hbc⟩ := hP.mul.mp ht
    obtain ⟨hb, hc⟩ := hP.add.mp hbc
    exact hP.add.mpr ⟨hP.mul.mpr ⟨ha, hb⟩, hP.mul.mpr ⟨ha, hc⟩⟩
  · split at h
    · cases h
      exact swapLast_keeps hP.mul ht
    · cases h
  · split at h
    · cases h
      exact swapLast_keeps hP.mul ht
    · cases h
  · refine mergeFactors?_keeps (Q := P) hP.mul (fun f x hf hfactor => ?_)
      (fun bodies merged hm hbodies => ?_) ht h
    · rw [squashBody?_eq_some.mp hf] at hfactor
      exact hP.squash.mp hfactor
    · obtain ⟨p, hp, rfl⟩ := Option.map_eq_some_iff.mp hm
      exact hP.squash.mpr (Term.product?_keeps (fun hl hr => hP.mul.mpr ⟨hl, hr⟩) hp hbodies)
  · refine mergeFactors?_keeps (Q := P) hP.mul (fun f x hf hfactor => ?_)
      (fun bodies merged hm hbodies => ?_) ht h
    · rw [notBody?_eq_some.mp hf] at hfactor
      exact hP.not.mp hfactor
    · obtain ⟨p, hp, rfl⟩ := Option.map_eq_some_iff.mp hm
      exact hP.not.mpr (Term.total?_keeps (fun hl hr => hP.add.mpr ⟨hl, hr⟩) hp hbodies)
  · cases h

/-- What firing a law keeps: the value, readiness, and every reserved name. -/
structure Sound (m : Model D) (s : FreshNames) (t : Term) (s' : FreshNames) (t' : Term) :
    Prop where
  value : t'.value m = t.value m
  ready : t'.Ready s'
  grows : s.Grows s'

/-- Firing a law is sound. For the three laws on summations the renamed binders do not occur in
the term that moves under them, so it moves as a constant factor. -/
theorem fire_sound (m : Model D) {s s' : FreshNames} {law : Law} (ht : t.Ready s)
    (h : law.fire? s t = some (t', s')) : Sound m s t s' t' := by
  unfold fire? at h
  split at h
  · -- `Sum{v}(x) * y`
    next vars body r =>
    obtain ⟨hsum, hr⟩ := Term.ready_mul.mp ht
    have hren := renaming_renameClashing m (fun v => r.uses v) vars body s hsum
    obtain ⟨rfl, rfl⟩ := Prod.mk.inj (Option.some.inj h)
    obtain ⟨hvars, hres, hbody⟩ := Term.ready_sum.mp hren.ready
    refine ⟨?_, (Term.hereditary_ready _).sumOver ⟨hvars, hres⟩ ?_, hren.grows⟩
    · funext env
      rw [Term.value_sumOver, Term.value, Term.value, ← hren.value env]
      exact Env.sumBinders_mul _ _ _ (value_bind_renameClashing m hsum hr) env
    · exact Term.ready_mul.mpr ⟨hbody, hr.mono hren.grows⟩
  · -- `x * Sum{v}(y)`
    next l vars body =>
    obtain ⟨hl, hsum⟩ := Term.ready_mul.mp ht
    have hren := renaming_renameClashing m (fun v => l.uses v) vars body s hsum
    obtain ⟨rfl, rfl⟩ := Prod.mk.inj (Option.some.inj h)
    obtain ⟨hvars, hres, hbody⟩ := Term.ready_sum.mp hren.ready
    refine ⟨?_, (Term.hereditary_ready _).sumOver ⟨hvars, hres⟩ ?_, hren.grows⟩
    · funext env
      have hmul := Env.sumBinders_mul _ (Term.value m
        (renameClashing (fun v => l.uses v) vars body s).2.1) _
        (value_bind_renameClashing m hsum hl) env
      rw [Term.value_sumOver, Term.value, Term.value, ← hren.value env, mul_comm, ← hmul]
      simp only [Term.value, mul_comm]
    · exact Term.ready_mul.mpr ⟨hl.mono hren.grows, hbody⟩
  · -- `Sum{v}(Sum{w}(x))`: nested summations are one iterated summation
    next outer vars body =>
    obtain ⟨houter, hresouter, hsum⟩ := Term.ready_sum.mp ht
    have hren := renaming_renameClashing m (fun v => decide (v ∈ outer)) vars body s hsum
    obtain ⟨rfl, rfl⟩ := Prod.mk.inj (Option.some.inj h)
    obtain ⟨hvars, hres, hbody⟩ := Term.ready_sum.mp hren.ready
    refine ⟨?_, (Term.hereditary_ready _).sumOver ⟨?_, ?_⟩ hbody, hren.grows⟩
    · funext env
      have hinner := funext hren.value
      rw [Term.value_sumOver, Term.value, Env.sumBinders_append]
      show Env.sumBinders outer (Env.sumBinders _ _) env = _
      rw [hinner]
      rfl
    · intro v hv
      rcases mem_append.mp hv with hv | hv
      · exact houter v hv
      · exact hvars v hv
    · intro x hx
      rcases mem_append.mp hx with hx | hx
      · exact hren.grows x (hresouter x hx)
      · exact hres x hx
  · obtain ⟨new, hnew, heq⟩ := Option.map_eq_some_iff.mp h
    obtain ⟨rfl, rfl⟩ := Prod.mk.inj heq
    have hready := plain_keeps (Term.hereditary_ready s) ht hnew
    exact ⟨funext fun env => plain_value m env hnew, hready, fun _ hx => hx⟩

end Law

end QueryRules
