import QueryRules.Proofs.DistinctBinders

/-!
# QueryRules — free variables of reduced terms

A term that is reduced and read as a disjunction has the free variables that it had before
(`Term.free_of_reduce`). No condition on the names is needed for this, other than that binders are
row variables.
-/

namespace QueryRules

open List

variable {x : String}

/-! ## Factors -/

namespace Term

theorem free_factors {t : Term} : t.Free x ↔ ∃ f ∈ t.factors, f.Free x := by
  fun_induction factors t with
  | case1 l r ih =>
    rw [Free, ih]
    simp [or_and_right, exists_or]
  | case2 t _ => simp

theorem free_product? {ts : List Term} {p : Term} (h : product? ts = some p) :
    p.Free x ↔ ∃ t ∈ ts, t.Free x := by
  have hproduct : product ts = p := by
    rw [product, h]
    rfl
  rw [← hproduct, free_product]

theorem free_total? {ts : List Term} {p : Term} (h : total? ts = some p) :
    p.Free x ↔ ∃ t ∈ ts, t.Free x := by
  rw [← free_total, h]
  rfl

end Term

namespace Law

theorem free_swapLast {l r : Term} : (swapLast l r).Free x ↔ l.Free x ∨ r.Free x := by
  unfold swapLast
  split
  · simp only [Term.Free]
    tauto
  · exact Or.comm

theorem free_openSquashes {t t' : Term} (h : openSquashes? t = some t') :
    t'.Free x ↔ (Term.squash t).Free x := by
  have hopen : ∀ f : Term, ((squashBody? f).getD f).Free x ↔ f.Free x := by
    intro f
    cases hf : squashBody? f with
    | none => rfl
    | some b =>
      rw [squashBody?_eq_some.mp hf]
      rfl
  unfold openSquashes? at h
  split at h
  · obtain ⟨p, hp, rfl⟩ := Option.map_eq_some_iff.mp h
    rw [Term.Free, Term.Free, Term.free_product? hp, Term.free_factors]
    simp [hopen]
  · cases h

/-- Merging factors keeps the free variables if opening a factor and merging the opened ones do. -/
theorem free_mergeFactors {body? : Term → Option Term} {merge : List Term → Option Term}
    {t t' : Term} (hbody : ∀ f b, body? f = some b → (b.Free x ↔ f.Free x))
    (hmerge : ∀ bodies merged, merge bodies = some merged →
      (merged.Free x ↔ ∃ b ∈ bodies, b.Free x))
    (h : mergeFactors? body? merge t = some t') : t'.Free x ↔ t.Free x := by
  unfold mergeFactors? at h
  split at h
  · cases h
  · split at h
    · next merged hmerged =>
      rw [Term.free_product? h, Term.free_factors]
      simp only [mem_append, mem_singleton, or_and_right, exists_or, exists_eq_left,
        hmerge _ _ hmerged, mem_filter, mem_filterMap]
      -- A factor is either left as it is or opened and merged.
      constructor
      · rintro (⟨f, ⟨hf, -⟩, hx⟩ | ⟨b, ⟨f, hf, hopen⟩, hx⟩)
        · exact ⟨f, hf, hx⟩
        · exact ⟨f, hf, (hbody f b hopen).mp hx⟩
      · rintro ⟨f, hf, hx⟩
        cases hopen : body? f with
        | none => exact .inl ⟨f, ⟨hf, by rw [hopen]; rfl⟩, hx⟩
        | some b => exact .inr ⟨b, ⟨f, hf, hopen⟩, (hbody f b hopen).mpr hx⟩
    · cases h

/-- A law that needs no fresh name keeps the free variables: it moves terms around, and no binder
comes over a term that was not below it. -/
theorem free_plain {law : Law} {t t' : Term} (h : law.plain? t = some t') :
    t'.Free x ↔ t.Free x := by
  unfold plain? at h
  split at h
  · cases h
    exact Iff.rfl
  · exact free_openSquashes h
  · cases h
    exact Iff.rfl
  · -- `Sum{v}(x + y)`: both summands keep the binders
    cases h
    simp only [Term.Free, Term.free_sumOver]
    exact and_or_left.symm
  · cases h
    exact Iff.rfl
  · cases h
    exact Iff.rfl
  · cases h
    exact Iff.rfl
  · cases h
    exact Iff.rfl
  · cases h
    exact or_assoc
  · cases h
    exact or_assoc
  · cases h
    exact or_or_distrib_right.symm
  · cases h
    exact or_or_distrib_left.symm
  · split at h
    · cases h
      exact free_swapLast
    · cases h
  · split at h
    · cases h
      exact free_swapLast
    · cases h
  · refine free_mergeFactors (fun f b hf => ?_) (fun bodies merged hm => ?_) h
    · rw [squashBody?_eq_some.mp hf]
      rfl
    · obtain ⟨p, hp, rfl⟩ := Option.map_eq_some_iff.mp hm
      rw [Term.Free, Term.free_product? hp]
  · refine free_mergeFactors (fun f b hf => ?_) (fun bodies merged hm => ?_) h
    · rw [notBody?_eq_some.mp hf]
      rfl
    · obtain ⟨p, hp, rfl⟩ := Option.map_eq_some_iff.mp hm
      rw [Term.Free, Term.free_total? hp]
  · cases h

end Law

/-! ## Laws on summations -/

/-- Other variables stay free when a variable is put for another one. -/
theorem Term.free_subst_var_of_ne {y n : String} {t : Term} (hy : x ≠ y) (hn : x ≠ n)
    (h : t.Free x) : (t.subst (.var y) (.var n)).Free x := by
  have htuple : ∀ {u : Tuple}, u.uses (.var x) = true →
      (u.subst (.var y) (.var n)).uses (.var x) = true := by
    intro u hu
    rw [Tuple.subst_var_eq_rename, Tuple.uses_rename]
    exact ⟨x, hu, if_neg hy⟩
  induction t with
  | table name row => exact htuple h
  | pred name args =>
    rw [subst, Free, Tuple.substAll_var_eq_renameAll, Tuple.anyUses_renameAll]
    exact ⟨x, h, if_neg hy⟩
  | eq l r => exact h.imp htuple htuple
  | add l r ihl ihr | mul l r ihl ihr => exact h.imp ihl ihr
  | not t ih | squash t ih => exact ih h
  | sum vars body ih =>
    -- The substitution reaches binders too; the only new one is `n`.
    refine ⟨fun hmem => ?_, ih h.2⟩
    rcases Tuple.mem_substAll_var hmem with heq | ⟨-, hmem⟩
    · exact hn heq
    · exact h.1 hmem

namespace Law

variable {s s' : FreshNames}

/-- Renaming the clashing binders of a summation keeps its free variables. Induction on the binders;
a new name is not free in the body, since all names of the body are reserved. -/
theorem free_renameClashing (clashes : Tuple → Bool) {vars : List Tuple} {body : Term}
    (hready : (Term.sum vars body).Ready s) :
    (.var x ∉ (renameClashing clashes vars body s).1 ∧
      (renameClashing clashes vars body s).2.1.Free x) ↔ .var x ∉ vars ∧ body.Free x := by
  induction vars generalizing body s with
  | nil => exact Iff.rfl
  | cons v vs ih =>
    obtain ⟨⟨y, rfl, -⟩, htail⟩ := Term.ready_sum_cons.mp hready
    rw [renameClashing]
    split
    · have hnew : body.Free x → x ≠ s.pick.1 := by
        rintro hx rfl
        exact Bool.eq_false_iff.mp (pick_unused htail).2 (Term.uses_of_free hx)
      -- Away from the new name, the substitution takes away the old one and nothing else.
      have hsubst : x ≠ s.pick.1 →
          ((body.subst (.var y) (.var s.pick.1)).Free x ↔ x ≠ y ∧ body.Free x) := fun hne =>
        ⟨fun h => (Term.free_subst_var h).resolve_left hne,
          fun h => Term.free_subst_var_of_ne h.1 hne h.2⟩
      have ih := ih (ready_subst_pick htail y)
      simp only [mem_cons, Tuple.var.injEq, not_or]
      constructor
      · rintro ⟨⟨hne, hmem⟩, hx⟩
        obtain ⟨hmem, hx⟩ := ih.mp ⟨hmem, hx⟩
        obtain ⟨hxy, hx⟩ := (hsubst hne).mp hx
        exact ⟨⟨hxy, hmem⟩, hx⟩
      · rintro ⟨⟨hxy, hmem⟩, hx⟩
        obtain ⟨hmem', hx'⟩ := ih.mpr ⟨hmem, (hsubst (hnew hx)).mpr ⟨hxy, hx⟩⟩
        exact ⟨⟨hnew hx, hmem'⟩, hx'⟩
    · have ih := ih htail
      simp only [mem_cons, not_or, and_assoc]
      exact and_congr_right fun _ => ih

/-- What is free in a term is not among the binders that were renamed where they clash with it. -/
theorem not_mem_renameClashing_of_free {r : Term} (hr : r.Ready s) (vars : List Tuple) (body : Term)
    (hx : r.Free x) : .var x ∉ (renameClashing (fun v => r.uses v) vars body s).1 := by
  intro hmem
  have huses := Term.uses_of_free hx
  rcases mem_renameClashing hmem with ⟨-, hclash⟩ | ⟨y, hy, hnew⟩
  · rw [huses] at hclash
    cases hclash
  · exact hnew (hr.reserved y (Tuple.var.inj hy ▸ huses))

/-- **A law keeps the free variables.** -/
theorem free_fire {law : Law} {t t' : Term} (hready : t.Ready s)
    (h : law.fire? s t = some (t', s')) : t'.Free x ↔ t.Free x := by
  -- A term moves under binders in which nothing of it is listed.
  unfold fire? at h
  split at h
  · -- `Sum{v}(x) * y`
    next vars body r =>
    obtain ⟨hsum, hr⟩ := Term.ready_mul.mp hready
    have hren := free_renameClashing (x := x) (fun v => r.uses v) hsum
    have hapart := not_mem_renameClashing_of_free (x := x) hr vars body
    obtain ⟨rfl, rfl⟩ := Prod.mk.inj (Option.some.inj h)
    rw [Term.free_sumOver, Term.Free, Term.Free, Term.Free, ← hren]
    tauto
  · -- `x * Sum{v}(y)`
    next l vars body =>
    obtain ⟨hl, hsum⟩ := Term.ready_mul.mp hready
    have hren := free_renameClashing (x := x) (fun v => l.uses v) hsum
    have hapart := not_mem_renameClashing_of_free (x := x) hl vars body
    obtain ⟨rfl, rfl⟩ := Prod.mk.inj (Option.some.inj h)
    rw [Term.free_sumOver, Term.Free, Term.Free, Term.Free, ← hren]
    tauto
  · -- `Sum{v}(Sum{w}(x))`
    next outer vars body =>
    obtain ⟨-, -, hsum⟩ := Term.ready_sum.mp hready
    have hren := free_renameClashing (x := x) (fun v => decide (v ∈ outer)) hsum
    obtain ⟨rfl, rfl⟩ := Prod.mk.inj (Option.some.inj h)
    -- What the outer binders bind is not free on either side, whatever clashes with them.
    rw [Term.free_sumOver, Term.Free, Term.Free, ← hren, mem_append, not_or, and_assoc]
  · obtain ⟨new, hnew, heq⟩ := Option.map_eq_some_iff.mp h
    obtain ⟨rfl, rfl⟩ := Prod.mk.inj heq
    exact free_plain hnew

end Law

/-! ## Steps and passes -/

namespace Term

/-- A step at any depth keeps the free variables. -/
theorem free_reduce? {s : FreshNames} {laws : List Law} {t : Term} {f : Firing}
    (h : t.reduce? s laws = some f) (hready : t.Ready s) : f.result.Free x ↔ t.Free x := by
  refine reduce?_induction (motive := fun t f => t.Ready s → (f.result.Free x ↔ t.Free x))
    ?_ ?_ ?_ ?_ ?_ ?_ ?_ ?_ h hready
  · intro t f _ hfirst hready
    obtain ⟨-, law, -, -, hfire, -⟩ := Law.firstAt?_eq_some hfirst
    exact Law.free_fire hready hfire
  · exact fun hl hready => or_congr_left (hl (ready_add.mp hready).1)
  · exact fun hr hready => or_congr_right (hr (ready_add.mp hready).2)
  · exact fun hl hready => or_congr_left (hl (ready_mul.mp hready).1)
  · exact fun hr hready => or_congr_right (hr (ready_mul.mp hready).2)
  · exact fun ht hready => ht (ready_not.mp hready)
  · exact fun ht hready => ht (ready_squash.mp hready)
  · exact fun ht hready => and_congr_right fun _ => ht (ready_sum.mp hready).2.2

/-- All passes keep the free variables. -/
theorem free_reduce {t t' : Term} (hbase : t.baseBinders = true) (h : t.reduce = .ok t') :
    t'.Free x ↔ t.Free x := by
  obtain ⟨p, hp, rfl⟩ := exists_reduceRecorded h
  -- A step needs a ready term, so readiness is carried along.
  have hkept : p.term.Ready p.fresh ∧ (p.term.Free x ↔ t.Free x) := by
    refine Pass.runAll_keeps (P := fun u s => u.Ready s ∧ (u.Free x ↔ t.Free x)) ?_ hp
      ⟨ready_freshFor hbase, Iff.rfl⟩
    rintro laws - s u f hf ⟨hready, hu⟩
    exact ⟨ready_reduce? hready hf, (free_reduce? hf hready).trans hu⟩
  exact hkept.2

end Term

/-! ## Reading -/

/-- Whether a variable occurs in an atom or is free in a nested disjunction, one of the factors of a
conjunction. -/
def FreeFactor (x : String) (tables : List TableAtom) (preds : List PredAtom)
    (squashes negations : List Disj) : Prop :=
  (∃ a ∈ tables, a.row.uses (.var x) = true) ∨ (∃ p ∈ preds, p.uses (.var x) = true) ∨
    (∃ d ∈ squashes, Disj.Free x d) ∨ ∃ d ∈ negations, Disj.Free x d

theorem Conj.inside_iff_freeFactor {c : Conj} :
    c.Inside x ↔ FreeFactor x c.tables c.preds c.squash.toList c.negation.toList := by
  have hnested : ∀ d : Option Disj, Disj.FreeOption x d ↔ ∃ e ∈ d.toList, Disj.Free x e := by
    intro d
    cases d with
    | none | some e => simp [Disj.FreeOption]
  have hatoms : (∃ t ∈ c.tuples, t.uses (.var x) = true) ↔
      (∃ a ∈ c.tables, a.row.uses (.var x) = true) ∨ ∃ p ∈ c.preds, p.uses (.var x) = true := by
    simp only [PredAtom.uses_iff, tuples, mem_append, mem_map, mem_flatMap,
      or_and_right, exists_or, exists_exists_and_eq_and]
    refine or_congr_right ⟨?_, ?_⟩
    · rintro ⟨t, ⟨p, hp, ht⟩, hx⟩
      exact ⟨p, hp, t, ht, hx⟩
    · rintro ⟨p, hp, t, ht, hx⟩
      exact ⟨t, ⟨p, hp, ht⟩, hx⟩
  unfold Inside FreeFactor
  rw [hatoms, hnested, hnested, or_assoc]

/-- **Reading keeps the free variables.** -/
theorem Disj.free_ofTerm {t : Term} {d : Disj} (h : Disj.ofTerm t = .ok d) :
    Disj.Free x d ↔ t.Free x := by
  have hsingle : ∀ {c : Conj}, Disj.Free x [c] ↔ .var x ∉ c.vars ∧ c.Inside x := by
    intro c
    rw [Disj.free_iff, ← Conj.free_iff]
    simp
  -- Along the reading; a factor is free where one of its parts is.
  refine (Term.readings (P := fun t d => Disj.Free x d ↔ t.Free x)
    (Q := fun t ts ps sq neg => FreeFactor x ts ps sq neg ↔ t.Free x)
    ?_ ?_ ?_ ?_ ?_ ?_ ?_ ?_ t).1 d h
  · intro n row
    simp [FreeFactor, Term.Free]
  · intro p
    cases p <;> simp [FreeFactor, Term.Free, PredAtom.toTerm, PredAtom.uses]
  · intro t d h
    simpa [FreeFactor, Term.Free] using h
  · intro t d h
    simpa [FreeFactor, Term.Free] using h
  · intro l r _ _ _ _ _ _ _ _ hl hr
    rw [Term.Free, ← hl, ← hr]
    simp only [FreeFactor, mem_append, or_and_right, exists_or]
    exact (or_or_or_comm.trans (or_congr_right
      (or_or_or_comm.trans (or_congr_right or_or_or_comm)))).symm
  · intro t c hvars h
    rw [hsingle, Conj.inside_iff_freeFactor, h, hvars]
    simp
  · intro t c h
    rw [hsingle, Conj.inside_iff_freeFactor, h, Term.Free]
  · intro l r d e hl hr
    rw [Term.Free, ← hl, ← hr]
    simp only [Disj.free_iff, mem_append, or_and_right, exists_or]

/-- **Reducing and reading keep the free variables.** -/
theorem Term.free_of_reduce {t t' : Term} {d : Disj} (hbase : t.baseBinders = true)
    (hred : t.reduce = .ok t') (hread : Disj.ofTerm t' = .ok d) : Disj.Free x d ↔ t.Free x :=
  (Disj.free_ofTerm hread).trans (free_reduce hbase hred)

/-! ## Sets of free variables

The free variables of a term are listed in increasing order. They are row variables, which are
ordered as their names are. -/

namespace OrderedSet

variable {α : Type} [Ord α]

/-- Listed in increasing order, without repeats. -/
def Increasing (s : OrderedSet α) : Prop :=
  s.Pairwise fun a b => compare a b = .lt

variable [Std.TransOrd α] [Std.LawfulEqOrd α] {s s' : OrderedSet α}

/-- An insertion keeps the order. -/
theorem Increasing.insert (h : s.Increasing) (a : α) : (OrderedSet.insert a s).Increasing := by
  induction s with
  | nil => exact pairwise_singleton _ _
  | cons b rest ih =>
    obtain ⟨hb, hrest⟩ := pairwise_cons.mp h
    rw [OrderedSet.insert]
    split
    · next hlt =>
      refine pairwise_cons.mpr ⟨fun c hc => ?_, h⟩
      rcases mem_cons.mp hc with rfl | hc
      · exact hlt
      · exact Std.TransCmp.lt_trans hlt (hb c hc)
    · exact h
    · -- The new member goes further down, and the head stays below it.
      next hgt =>
      refine pairwise_cons.mpr ⟨fun c hc => ?_, ih hrest⟩
      rcases mem_insert.mp hc with rfl | hc
      · exact Std.OrientedCmp.gt_iff_lt.mp hgt
      · exact hb c hc

theorem Increasing.eq_of_mem_iff (h : s.Increasing) (h' : s'.Increasing)
    (hmem : ∀ a, a ∈ s ↔ a ∈ s') : s = s' := by
  have hirrefl : ∀ a b : α, compare a b = .lt → a ≠ b := by
    rintro a b hlt rfl
    rw [Std.ReflOrd.compare_self] at hlt
    cases hlt
  have hnodup : ∀ {u : OrderedSet α}, u.Increasing → List.Nodup u := fun hu =>
    hu.imp fun {a b} hlt => hirrefl a b hlt
  refine List.Perm.eq_of_pairwise (fun a b _ _ hab hba => ?_) h h'
    ((perm_ext_iff_of_nodup (hnodup h) (hnodup h')).mpr hmem)
  exact absurd rfl (hirrefl a a (Std.TransCmp.lt_trans hab hba))

theorem insert_map_var (names : OrderedSet String) (a : String) :
    OrderedSet.insert (.var a) (names.map Tuple.var)
      = (OrderedSet.insert a names).map Tuple.var := by
  induction names with
  | nil => rfl
  | cons b rest ih =>
    have hcompare : compare (Tuple.var a) (Tuple.var b) = compare a b := rfl
    rw [map_cons, OrderedSet.insert, OrderedSet.insert, hcompare]
    cases compare a b with
    | lt | eq => rfl
    | gt => rw [ih, map_cons]

/-- Adding variables to a set of variables. -/
theorem exists_names_insertAll {names : OrderedSet String} (h : names.Increasing) {vs : List Tuple}
    (hvs : ∀ v ∈ vs, v.isVar = true) : ∃ names' : OrderedSet String, names'.Increasing ∧
      OrderedSet.insertAll (names.map Tuple.var) vs = names'.map Tuple.var := by
  induction vs generalizing names with
  | nil => exact ⟨names, h, rfl⟩
  | cons v vs ih =>
    obtain ⟨a, rfl⟩ := Tuple.exists_eq_var (hvs v mem_cons_self)
    obtain ⟨names', h', heq⟩ := ih (h.insert a) fun w hw => hvs w (mem_cons_of_mem _ hw)
    refine ⟨names', h', ?_⟩
    rw [← heq, ← insert_map_var]
    rfl

end OrderedSet

namespace Term

/-- Free variables are collected in the order of their names. -/
theorem exists_names_collectFreeVars (t : Term) (bound : List Tuple) {names : OrderedSet String}
    (h : names.Increasing) : ∃ names' : OrderedSet String, names'.Increasing ∧
      t.collectFreeVars bound (names.map Tuple.var) = names'.map Tuple.var := by
  induction t generalizing bound names with
  | table n row =>
    refine OrderedSet.exists_names_insertAll h fun v hv => ?_
    have hmem := mem_of_mem_filter hv
    simp only [atomVars, collectAtomVars, Tuple.mem_collectVars, not_mem_nil, false_or] at hmem
    exact hmem.1
  | pred n args =>
    refine OrderedSet.exists_names_insertAll h fun v hv => ?_
    have hmem := mem_of_mem_filter hv
    simp only [atomVars, collectAtomVars, Tuple.mem_collectVarsAll, not_mem_nil,
      false_or] at hmem
    exact hmem.1
  | eq l r =>
    refine OrderedSet.exists_names_insertAll h fun v hv => ?_
    have hmem := mem_of_mem_filter hv
    simp only [atomVars, collectAtomVars, Tuple.mem_collectVars, not_mem_nil, false_or] at hmem
    exact hmem.elim And.left And.left
  | add l r ihl ihr =>
    -- The right side is added to the set that the left side leaves.
    obtain ⟨mid, hmid, heq⟩ := ihl bound h
    rw [collectFreeVars, heq]
    exact ihr bound hmid
  | mul l r ihl ihr =>
    obtain ⟨mid, hmid, heq⟩ := ihl bound h
    rw [collectFreeVars, heq]
    exact ihr bound hmid
  | not t ih | squash t ih => exact ih bound h
  | sum vars body ih => exact ih (bound ++ vars) h

/-- **Terms with the same free variables have the same set of them.** -/
theorem freeVars_eq_iff {t u : Term} : t.freeVars = u.freeVars ↔ ∀ x, t.Free x ↔ u.Free x := by
  constructor
  · intro h x
    rw [← var_mem_freeVars, h, var_mem_freeVars]
  · intro h
    obtain ⟨names, hnames, heq⟩ := t.exists_names_collectFreeVars [] List.Pairwise.nil
    obtain ⟨names', hnames', heq'⟩ := u.exists_names_collectFreeVars [] List.Pairwise.nil
    have hmem : ∀ {w : Term} {ns : OrderedSet String}, w.freeVars = ns.map Tuple.var →
        ∀ x, x ∈ ns ↔ w.Free x := by
      intro w ns hw x
      rw [← var_mem_freeVars, hw]
      simp
    have hsame : names = names' := hnames.eq_of_mem_iff hnames' fun x => by
      rw [hmem heq, hmem heq', h]
    exact heq.trans ((congrArg (List.map Tuple.var) hsame).trans heq'.symm)

end Term

end QueryRules
