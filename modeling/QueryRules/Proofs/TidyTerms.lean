import QueryRules.Proofs.Gathering
import QueryRules.Proofs.LawSoundness

/-!
# QueryRules — reducing a written normal form changes its grouping only

On a term that is written from a normal form some laws fire nevertheless: negations of sums are
split and merged again, squashes and negations change places with atoms, sums and products are
regrouped. None of this changes what the term says.
-/

namespace QueryRules

open List

/-! ## Tidy terms -/

/-- A conjunction that stays as it is below a negation: it has binders, or is a single atom. -/
def Conj.Negatable (c : Conj) : Prop :=
  c.vars ≠ [] ∨
    (c.squash = none ∧ c.negation = none ∧ c.tables.length + c.preds.length = 1)

/-- A disjunction that stays as it is below a squash: it is not a single product with a squash of
its own, and not a single negation. -/
def Disj.Squashable (d : Disj) : Prop :=
  ∀ c, d = [c] → c.vars = [] → c.squash = none ∧ (c.tables ≠ [] ∨ c.preds ≠ [])

namespace Term

/-- A sum of products in which only the grouping of summands, factors and negations may differ from
a normal form. -/
def Tidy : Term → Prop
  | .table _ _ | .pred _ _ | .eq _ _ => True
  | .add l r => l.Tidy ∧ r.Tidy
  | .mul l r => (l.Tidy ∧ l.IsProduct) ∧ (r.Tidy ∧ r.IsProduct) ∧
      (l.gather.append r.gather).squashes.length ≤ 1
  | .not t => t.Tidy ∧ ∀ c ∈ t.spread, c.Negatable
  | .squash t => t.Tidy ∧ Disj.Squashable t.spread
  | .sum vars body => vars ≠ [] ∧ body.Tidy ∧ body.IsProduct

/-- Two terms that say the same, up to grouping. -/
structure Alike (t t' : Term) : Prop where
  isProduct : t'.IsProduct ↔ t.IsProduct
  spread : t'.spread = t.spread
  gather : t'.gather = t.gather

/-- What a step does to a tidy term. -/
def Regroups (t t' : Term) : Prop :=
  t.Tidy → t'.Tidy ∧ Alike t t'

variable {l l' r r' t t' : Term}

/-- Products are alike as soon as their factors are. -/
theorem alike_of_gather (h : t.IsProduct) (h' : t'.IsProduct) (heq : t'.gather = t.gather) :
    Alike t t' := by
  refine ⟨⟨fun _ => h, fun _ => h'⟩, ?_, heq⟩
  rw [spread_of_isProduct h, spread_of_isProduct h', heq]

/-! ## Steps inside of a term -/

theorem Regroups.addLeft (h : Regroups l l') : Regroups (.add l r) (.add l' r) := by
  rintro ⟨hl, hr⟩
  obtain ⟨hl', heq⟩ := h hl
  refine ⟨⟨hl', hr⟩, ⟨Iff.rfl, ?_, rfl⟩⟩
  rw [Term.spread, Term.spread, heq.spread]

theorem Regroups.addRight (h : Regroups r r') : Regroups (.add l r) (.add l r') := by
  rintro ⟨hl, hr⟩
  obtain ⟨hr', heq⟩ := h hr
  refine ⟨⟨hl, hr'⟩, ⟨Iff.rfl, ?_, rfl⟩⟩
  rw [Term.spread, Term.spread, heq.spread]

theorem Regroups.mulLeft (h : Regroups l l') : Regroups (.mul l r) (.mul l' r) := by
  rintro ⟨⟨hl, hlp⟩, hr, hsquash⟩
  obtain ⟨hl', heq⟩ := h hl
  refine ⟨⟨⟨hl', heq.isProduct.mpr hlp⟩, hr, ?_⟩,
    alike_of_gather (isProduct_mul l r) (isProduct_mul l' r) ?_⟩
  · rw [heq.gather]
    exact hsquash
  · rw [Term.gather, Term.gather, heq.gather]

theorem Regroups.mulRight (h : Regroups r r') : Regroups (.mul l r) (.mul l r') := by
  rintro ⟨hl, ⟨hr, hrp⟩, hsquash⟩
  obtain ⟨hr', heq⟩ := h hr
  refine ⟨⟨hl, ⟨hr', heq.isProduct.mpr hrp⟩, ?_⟩,
    alike_of_gather (isProduct_mul l r) (isProduct_mul l r') ?_⟩
  · rw [heq.gather]
    exact hsquash
  · rw [Term.gather, Term.gather, heq.gather]

theorem Regroups.not (h : Regroups t t') : Regroups (.not t) (.not t') := by
  rintro ⟨ht, hneg⟩
  obtain ⟨ht', heq⟩ := h ht
  refine ⟨⟨ht', ?_⟩, alike_of_gather (isProduct_not t) (isProduct_not t') ?_⟩
  · rw [heq.spread]
    exact hneg
  · rw [Term.gather, Term.gather, heq.spread]

theorem Regroups.squash (h : Regroups t t') : Regroups (.squash t) (.squash t') := by
  rintro ⟨ht, hsq⟩
  obtain ⟨ht', heq⟩ := h ht
  refine ⟨⟨ht', ?_⟩, alike_of_gather (isProduct_squash t) (isProduct_squash t') ?_⟩
  · rw [heq.spread]
    exact hsq
  · rw [Term.gather, Term.gather, heq.spread]

theorem Regroups.sum {vars : List Tuple} (h : Regroups t t') :
    Regroups (.sum vars t) (.sum vars t') := by
  rintro ⟨hvars, ht, htp⟩
  obtain ⟨ht', heq⟩ := h ht
  refine ⟨⟨hvars, ht', heq.isProduct.mpr htp⟩, ⟨Iff.rfl, ?_, rfl⟩⟩
  rw [Term.spread, Term.spread, heq.gather]

end Term

/-! ## Products and sums of lists -/

namespace Gathered

/-- The factors of several products together. -/
def concat (gs : List Gathered) : Gathered :=
  ⟨gs.flatMap tables, gs.flatMap preds, gs.flatMap squashes, gs.flatMap negated⟩

theorem concat_append (gs gs' : List Gathered) :
    concat (gs ++ gs') = (concat gs).append (concat gs') := by
  simp [concat, append]

theorem concat_singleton (g : Gathered) : concat [g] = g := by
  simp [concat]

end Gathered

namespace Term

theorem gather_foldl_mul (t : Term) (ts : List Term) :
    (ts.foldl .mul t).gather = Gathered.concat ((t :: ts).map Term.gather) := by
  induction ts generalizing t with
  | nil => exact (Gathered.concat_singleton _).symm
  | cons u us ih =>
    rw [foldl_cons, ih, map_cons, map_cons, map_cons, gather]
    simp [Gathered.concat, Gathered.append]

variable {ts : List Term} {p : Term}

theorem gather_product? (h : product? ts = some p) :
    p.gather = Gathered.concat (ts.map Term.gather) := by
  cases ts with
  | nil => cases h
  | cons t ts =>
    cases h
    exact gather_foldl_mul t ts

theorem gather_eq_concat_factors (t : Term) :
    t.gather = Gathered.concat (t.factors.map Term.gather) := by
  fun_induction Term.factors t with
  | case1 l r ih =>
    rw [gather, map_append, Gathered.concat_append, ← ih, map_singleton,
      Gathered.concat_singleton]
  | case2 t _ => exact (Gathered.concat_singleton _).symm

theorem spread_foldl_add (t : Term) (ts : List Term) :
    (ts.foldl .add t).spread = (t :: ts).flatMap Term.spread := by
  induction ts generalizing t with
  | nil => simp
  | cons u us ih =>
    rw [foldl_cons, ih]
    simp [spread]

theorem Tidy.factors {t : Term} (h : t.Tidy) (hp : t.IsProduct) :
    ∀ f ∈ t.factors, f.Tidy ∧ f.IsProduct :=
  factors_keep (P := fun t => t.Tidy ∧ t.IsProduct) (fun h => ⟨h.1.1, h.1.2.1⟩) ⟨h, hp⟩

/-- A product of tidy factors with one squash at most is tidy. -/
theorem tidy_foldl_mul {t : Term} (ht : t.Tidy ∧ t.IsProduct)
    (hts : ∀ u ∈ ts, u.Tidy ∧ u.IsProduct)
    (hsquash : (Gathered.concat ((t :: ts).map Term.gather)).squashes.length ≤ 1) :
    (ts.foldl .mul t).Tidy ∧ (ts.foldl .mul t).IsProduct := by
  induction ts generalizing t with
  | nil => exact ht
  | cons u us ih =>
    have hlen : (Gathered.concat ((t :: u :: us).map Term.gather)).squashes.length
        = (t.gather.append u.gather).squashes.length
          + (Gathered.concat (us.map Term.gather)).squashes.length := by
      simp [Gathered.concat, Gathered.append]
      omega
    refine ih ⟨⟨ht, hts u mem_cons_self, ?_⟩, isProduct_mul t u⟩
      (fun w hw => hts w (mem_cons_of_mem _ hw)) ?_
    · omega
    · rw [map_cons, gather]
      simp only [Gathered.concat, Gathered.append, flatMap_cons, map_cons,
        append_assoc] at hsquash ⊢
      exact hsquash

/-! ## Laws on tidy terms -/

variable {l r t t' : Term}

/-- Each squash factor of a product is gathered. -/
theorem squashCount_le (t : Term) : t.squashCount ≤ t.gather.squashes.length := by
  induction t with
  | mul l r ihl _ =>
    have hr : (if (Law.squashBody? r).isSome = true then 1 else 0) ≤ r.gather.squashes.length := by
      cases r <;> simp [Law.squashBody?, gather]
    unfold squashCount at ihl ⊢
    rw [gather, Gathered.append, length_append, countFactors]
    omega
  | squash t _ => simp [squashCount, countFactors, Law.squashBody?, gather]
  | table n row => exact Nat.zero_le _
  | pred n args | eq l r | add l r _ _ | not t _ | sum vars body _ => exact Nat.zero_le _

theorem Tidy.squashes_le {t : Term} (h : t.Tidy) : t.gather.squashes.length ≤ 1 := by
  cases t with
  | mul l r => exact h.2.2
  | table n row | pred n args | eq l r => simp [gather]
  | add l r => simp [gather, Gathered.empty]
  | not t | squash t => simp [gather]
  | sum vars body => simp [gather, Gathered.empty]

/-- A tidy product has a factor. -/
theorem Tidy.size_pos {t : Term} (h : t.Tidy) (hp : t.IsProduct) : 0 < t.gather.size := by
  induction t with
  | mul l r ihl ihr =>
    have hl := ihl h.1.1 h.1.2
    rw [gather, Gathered.size_append]
    omega
  | table n row | pred n args | eq l r => simp [gather, Gathered.size]
  | add l r => exact absurd rfl hp.1
  | not t =>
    -- A negation counts once for each conjunction below it, and there is one.
    have hlen := length_pos_of_ne_nil t.spread_ne_nil
    simp only [gather, Gathered.size, length_nil]
    omega
  | squash t => simp [gather, Gathered.size]
  | sum vars body => exact absurd rfl hp.2

/-- A product stays as it is below a negation only if it is a single factor, an atom. -/
theorem size_of_negatable {g : Gathered} (h : (g.toConj []).Negatable) :
    g.size = 1 ∧ g.squashes = [] ∧ g.negated = [] := by
  rcases h with h | ⟨hsq, hneg, hlen⟩
  · exact absurd rfl h
  · have hsquashes : g.squashes = [] := head?_eq_none_iff.mp hsq
    have hnegated : g.negated = [] := by
      by_contra hne
      simp [Gathered.toConj, hne] at hneg
    refine ⟨?_, hsquashes, hnegated⟩
    rw [Gathered.size, hsquashes, hnegated]
    exact hlen

theorem eq_squash_of_kind (h : t.kind = .squash) : ∃ x, t = .squash x := by
  cases t with
  | squash x => exact ⟨x, rfl⟩
  | _ => cases h

theorem eq_not_of_kind (h : t.kind = .not) : ∃ x, t = .not x := by
  cases t with
  | not x => exact ⟨x, rfl⟩
  | _ => cases h

theorem squashes_of_kind (hmul : t.kind ≠ .mul) (hsquash : t.kind ≠ .squash) :
    t.gather.squashes = [] := by
  cases t with
  | mul l r => exact absurd rfl hmul
  | squash x => exact absurd rfl hsquash
  | _ => rfl

theorem negated_of_kind (hmul : t.kind ≠ .mul) (hnot : t.kind ≠ .not) :
    t.gather.negated = [] := by
  cases t with
  | mul l r => exact absurd rfl hmul
  | not x => exact absurd rfl hnot
  | _ => rfl

/-- Moving the last factor over another one regroups, if the two may be swapped. -/
theorem regroups_swapLast
    (hswap : (Law.lastFactor l).gather.append r.gather
      = r.gather.append (Law.lastFactor l).gather) : Regroups (.mul l r) (Law.swapLast l r) := by
  rintro ⟨⟨hl, hlp⟩, hr, hsquash⟩
  unfold Law.swapLast
  split
  · -- `head * last * r` becomes `head * r * last`
    next head last =>
    have hgather : ((head.gather.append r.gather).append last.gather)
        = (head.gather.append last.gather).append r.gather := by
      rw [Gathered.append_assoc, Gathered.append_assoc]
      exact congrArg _ hswap.symm
    have hlen : ((head.gather.append r.gather).append last.gather).squashes.length ≤ 1 := by
      rw [hgather]
      exact hsquash
    refine ⟨⟨⟨⟨hl.1, hr, ?_⟩, isProduct_mul _ _⟩, hl.2.1, hlen⟩,
      alike_of_gather (isProduct_mul _ _) (isProduct_mul _ _) hgather⟩
    rw [Gathered.append, length_append] at hlen
    omega
  · -- `l * r` becomes `r * l`
    next hsingle =>
    have hlast : Law.lastFactor l = l := by
      cases l with
      | mul head last => exact absurd rfl (hsingle head last)
      | _ => rfl
    rw [hlast] at hswap
    refine ⟨⟨hr, ⟨hl, hlp⟩, ?_⟩, alike_of_gather (isProduct_mul _ _) (isProduct_mul _ _) ?_⟩
    · rw [← hswap]
      exact hsquash
    · exact hswap.symm

/-- A product of tidy factors is tidy if it has one squash at most. -/
theorem tidy_product? (h : product? ts = some p)
    (hts : ∀ t ∈ ts, t.Tidy ∧ t.IsProduct) (hsquash : p.gather.squashes.length ≤ 1) :
    p.Tidy ∧ p.IsProduct := by
  rw [gather_product? h] at hsquash
  cases ts with
  | nil => cases h
  | cons t ts =>
    cases h
    exact tidy_foldl_mul (hts t mem_cons_self)
      (fun u hu => hts u (mem_cons_of_mem _ hu)) hsquash

theorem spread_total? (h : total? ts = some p) :
    p.spread = ts.flatMap Term.spread := by
  cases ts with
  | nil => cases h
  | cons t ts =>
    cases h
    exact spread_foldl_add t ts

theorem tidy_total? (h : total? ts = some p)
    (hts : ∀ t ∈ ts, t.Tidy) : p.Tidy :=
  total?_keeps (fun hl hr => ⟨hl, hr⟩) h hts

/-- What may be negated one by one may be negated together. -/
theorem tidy_not_total? (h : total? ts = some p)
    (hts : ∀ t ∈ ts, (Term.not t).Tidy) : (Term.not p).Tidy := by
  refine ⟨tidy_total? h fun t ht => (hts t ht).1, fun c hc => ?_⟩
  rw [spread_total? h] at hc
  obtain ⟨u, hu, hcu⟩ := mem_flatMap.mp hc
  exact (hts u hu).2 c hcu

/-- The negations among factors that are no products may be put at the end. -/
theorem concat_negations_last {fs : List Term} (hflat : ∀ f ∈ fs, f.kind ≠ .mul) :
    (Gathered.concat ((fs.filter fun f => (Law.notBody? f).isNone).map Term.gather)).negated = [] ∧
      Gathered.concat (fs.map Term.gather)
        = (Gathered.concat ((fs.filter fun f => (Law.notBody? f).isNone).map Term.gather)).append
          ⟨[], [], [], (fs.filterMap Law.notBody?).flatMap Term.spread⟩ := by
  induction fs with
  | nil => exact ⟨rfl, rfl⟩
  | cons f fs ih =>
    obtain ⟨hnil, heq⟩ := ih fun g hg => hflat g (mem_cons_of_mem _ hg)
    have hcons : ∀ (g : Gathered) (gs : List Gathered),
        Gathered.concat (g :: gs) = g.append (Gathered.concat gs) := fun _ _ => rfl
    rw [map_cons, hcons, heq]
    cases hbody : Law.notBody? f with
    | some x =>
      -- The negation moves over factors that are no negations.
      have hf := Law.notBody?_eq_some.mp hbody
      subst hf
      rw [filter_cons_of_neg (by simp [Law.notBody?]), filterMap_cons_some hbody,
        flatMap_cons]
      refine ⟨hnil, ?_⟩
      simp [gather, Gathered.append, hnil]
    | none =>
      have hnegated : f.gather.negated = [] := by
        refine negated_of_kind (hflat f mem_cons_self) fun hkind => ?_
        obtain ⟨x, rfl⟩ := eq_not_of_kind hkind
        cases hbody
      rw [filter_cons_of_pos (by simp [hbody]), filterMap_cons_none hbody, map_cons,
        hcons, Gathered.append_assoc]
      refine ⟨?_, rfl⟩
      rw [Gathered.append, hnegated, hnil]
      rfl

/-- Merging the negations of a product whose right factors are no products regroups: in such a
product the negations stand in order. -/
theorem regroups_mulNot (hflat : ∀ f ∈ t.factors, f.kind ≠ .mul) (hp : t.IsProduct)
    (h : Law.mergeFactors? Law.notBody? (fun bodies => (total? bodies).map .not) t = some t') :
    Regroups t t' := by
  intro ht
  have hfactors := ht.factors hp
  unfold Law.mergeFactors? at h
  split at h
  · cases h
  split at h
  · next merged hmerged =>
    obtain ⟨p, hp', rfl⟩ := Option.map_eq_some_iff.mp hmerged
    have hspread := spread_total? hp'
    have hbodies : ∀ x ∈ t.factors.filterMap Law.notBody?, (Term.not x).Tidy := by
      intro x hx
      obtain ⟨f, hf, hfx⟩ := mem_filterMap.mp hx
      rw [← Law.notBody?_eq_some.mp hfx]
      exact (hfactors f hf).1
    -- Both have the other factors in order and then the negated conjunctions in order.
    have hgather : t'.gather = t.gather := by
      obtain ⟨-, heq⟩ := concat_negations_last hflat
      rw [gather_product? h, gather_eq_concat_factors t, heq, map_append,
        Gathered.concat_append, map_singleton, Gathered.concat_singleton, gather, hspread]
    have hnot := tidy_not_total? hp' hbodies
    have hresult : t'.Tidy ∧ t'.IsProduct := by
      refine tidy_product? h (fun f hf => ?_) (hgather ▸ ht.squashes_le)
      rcases mem_append.mp hf with hf | hf
      · exact hfactors f (mem_of_mem_filter hf)
      · rw [mem_singleton.mp hf]
        exact ⟨hnot, isProduct_not p⟩
    exact ⟨hresult.1, alike_of_gather hp hresult.2 hgather⟩
  · cases h

end Term

namespace Law

/-- A law that needs no fresh name regroups a tidy term, or does not fire on it. One case for each
line of `Law.plain?`. -/
theorem regroups_plain {law : Law} {t t' : Term}
    (hflat : law = .mulNot → ∀ f ∈ t.factors, f.kind ≠ .mul) (h : law.plain? t = some t') :
    t.Regroups t' := by
  unfold plain? at h
  split at h
  · -- `||(||x||)||`
    rintro ⟨-, hsq⟩
    exact absurd (hsq _ rfl rfl).1 (by simp [Gathered.toConj])
  · -- `||a * ||x||||`
    next l r =>
    rintro ⟨-, hsq⟩
    have hnone : (Term.mul l r).gather.squashes = [] :=
      head?_eq_none_iff.mp (hsq _ rfl rfl).1
    have hcount := (Term.mul l r).squashCount_le
    rw [hnone] at hcount
    unfold openSquashes? at h
    rw [if_neg (by simpa [Term.squashCount] using hcount)] at h
    cases h
  · -- `not(||x||)`
    rintro ⟨-, hneg⟩
    have hsize := Term.size_of_negatable (hneg _ mem_cons_self)
    exact absurd hsize.2.1 (by simp)
  · -- `Sum{v}(x + y)`
    rintro ⟨-, -, hp⟩
    exact absurd rfl hp.1
  · -- `not(x + y)`
    next a b =>
    cases h
    rintro ⟨⟨ha, hb⟩, hneg⟩
    rw [Term.spread] at hneg
    refine ⟨⟨⟨⟨ha, fun c hc => hneg c (mem_append_left _ hc)⟩, Term.isProduct_not a⟩,
      ⟨⟨hb, fun c hc => hneg c (mem_append_right _ hc)⟩, Term.isProduct_not b⟩, ?_⟩,
      Term.alike_of_gather (Term.isProduct_not _) (Term.isProduct_mul _ _) ?_⟩
    · simp [Term.gather, Gathered.append]
    · simp [Term.gather, Gathered.append, Term.spread]
  · -- `not(x * y)`: two factors are more than one atom
    next a b =>
    rintro ⟨⟨⟨ha, hap⟩, ⟨hb, hbp⟩, -⟩, hneg⟩
    have hsize := (Term.size_of_negatable (hneg _ mem_cons_self)).1
    have hpos := ha.size_pos hap
    have hpos' := hb.size_pos hbp
    rw [Gathered.size_append] at hsize
    omega
  · -- `not(not(x))`
    next x =>
    rintro ⟨-, hneg⟩
    have hsize := Term.size_of_negatable (hneg _ mem_cons_self)
    exact absurd hsize.2.2 x.spread_ne_nil
  · -- `||not(x)||`
    rintro ⟨-, hsq⟩
    exact absurd (hsq _ rfl rfl).2 (by simp [Gathered.toConj])
  · -- `x * (y * z)`
    cases h
    rintro ⟨ha, ⟨⟨hb, hc, -⟩, -⟩, hsquash⟩
    rw [Term.gather, ← Gathered.append_assoc] at hsquash
    refine ⟨⟨⟨⟨ha, hb, ?_⟩, Term.isProduct_mul _ _⟩, hc, hsquash⟩,
      Term.alike_of_gather (Term.isProduct_mul _ _) (Term.isProduct_mul _ _) ?_⟩
    · rw [Gathered.append, length_append] at hsquash
      omega
    · simp only [Term.gather]
      exact Gathered.append_assoc _ _ _
  · -- `x + (y + z)`
    cases h
    rintro ⟨ha, hb, hc⟩
    refine ⟨⟨⟨ha, hb⟩, hc⟩, ⟨Iff.rfl, ?_, rfl⟩⟩
    simp [Term.spread]
  · -- `(x + y) * z`
    rintro ⟨⟨-, hp⟩, -⟩
    exact absurd rfl hp.1
  · -- `x * (y + z)`
    rintro ⟨-, ⟨-, hp⟩, -⟩
    exact absurd rfl hp.1
  · -- a squash moves right over an atom
    next l r =>
    split at h
    · next hkinds =>
      cases h
      intro ht
      obtain ⟨x, hx⟩ := Term.eq_squash_of_kind hkinds.1
      have hr : r.gather.squashes = [] := by
        refine Term.squashes_of_kind ?_ ?_ <;> intro hkind <;> simp [hkind] at hkinds
      refine Term.regroups_swapLast ?_ ht
      rw [hx, Term.gather]
      simp [Gathered.append, hr]
    · cases h
  · -- a negation moves right over another factor
    next l r =>
    split at h
    · next hkinds =>
      cases h
      intro ht
      obtain ⟨x, hx⟩ := Term.eq_not_of_kind hkinds.1
      have hr : r.gather.negated = [] := by
        refine Term.negated_of_kind ?_ ?_ <;> intro hkind <;> simp [hkind] at hkinds
      refine Term.regroups_swapLast ?_ ht
      rw [hx, Term.gather]
      simp [Gathered.append, hr]
    · cases h
  · -- two squashes merge
    next l r =>
    intro ht
    have hcount := (Term.mul l r).squashCount_le
    have hle := ht.squashes_le
    unfold Term.squashCount at hcount
    rw [mergeFactors?, if_pos (by omega)] at h
    cases h
  · -- negations merge
    next l r => exact Term.regroups_mulNot (hflat rfl) (Term.isProduct_mul l r) h
  · cases h

/-- A law regroups a tidy term, or does not fire on it: the laws on summations find none inside of a
product or of another summation. -/
theorem regroups_fire {s s' : FreshNames} {law : Law} {t t' : Term}
    (hflat : law = .mulNot → ∀ f ∈ t.factors, f.kind ≠ .mul)
    (h : law.fire? s t = some (t', s')) : t.Regroups t' := by
  unfold fire? at h
  split at h
  · rintro ⟨⟨-, hp⟩, -⟩
    exact absurd rfl hp.2
  · rintro ⟨-, ⟨-, hp⟩, -⟩
    exact absurd rfl hp.2
  · rintro ⟨-, -, hp⟩
    exact absurd rfl hp.2
  · obtain ⟨new, hnew, heq⟩ := Option.map_eq_some_iff.mp h
    cases heq
    exact regroups_plain hflat hnew

/-- A list of laws that regroups products before it merges their negations. -/
def RegroupsFirst (laws : List Law) : Prop :=
  (.mulNot ∈ laws → .mulAssoc ∈ laws) ∧ laws.Pairwise fun e e' => e = .mulNot → e' ≠ .mulAssoc

theorem RegroupsFirst.mem_before {laws before after : List Law} (h : RegroupsFirst laws)
    (hlaws : laws = before ++ .mulNot :: after) : .mulAssoc ∈ before := by
  subst hlaws
  obtain ⟨hassoc, horder⟩ := h
  rcases mem_append.mp (hassoc (by simp)) with hmem | hmem
  · exact hmem
  · rcases mem_cons.mp hmem with heq | hmem
    · cases heq
    · have hafter := (pairwise_append.mp horder).2.1
      exact absurd rfl ((pairwise_cons.mp hafter).1 _ hmem rfl)

theorem regroupsFirst_passes : ∀ laws ∈ Pass.all, RegroupsFirst laws := by
  unfold RegroupsFirst
  decide

end Law

/-! ## Steps and runs on tidy terms -/

namespace Term

variable {s : FreshNames} {laws : List Law}

theorem kind_ne_mul_of_mulAssoc {l r : Term} (h : Law.mulAssoc.fire? s (.mul l r) = none) :
    r.kind ≠ .mul := by
  intro hr
  cases r <;> simp [kind] at hr
  cases l <;> simp [Law.fire?, Law.plain?] at h

/-- The factors of a product that takes no step are no products. -/
theorem factors_flat (hassoc : .mulAssoc ∈ laws) {t : Term} (h : t.reduce? s laws = none) :
    ∀ f ∈ t.factors, f.kind ≠ .mul := by
  fun_induction Term.factors t with
  | case1 l r ih =>
    obtain ⟨⟨hl, -⟩, hroot⟩ := reduce?_eq_none_iff.mp h
    intro f hf
    rcases mem_append.mp hf with hf | hf
    · exact ih hl f hf
    · rw [mem_singleton.mp hf]
      exact kind_ne_mul_of_mulAssoc (hroot _ hassoc)
  | case2 t hmul =>
    intro f hf
    rw [mem_singleton.mp hf]
    cases t with
    | mul l r => exact absurd rfl (hmul l r)
    | _ => simp [kind]

/-- Where negations are merged, the product is a chain: no right factor is a product. -/
theorem factors_flat_of_mulNot (hlaws : Law.RegroupsFirst laws) {before after : List Law} {t : Term}
    (hsplit : laws = before ++ .mulNot :: after) (hstill : t.Still s laws)
    (hbefore : ∀ e ∈ before, e.fire? s t = none) {t' : Term} {s' : FreshNames}
    (hfire : Law.mulNot.fire? s t = some (t', s')) : ∀ f ∈ t.factors, f.kind ≠ .mul := by
  have hmem := hlaws.mem_before hsplit
  cases t with
  | mul l r =>
    intro f hf
    rw [Term.factors] at hf
    rcases mem_append.mp hf with hf | hf
    · refine factors_flat ?_ hstill.1 f hf
      rw [hsplit]
      exact mem_append_left _ hmem
    · rw [mem_singleton.mp hf]
      exact kind_ne_mul_of_mulAssoc (hbefore _ hmem)
  | _ => simp [Law.fire?, Law.plain?] at hfire

/-- A step on a tidy term changes its grouping only. -/
theorem regroups_reduce? (hlaws : Law.RegroupsFirst laws) {t : Term} {f : Firing}
    (h : t.reduce? s laws = some f) : Regroups t f.result := by
  refine reduce?_induction (motive := fun t f => Regroups t f.result) ?_ Regroups.addLeft
    Regroups.addRight Regroups.mulLeft Regroups.mulRight Regroups.not Regroups.squash
    Regroups.sum h
  intro t f hstill hfirst
  obtain ⟨before, law, after, hsplit, hfire, hbefore⟩ := Law.firstAt?_eq_some hfirst
  refine Law.regroups_fire (fun hlaw => ?_) hfire
  -- Subterms were searched before, and so were the laws earlier in the list.
  subst hlaw
  exact factors_flat_of_mulNot hlaws hsplit hstill hbefore hfire

/-- What is read after the reduction of a tidy term is what stood there before. -/
theorem Tidy.ofTerm_reduce {t t' : Term} (ht : t.Tidy) (h : t.reduce = .ok t') :
    Disj.ofTerm t' = .ok t.spread := by
  obtain ⟨d, hd⟩ := ofTerm_of_reduce h
  obtain ⟨p, hp, rfl⟩ := exists_reduceRecorded h
  have hrun : p.term.Tidy ∧ p.term.spread = t.spread := by
    refine Pass.runAll_keeps (P := fun u _ => u.Tidy ∧ u.spread = t.spread) ?_ hp ⟨ht, rfl⟩
    rintro laws hlaws s u f hf ⟨hu, heq⟩
    obtain ⟨hu', halike⟩ := regroups_reduce? (Law.regroupsFirst_passes laws hlaws) hf hu
    exact ⟨hu', halike.spread.trans heq⟩
  rw [hd, ← hrun.2, (spread_readings p.term).1 d hd]

end Term

end QueryRules
