import QueryRules.Proofs.CanonicalRenaming
import QueryRules.Proofs.NormalizedValues

/-!
# QueryRules — the order of factors

Exchanging two factors of a term never changes what its normal form means, but it may change the
form itself: the first pass pulls a summation out of the left factor only, and it opens squashes
and negations of what stands there at that moment. Once a term is a sum of products the order of
factors is a matter of grouping, and the forms are isomorphic.
-/

namespace QueryRules

open List

namespace Term

/-! ## Terms with a hole -/

/-- A term with a hole. -/
inductive Context where
  | hole
  | addLeft (inner : Context) (right : Term)
  | addRight (left : Term) (inner : Context)
  | mulLeft (inner : Context) (right : Term)
  | mulRight (left : Term) (inner : Context)
  | not (inner : Context)
  | squash (inner : Context)
  | sum (vars : List Tuple) (inner : Context)

namespace Context

/-- Put a term into the hole. -/
def fill : Context → Term → Term
  | .hole, t => t
  | .addLeft inner right, t => .add (inner.fill t) right
  | .addRight left inner, t => .add left (inner.fill t)
  | .mulLeft inner right, t => .mul (inner.fill t) right
  | .mulRight left inner, t => .mul left (inner.fill t)
  | .not inner, t => .not (inner.fill t)
  | .squash inner, t => .squash (inner.fill t)
  | .sum vars inner, t => .sum vars (inner.fill t)

variable {a b : Term}

/-- What holds of all parts of a term holds of them in another order. -/
theorem hereditary_fill {P : Term → Prop} {B : List Tuple → Prop} (hP : Hereditary P B)
    (C : Context) : P (C.fill (.mul a b)) ↔ P (C.fill (.mul b a)) := by
  induction C with
  | hole => rw [fill, fill, hP.mul, hP.mul, and_comm]
  | addLeft inner right ih | addRight left inner ih => rw [fill, fill, hP.add, hP.add, ih]
  | mulLeft inner right ih | mulRight left inner ih => rw [fill, fill, hP.mul, hP.mul, ih]
  | not inner ih => rw [fill, fill, hP.not, hP.not, ih]
  | squash inner ih => rw [fill, fill, hP.squash, hP.squash, ih]
  | sum vars inner ih => rw [fill, fill, hP.sum, hP.sum, ih]

theorem value_fill {D : Type} [Fintype D] [DecidableEq D] (m : Model D) (C : Context) :
    (C.fill (.mul a b)).value m = (C.fill (.mul b a)).value m := by
  induction C with
  | hole =>
    funext env
    exact Nat.mul_comm _ _
  | addLeft inner right ih => simp only [fill, value, ih]
  | addRight left inner ih | mulLeft inner right ih | mulRight left inner ih | not inner ih
  | squash inner ih | sum vars inner ih => simp only [fill, value, ih]

end Context

end Term

/-! ## Alike forms -/

namespace Disj

variable {R : Pairing} {d d' e e' : Disj}

theorem Alike.append (h : Disj.Alike R d d') (h' : Disj.Alike R e e') :
    Disj.Alike R (d ++ e) (d' ++ e') := by
  induction d generalizing d' with
  | nil =>
    cases h
    exact h'
  | cons c cs ih =>
    cases h with
    | cons perm head tail => exact .cons (perm.append_right e') head (ih tail)

/-- Every conjunction on the right has a partner on the left. -/
theorem Alike.exists_partner (h : Disj.Alike R d d') {c' : Conj} (hc' : c' ∈ d') :
    ∃ c ∈ d, c.Alike R c' := by
  induction d generalizing d' with
  | nil =>
    cases h
    cases hc'
  | cons c cs ih =>
    cases h with
    | cons perm head tail =>
      rcases mem_cons.mp (perm.mem_iff.mp hc') with rfl | hc'
      · exact ⟨c, mem_cons_self, head⟩
      · obtain ⟨e, he, halike⟩ := ih tail hc'
        exact ⟨e, mem_cons_of_mem _ he, halike⟩

theorem Alike.eq_nil_iff (h : Disj.Alike R d d') : d = [] ↔ d' = [] := by
  rw [← length_eq_zero_iff, h.length_eq, length_eq_zero_iff]

end Disj

namespace Conj

variable {R : Pairing} {c c' : Conj}

/-- What is alike has as many parts of each kind. -/
theorem Alike.counts (h : c.Alike R c') : c.vars.length = c'.vars.length ∧
    c.tables.length = c'.tables.length ∧ c.preds.length = c'.preds.length ∧
      (c.squash = none ↔ c'.squash = none) ∧ (c.negation = none ↔ c'.negation = none) := by
  have hnone : ∀ {S : Pairing} {o o' : Option Disj}, Disj.AlikeOption S o o' →
      (o = none ↔ o' = none) := by
    intro S o o' ho
    cases ho with
    | none => exact Iff.rfl
    | some _ => simp
  cases h with
  | intro ps left right tables preds squash negation =>
    refine ⟨?_, Multiset.card_eq_card_of_rel tables, Multiset.card_eq_card_of_rel preds,
      hnone squash, hnone negation⟩
    rw [left.length_eq, right.length_eq, length_map, length_map]

theorem Negatable.alike (hc : c.Negatable) (h : c.Alike R c') : c'.Negatable := by
  obtain ⟨hvars, htables, hpreds, hsquash, hnegation⟩ := h.counts
  unfold Negatable at hc ⊢
  rwa [Ne, ← length_eq_zero_iff, ← hvars, length_eq_zero_iff, ← hsquash, ← hnegation,
    ← htables, ← hpreds]

end Conj

theorem Disj.Squashable.alike {R : Pairing} {d d' : Disj} (hd : d.Squashable)
    (h : Disj.Alike R d d') : d'.Squashable := by
  rintro c' rfl hvars'
  obtain ⟨c, hc, halike⟩ := h.exists_partner mem_cons_self
  obtain ⟨hvars, htables, hpreds, hsquash, -⟩ := halike.counts
  -- Both sides are a single conjunction.
  obtain ⟨e, rfl⟩ := length_eq_one_iff.mp h.length_eq
  obtain rfl := mem_singleton.mp hc
  have hnil : c.vars = [] := by
    rw [← length_eq_zero_iff, hvars, hvars']
    rfl
  obtain ⟨hnone, hatoms⟩ := hd c rfl hnil
  refine ⟨hsquash.mp hnone, ?_⟩
  rwa [Ne, Ne, ← length_eq_zero_iff, ← length_eq_zero_iff, ← htables, ← hpreds,
    length_eq_zero_iff, length_eq_zero_iff]

/-! ## Factors in another order -/

/-- Factors that are the same up to order, at every depth. -/
structure Gathered.Reordered (g g' : Gathered) : Prop where
  tables : g.tables.Perm g'.tables
  preds : g.preds.Perm g'.preds
  squashes : List.Forall₂ (Disj.Alike Eq) g.squashes g'.squashes
  negated : Disj.Alike Eq g.negated g'.negated

namespace Gathered.Reordered

variable {g g' k k' : Gathered}

theorem refl (g : Gathered) : g.Reordered g :=
  ⟨.refl _, .refl _, forall₂_same.mpr fun d _ => .refl d, .refl _⟩

theorem append (h : g.Reordered g') (h' : k.Reordered k') :
    (g.append k).Reordered (g'.append k') :=
  ⟨h.tables.append h'.tables, h.preds.append h'.preds, rel_append h.squashes h'.squashes,
    h.negated.append h'.negated⟩

/-- Two products may change places. There is one squash at most, so squashes stay in order. -/
theorem append_comm (h : (g.append k).squashes.length ≤ 1) :
    (g.append k).Reordered (k.append g) := by
  have hsquashes : (g.append k).squashes = (k.append g).squashes := by
    simp only [Gathered.append, length_append] at h ⊢
    cases hg : g.squashes with
    | nil => simp
    | cons d ds =>
      have hk : k.squashes = [] := by
        rw [hg, length_cons] at h
        exact length_eq_zero_iff.mp (by omega)
      simp [hk]
  exact ⟨perm_append_comm, perm_append_comm,
    hsquashes ▸ forall₂_same.mpr fun d _ => .refl d,
    (Disj.Alike.refl _).perm_right perm_append_comm⟩

/-- The order in which factors were gathered is not seen in the conjunction. -/
theorem toConj (h : g.Reordered g') (vars : List Tuple) :
    (g.toConj vars).Alike Eq (g'.toConj vars) := by
  have hhead : ∀ {ds ds' : List Disj}, List.Forall₂ (Disj.Alike Eq) ds ds' →
      Disj.AlikeOption Eq ds.head? ds'.head? := by
    intro ds ds' hds
    cases hds with
    | nil => exact .none
    | cons hd _ => exact .some hd
  refine .of_factors (.refl _)
    ⟨rel_of_perm .refl h.tables, rel_of_perm .refl h.preds, hhead h.squashes, ?_⟩
  have hnil := h.negated.eq_nil_iff
  simp only [Gathered.toConj, List.isEmpty_iff]
  by_cases hg : g.negated = []
  · rw [if_pos hg, if_pos (hnil.mp hg)]
    exact .none
  · rw [if_neg hg, if_neg fun hg' => hg (hnil.mpr hg')]
    exact .some h.negated

end Gathered.Reordered

namespace Term

/-- A tidy term that says the same as another one, up to the order of factors. -/
structure Reordered (t t' : Term) : Prop where
  tidy : t'.Tidy
  isProduct : t'.IsProduct ↔ t.IsProduct
  spread : Disj.Alike Eq t.spread t'.spread
  gather : t.gather.Reordered t'.gather

/-- Products are reordered as soon as their factors are. -/
theorem reordered_of_gather {t t' : Term} (h : t.IsProduct) (h' : t'.IsProduct) (htidy : t'.Tidy)
    (hg : t.gather.Reordered t'.gather) : t.Reordered t' := by
  refine ⟨htidy, ⟨fun _ => h, fun _ => h'⟩, ?_, hg⟩
  rw [spread_of_isProduct h, spread_of_isProduct h']
  exact .cons (.refl _) (hg.toConj []) .nil

/-- **Exchanging factors of a tidy term.** -/
theorem Context.reordered_fill {a b : Term} (C : Context) (h : (C.fill (.mul a b)).Tidy) :
    (C.fill (.mul a b)).Reordered (C.fill (.mul b a)) := by
  -- Induction on the context.
  induction C with
  | hole =>
    obtain ⟨ha, hb, hsquash⟩ := h
    refine reordered_of_gather (isProduct_mul a b) (isProduct_mul b a) ⟨hb, ha, ?_⟩
      (.append_comm hsquash)
    rw [Gathered.append, length_append, Nat.add_comm, ← length_append]
    exact hsquash
  | addLeft inner right ih =>
    have ht := ih h.1
    exact ⟨⟨ht.tidy, h.2⟩, Iff.rfl, ht.spread.append (.refl _), .refl _⟩
  | addRight left inner ih =>
    have ht := ih h.2
    exact ⟨⟨h.1, ht.tidy⟩, Iff.rfl, (Disj.Alike.refl _).append ht.spread, .refl _⟩
  | mulLeft inner right ih =>
    obtain ⟨⟨hl, hlp⟩, hr, hsquash⟩ := h
    have ht := ih hl
    have hg := ht.gather.append (.refl right.gather)
    exact reordered_of_gather (isProduct_mul _ _) (isProduct_mul _ _)
      ⟨⟨ht.tidy, ht.isProduct.mpr hlp⟩, hr, hg.squashes.length_eq ▸ hsquash⟩ hg
  | mulRight left inner ih =>
    obtain ⟨hl, ⟨hr, hrp⟩, hsquash⟩ := h
    have ht := ih hr
    have hg := (Gathered.Reordered.refl left.gather).append ht.gather
    exact reordered_of_gather (isProduct_mul _ _) (isProduct_mul _ _)
      ⟨hl, ⟨ht.tidy, ht.isProduct.mpr hrp⟩, hg.squashes.length_eq ▸ hsquash⟩ hg
  | not inner ih =>
    obtain ⟨hinner, hneg⟩ := h
    have ht := ih hinner
    refine reordered_of_gather (isProduct_not _) (isProduct_not _) ⟨ht.tidy, fun c' hc' => ?_⟩
      ⟨.refl _, .refl _, .nil, ht.spread⟩
    obtain ⟨c, hc, halike⟩ := ht.spread.exists_partner hc'
    exact (hneg c hc).alike halike
  | squash inner ih =>
    have ht := ih h.1
    exact reordered_of_gather (isProduct_squash _) (isProduct_squash _)
      ⟨ht.tidy, h.2.alike ht.spread⟩ ⟨.refl _, .refl _, .cons ht.spread .nil, .nil⟩
  | sum vars inner ih =>
    obtain ⟨hvars, hbody, hp⟩ := h
    have ht := ih hbody
    exact ⟨⟨hvars, ht.tidy, ht.isProduct.mpr hp⟩, Iff.rfl,
      .cons (.refl _) (ht.gather.toConj vars) .nil, .refl _⟩

end Term

/-! ## Normal forms -/

/-- Alike forms are isomorphic after their bound variables are named. -/
theorem Disj.isIsomorphic_renameBound {d d' : Disj} (hd : d.WellNamed) (hd' : d'.WellNamed)
    (h : Disj.Alike Eq d d') : d.renameBound.isIsomorphic d'.renameBound = true := by
  rw [isIsomorphic_iff hd.renameBound hd'.renameBound]
  have hleft : Disj.Alike Eq d.renameBound d :=
    (alike_renameBound hd).symm.mono fun _ _ hxy => hxy.symm
  have hright : Disj.Alike (Relation.Comp Eq Eq) d d'.renameBound :=
    h.trans (fun c hc => (hd' c hc).distinct) (alike_renameBound hd')
  refine (hleft.trans (fun c hc => (hd c hc).distinct) hright).mono ?_
  rintro x w ⟨y, rfl, z, rfl, rfl⟩
  rfl

namespace Term

theorem wellNamed_spread {t : Term} (hbase : t.baseBinders = true)
    (hdistinct : t.distinctBinders = true) (hplain : PlainNames t.uses) :
    Disj.WellNamed t.spread := by
  intro c hc
  refine ⟨Disj.baseBinders_iff.mp (baseBinders_spread hbase) c hc,
    (hereditary_distinct.spread Conj.hereditary_distinct nodup_nil hdistinct).1 c hc, ?_⟩
  exact hplain.of_imp fun v hv => (uses_of_spread t v).1 (Disj.uses_iff.mpr ⟨c, hc, hv⟩)

/-- **Factors may be exchanged.** Let two factors of a term over row variables change places, at any
depth, and let no variable have the name of a tag. Then the two normal forms have the same value in
every model. If the term is a sum of products already, the normal forms are isomorphic, provided
that no summation lists a binder twice. -/
theorem normalize_mul_comm {C : Context} {a b : Term} {d d' : Disj}
    (hbase : (C.fill (.mul a b)).baseBinders = true) (hplain : PlainNames (C.fill (.mul a b)).uses)
    (h : (C.fill (.mul a b)).normalize = .ok d) (h' : (C.fill (.mul b a)).normalize = .ok d') :
    (∀ (D : Type) [Fintype D] [DecidableEq D] (m : Model D) (env : Env D),
      d.toTerm.value m env = d'.toTerm.value m env) ∧
      ((C.fill (.mul a b)).Tidy → (C.fill (.mul a b)).distinctBinders = true →
        d.isIsomorphic d' = true) := by
  have hbase' := (C.hereditary_fill hereditary_baseBinders).mp hbase
  have hplain' := (C.hereditary_fill hereditary_plainNames).mp hplain
  constructor
  · intro D _ _ m env
    rw [value_normalize hbase hplain h, value_normalize hbase' hplain' h', C.value_fill m]
  · intro htidy hdistinct
    have hdistinct' := (C.hereditary_fill hereditary_distinct).mp hdistinct
    have hreordered := C.reordered_fill htidy
    -- The passes only regroup a tidy term, so what it says is what is read.
    obtain ⟨t, hred, -⟩ := exists_reduce_of_normalize h
    obtain ⟨t', hred', -⟩ := exists_reduce_of_normalize h'
    rw [htidy.normalize_eq hred] at h
    rw [hreordered.tidy.normalize_eq hred'] at h'
    cases h
    cases h'
    exact Disj.isIsomorphic_renameBound (wellNamed_spread hbase hdistinct hplain)
      (wellNamed_spread hbase' hdistinct' hplain') hreordered.spread

/-- `Sum{x}(R(x) * not(Sum{y}(S(y) * _ * not(Q(y)))))`. -/
def belowNegation : Context :=
  .sum [.var "x"] (.mulRight (.table "R" (.var "x")) (.not (.sum [.var "y"]
    (.mulLeft (.mulRight (.table "S" (.var "y")) .hole) (.not (.table "Q" (.var "y")))))))

/-- `[x.k = y.k] * ||T(y) + Sum{x}(U(x))||`. -/
def squashedSum : Term :=
  .mul (.eq (.attr (.var "x") "k") (.attr (.var "y") "k"))
    (.squash (.add (.table "T" (.var "y")) (.sum [.var "x"] (.table "U" (.var "x")))))

/-- `[p(y)] * not(P(x))`. -/
def negatedTable : Term :=
  .mul (.pred "p" [.var "y"]) (.not (.table "P" (.var "x")))

/-- `Sum{x0}(R(x0) * not(Sum{x1}(S(x1) * _ * ||T(x1) + Sum{x2}(U(x2))|| * not(P(x0) + Q(x1)))))`
with the given predicates. -/
def formWith (preds : List PredAtom) : Disj :=
  [⟨[.var "x0"], [⟨"R", .var "x0"⟩], [], none, some [⟨[.var "x1"], [⟨"S", .var "x1"⟩], preds,
    some [⟨[], [⟨"T", .var "x1"⟩], [], none, none⟩,
      ⟨[.var "x2"], [⟨"U", .var "x2"⟩], [], none, none⟩],
    some [⟨[], [⟨"P", .var "x0"⟩], [], none, none⟩, ⟨[], [⟨"Q", .var "x1"⟩], [], none, none⟩]⟩]⟩]

/-- Two products are exchanged that stand between other factors below a negation. -/
theorem normalize_mul_comm_below_negation :
    ((belowNegation.fill (.mul squashedSum negatedTable)).Tidy ∧
      (belowNegation.fill (.mul squashedSum negatedTable)).distinctBinders = true) ∧
      ∃ p q,
        (belowNegation.fill (.mul squashedSum negatedTable)).normalize = .ok (formWith [p, q]) ∧
        (belowNegation.fill (.mul negatedTable squashedSum)).normalize = .ok (formWith [q, p]) ∧
        (formWith [p, q]).isIsomorphic (formWith [q, p]) = true := by
  have htidy : (belowNegation.fill (.mul squashedSum negatedTable)).Tidy := by
    simp [belowNegation, squashedSum, negatedTable, Context.fill, Tidy, IsProduct, kind, spread,
      gather, Gathered.append, Gathered.toConj, Conj.Negatable, Disj.Squashable]
  refine ⟨⟨htidy, by decide⟩, .eq (.attr (.var "x0") "k") (.attr (.var "x1") "k"),
    .pred "p" [.var "x1"], by decide +kernel, by decide +kernel, ?_⟩
  exact (normalize_mul_comm (by decide) (by decide +kernel)
    (by decide +kernel : (belowNegation.fill (.mul squashedSum negatedTable)).normalize = .ok _)
    (by decide +kernel)).2 htidy (by decide)

/-- `R(y) * Sum{x}(||S(x)||)`, where the summation is not pulled out by the first pass. -/
def trailingSummation : Term :=
  .mul (.table "R" (.var "y")) (.sum [.var "x"] (.squash (.table "S" (.var "x"))))

/-- `||not(R(t)) * not(S(t))||`, which becomes a negation in the last pass. -/
def squashedNegations : Term :=
  .squash (.mul (.not (.table "R" (.var "t"))) (.not (.table "S" (.var "t"))))

/-- The order of factors matters where the term is no sum of products yet. In one order the
summation is pulled out of the left factor only, so the squash on the right stays outside until it
becomes a negation. In the other order both squashes come below the summation and are merged. -/
theorem normalize_mul_not_comm :
    ∃ d d', (Term.mul trailingSummation squashedNegations).normalize = .ok d ∧
      (Term.mul squashedNegations trailingSummation).normalize = .ok d' ∧
        d.isIsomorphic d' = false := by
  refine ⟨[⟨[.var "x0"], [⟨"R", .var "y"⟩], [], some [⟨[], [⟨"S", .var "x0"⟩], [], none, none⟩],
      some [⟨[], [⟨"R", .var "t"⟩], [], none, none⟩, ⟨[], [⟨"S", .var "t"⟩], [], none, none⟩]⟩],
    [⟨[.var "x0"], [⟨"R", .var "y"⟩], [], some [⟨[], [⟨"S", .var "x0"⟩], [], none,
      some [⟨[], [⟨"R", .var "t"⟩], [], none, none⟩, ⟨[], [⟨"S", .var "t"⟩], [], none, none⟩]⟩],
      none⟩], ?_, ?_, ?_⟩ <;> decide +kernel

end Term

end QueryRules
