import Mathlib.Algebra.Order.BigOperators.GroupWithZero.List
import Mathlib.Order.Monotone.Basic
import Mathlib.Tactic.Ring
import QueryRules.Proofs.LawSoundness
import QueryRules.Proofs.ReductionSteps

/-!
# QueryRules — every pass ends by itself

A pass steps until no law fires, and its budget is there for the case that this never happens. It
does not: whatever the term, each of the five passes comes to an end (`Pass.run_ends`). A step makes
a term lighter (`Term.weight`), or it keeps the weight and groups or orders the term better
(`Term.Lowers`).
-/

namespace QueryRules

open List

/-! ## Weights -/

namespace Term

variable {neg : Nat → Nat}

/-- The weight of a term, if the negation of a term of weight `n` has the weight `neg n`. Sums add
and products multiply, so that distribution, which copies a factor, gains. What a negation weighs is
left open, for the first pass takes negations apart and the last one puts them together again. -/
def weight (neg : Nat → Nat) : Term → Nat
  | .table _ _ | .pred _ _ | .eq _ _ => 2
  | .add l r => l.weight neg + r.weight neg + 1
  | .mul l r => l.weight neg * r.weight neg
  | .not t => neg (t.weight neg)
  | .squash t => t.weight neg + 1
  | .sum _ body => 3 * body.weight neg + 1

/-- No term weighs less than an atom. -/
theorem two_le_weight (hneg : StrictMono neg) (t : Term) : 2 ≤ t.weight neg := by
  induction t with
  | table n row | pred n args | eq l r => exact le_rfl
  | add l r ihl ihr =>
    rw [weight]
    omega
  | mul l r ihl ihr =>
    rw [weight]
    exact ihl.trans (Nat.le_mul_of_pos_right _ (by omega))
  | not t ih => exact ih.trans (hneg.le_apply)
  | squash t ih | sum vars body ih =>
    rw [weight]
    omega

theorem weight_sumOver_le (vars : List Tuple) (body : Term) :
    (sumOver vars body).weight neg ≤ 3 * body.weight neg + 1 := by
  unfold sumOver
  split
  · omega
  · exact le_rfl

theorem weight_subst (t : Term) (v w : Tuple) : (t.subst v w).weight neg = t.weight neg := by
  induction t with
  | table n row | pred n args | eq l r => rfl
  | add l r ihl ihr | mul l r ihl ihr => rw [subst, weight, weight, ihl, ihr]
  | not t ih | squash t ih | sum vars body ih => rw [subst, weight, weight, ih]

theorem weight_renameClashing (clashes : Tuple → Bool) (vars : List Tuple) (body : Term)
    (s : FreshNames) :
    (Law.renameClashing clashes vars body s).2.1.weight neg = body.weight neg := by
  induction vars generalizing body s with
  | nil => rfl
  | cons v vs ih =>
    rw [Law.renameClashing]
    split
    · exact (ih _ _).trans (weight_subst body _ _)
    · exact ih _ _

/-- A product weighs the product of its factors. -/
theorem weight_foldl_mul (t : Term) (ts : List Term) :
    (ts.foldl .mul t).weight neg = t.weight neg * (ts.map (weight neg)).prod := by
  induction ts generalizing t with
  | nil => simp
  | cons u us ih => rw [foldl_cons, ih, weight, map_cons, prod_cons, mul_assoc]

theorem weight_product? {ts : List Term} {p : Term} (h : product? ts = some p) :
    p.weight neg = (ts.map (weight neg)).prod := by
  cases ts with
  | nil => cases h
  | cons t ts =>
    cases h
    exact weight_foldl_mul t ts

theorem weight_eq_prod_factors (t : Term) : t.weight neg = (t.factors.map (weight neg)).prod := by
  fun_induction factors t with
  | case1 l r ih => rw [weight, ih, map_append, prod_append, map_singleton,
      prod_singleton]
  | case2 t _ => simp

/-- A sum weighs one less than its summands, counted with one more each. -/
theorem weight_total? {ts : List Term} {p : Term} (h : total? ts = some p) :
    p.weight neg + 1 = (ts.map fun t => t.weight neg + 1).sum := by
  cases ts with
  | nil => cases h
  | cons t ts =>
    cases h
    induction ts generalizing t with
    | nil => simp
    | cons u us ih =>
      rw [foldl_cons, ih, map_cons, map_cons, map_cons, sum_cons,
        sum_cons, sum_cons, weight]
      omega

end Term

/-! ## Merging and opening factors -/

section Lists

end Lists

namespace Law

variable {neg : Nat → Nat} {t t' : Term}

theorem prod_weight_pos (hneg : StrictMono neg) (fs : List Term) :
    0 < (fs.map (Term.weight neg)).prod := by
  refine prod_pos fun w hw => ?_
  obtain ⟨f, -, rfl⟩ := mem_map.mp hw
  exact Nat.lt_of_lt_of_le Nat.two_pos (Term.two_le_weight hneg f)

/-- Merging factors lowers the weight, if what they are merged to weighs less than they do. -/
theorem weight_mergeFactors? (hneg : StrictMono neg) {body? : Term → Option Term}
    {merge : List Term → Option Term}
    (hbody : ∀ f x, body? f = some x → f.weight neg = x.weight neg + 1)
    (hmerge : ∀ bodies merged, 2 ≤ bodies.length → merge bodies = some merged →
      merged.weight neg < (bodies.map fun x : Term => x.weight neg + 1).prod)
    (h : mergeFactors? body? merge t = some t') : t'.weight neg < t.weight neg := by
  unfold mergeFactors? at h
  split at h
  · cases h
  next hcount =>
  rw [Term.countFactors_eq_countP, ← length_filterMap_eq_countP] at hcount
  split at h
  · next merged hm =>
    rw [Term.weight_product? h, Term.weight_eq_prod_factors t,
      prod_filter_filterMap (h := fun x : Term => x.weight neg + 1) hbody t.factors,
      map_append, prod_append, map_singleton, prod_singleton]
    exact Nat.mul_lt_mul_of_pos_left (hmerge _ _ (by omega) hm) (prod_weight_pos hneg _)
  · cases h

theorem weight_mulSquash (hneg : StrictMono neg)
    (h : mergeFactors? squashBody? (fun bodies => (Term.product? bodies).map .squash) t = some t') :
    t'.weight neg < t.weight neg := by
  refine weight_mergeFactors? hneg (fun f x hf => ?_) (fun bodies merged hlen hm => ?_) h
  · rw [squashBody?_eq_some.mp hf]
    rfl
  · obtain ⟨p, hp, rfl⟩ := Option.map_eq_some_iff.mp hm
    have htwo : ∀ w ∈ bodies.map (Term.weight neg), 2 ≤ w := by
      intro w hw
      obtain ⟨b, -, rfl⟩ := mem_map.mp hw
      exact Term.two_le_weight hneg b
    have hlt := prod_lt_prod_succ (by simpa using hlen) htwo
    rw [Term.weight, Term.weight_product? hp]
    simpa [Function.comp_def] using hlt

theorem weight_mulNot
    (h : mergeFactors? notBody? (fun bodies => (Term.total? bodies).map .not) t = some t') :
    t'.weight (· + 1) < t.weight (· + 1) := by
  have hneg : StrictMono fun n : Nat => n + 1 := strictMono_id.add_const 1
  refine weight_mergeFactors? hneg (fun f x hf => ?_) (fun bodies merged hlen hm => ?_) h
  · rw [notBody?_eq_some.mp hf]
    rfl
  · obtain ⟨p, hp, rfl⟩ := Option.map_eq_some_iff.mp hm
    rw [Term.weight, Term.weight_total? hp]
    refine sum_lt_prod (by simpa using hlen) fun w hw => ?_
    obtain ⟨b, -, rfl⟩ := mem_map.mp hw
    exact Nat.succ_le_succ (Term.two_le_weight hneg b)

/-- Opening the squashes of a product lowers the weight, if there are any. -/
theorem weight_openSquashes? (hneg : StrictMono neg) (h : openSquashes? t = some t') :
    t'.weight neg < t.weight neg + 1 := by
  unfold openSquashes? at h
  split at h
  · next hcount =>
    rw [Term.countFactors_eq_countP, ← length_filterMap_eq_countP] at hcount
    obtain ⟨p, hp, rfl⟩ := Option.map_eq_some_iff.mp h
    have hopen : (((t.factors.map fun f => (squashBody? f).getD f)).map (Term.weight neg)).prod
        = ((t.factors.filter fun f => (squashBody? f).isNone).map (Term.weight neg)).prod
          * ((t.factors.filterMap squashBody?).map (Term.weight neg)).prod := by
      rw [map_map, prod_filter_filterMap (o := squashBody?) (h := Term.weight neg)]
      · congr 2
        refine map_congr_left fun f hf => ?_
        have hnone := (mem_filter.mp hf).2
        rw [Option.isNone_iff_eq_none] at hnone
        rw [Function.comp_apply, hnone]
        rfl
      · intro f x hf
        rw [Function.comp_apply, hf]
        rfl
    rw [Term.weight, Term.weight_product? hp, hopen, Term.weight_eq_prod_factors t,
      prod_filter_filterMap (o := squashBody?) (h := fun x : Term => x.weight neg + 1) _
        t.factors]
    · refine Nat.succ_lt_succ (Nat.mul_lt_mul_of_pos_left ?_ (prod_weight_pos hneg _))
      refine prod_map_lt_prod_map (ne_nil_of_length_pos hcount) _ _ (fun f _ => ?_)
        fun f _ => Nat.lt_succ_self _
      exact Nat.lt_of_lt_of_le Nat.two_pos (Term.two_le_weight hneg f)
    · intro f x hf
      rw [squashBody?_eq_some.mp hf]
      rfl
  · cases h

end Law

/-! ## Grouping and order -/

namespace Term

/-- How many factors of a product have a kind of the given sort, whatever their grouping. -/
def countKinds (p : Kind → Bool) : Term → Nat
  | .mul l r => l.countKinds p + r.countKinds p
  | t => if p t.kind then 1 else 0

/-- How many summands a sum has, whatever their grouping. -/
def countSummands : Term → Nat
  | .add l r => l.countSummands + r.countSummands
  | _ => 1

/-- How far a term is from sums and products that are grouped to the left. -/
def skew : Term → Nat
  | .table _ _ | .pred _ _ | .eq _ _ => 0
  | .add l r => l.skew + r.skew + r.countSummands
  | .mul l r => l.skew + r.skew + r.countKinds fun _ => true
  | .not t | .squash t | .sum _ t => t.skew

/-- How many pairs of a factor of `l` and one of `r` are in the wrong order. Negations come last and
squashes before them. -/
def crossings (l r : Term) : Nat :=
  l.countKinds (· = .not) * r.countKinds (· ≠ .not)
    + l.countKinds (· = .squash) * r.countKinds (· ∉ [.squash, .not])

/-- How many pairs of factors, in all products of a term, are in the wrong order. -/
def disorder : Term → Nat
  | .table _ _ | .pred _ _ | .eq _ _ => 0
  | .add l r => l.disorder + r.disorder
  | .mul l r => l.disorder + r.disorder + crossings l r
  | .not t | .squash t | .sum _ t => t.disorder

/-- The same numbers of factors and summands. -/
structure SameCounts (t t' : Term) : Prop where
  kinds : ∀ p, t'.countKinds p = t.countKinds p
  summands : t'.countSummands = t.countSummands

/-- What a step does: it lowers the weight, or rearranges a term so that it is grouped or ordered
better. -/
def Lowers (neg : Nat → Nat) (t t' : Term) : Prop :=
  t'.weight neg < t.weight neg ∨
    (t'.weight neg = t.weight neg ∧ SameCounts t t' ∧
      (t'.skew < t.skew ∨ (t'.skew = t.skew ∧ t'.disorder < t.disorder)))

/-! ## Steps inside of a term -/

section Congruence

variable {neg : Nat → Nat} {l l' r r' t t' : Term}

theorem Lowers.addLeft (h : Lowers neg l l') : Lowers neg (.add l r) (.add l' r) := by
  unfold Lowers at *
  simp only [weight, skew, disorder]
  rcases h with hw | ⟨hw, hcounts, horder⟩
  · exact .inl (by omega)
  · refine .inr ⟨by omega, ⟨fun p => rfl, ?_⟩, by omega⟩
    rw [countSummands, countSummands, hcounts.summands]

theorem Lowers.addRight (h : Lowers neg r r') : Lowers neg (.add l r) (.add l r') := by
  unfold Lowers at *
  simp only [weight, skew, disorder]
  rcases h with hw | ⟨hw, hcounts, horder⟩
  · exact .inl (by omega)
  · rw [hcounts.summands]
    refine .inr ⟨by omega, ⟨fun p => rfl, ?_⟩, by omega⟩
    rw [countSummands, countSummands, hcounts.summands]

theorem Lowers.mulLeft (hneg : StrictMono neg) (h : Lowers neg l l') :
    Lowers neg (.mul l r) (.mul l' r) := by
  unfold Lowers at *
  simp only [weight, skew, disorder]
  rcases h with hw | ⟨hw, hcounts, horder⟩
  · have hr := two_le_weight hneg r
    exact .inl (Nat.mul_lt_mul_of_pos_right hw (by omega))
  · have hcross : crossings l' r = crossings l r := by
      rw [crossings, crossings, hcounts.kinds, hcounts.kinds]
    rw [hcross]
    refine .inr ⟨by rw [hw], ⟨fun p => ?_, rfl⟩, by omega⟩
    rw [countKinds, countKinds, hcounts.kinds]

theorem Lowers.mulRight (hneg : StrictMono neg) (h : Lowers neg r r') :
    Lowers neg (.mul l r) (.mul l r') := by
  unfold Lowers at *
  simp only [weight, skew, disorder]
  rcases h with hw | ⟨hw, hcounts, horder⟩
  · have hl := two_le_weight hneg l
    exact .inl (Nat.mul_lt_mul_of_pos_left hw (by omega))
  · have hcross : crossings l r' = crossings l r := by
      rw [crossings, crossings, hcounts.kinds, hcounts.kinds]
    rw [hcross, hcounts.kinds]
    refine .inr ⟨by rw [hw], ⟨fun p => ?_, rfl⟩, by omega⟩
    rw [countKinds, countKinds, hcounts.kinds]

/-- Below a negation, a squash or binders, a step has no influence on the counts around. -/
theorem Lowers.inside {f : Term → Term}
    (hweight : ∀ {t t'}, t'.weight neg < t.weight neg → (f t').weight neg < (f t).weight neg)
    (hequal : ∀ {t t'}, t'.weight neg = t.weight neg → (f t').weight neg = (f t).weight neg)
    (hcounts : ∀ t t', SameCounts (f t) (f t')) (hskew : ∀ t, (f t).skew = t.skew)
    (hdisorder : ∀ t, (f t).disorder = t.disorder) (h : Lowers neg t t') :
    Lowers neg (f t) (f t') := by
  unfold Lowers at *
  rw [hskew, hskew, hdisorder, hdisorder]
  rcases h with hw | ⟨hw, -, horder⟩
  · exact .inl (hweight hw)
  · exact .inr ⟨hequal hw, hcounts t t', horder⟩

theorem Lowers.not (hneg : StrictMono neg) (h : Lowers neg t t') :
    Lowers neg (.not t) (.not t') :=
  h.inside (fun hw => hneg hw) (fun hw => congrArg neg hw) (fun _ _ => ⟨fun _ => rfl, rfl⟩)
    (fun _ => rfl) fun _ => rfl

theorem Lowers.squash (h : Lowers neg t t') : Lowers neg (.squash t) (.squash t') :=
  h.inside (fun hw => Nat.succ_lt_succ hw) (fun hw => congrArg Nat.succ hw)
    (fun _ _ => ⟨fun _ => rfl, rfl⟩) (fun _ => rfl) fun _ => rfl

theorem Lowers.sum {vars : List Tuple} (h : Lowers neg t t') :
    Lowers neg (.sum vars t) (.sum vars t') :=
  h.inside (fun hw => by rw [weight, weight]; omega) (fun hw => by rw [weight, weight, hw])
    (fun _ _ => ⟨fun _ => rfl, rfl⟩) (fun _ => rfl) fun _ => rfl

end Congruence

/-! ## Rearranging laws -/

section Rearranging

variable {l r : Term}

theorem countKinds_of_kind {t : Term} (h : t.kind ≠ .mul) (p : Kind → Bool) :
    t.countKinds p = if p t.kind then 1 else 0 := by
  cases t with
  | mul l r => exact absurd rfl h
  | _ => rfl

theorem countKinds_pos (t : Term) : 0 < t.countKinds fun _ => true := by
  induction t with
  | mul l r ihl ihr =>
    rw [countKinds]
    omega
  | _ => exact Nat.one_pos

theorem countSummands_pos (t : Term) : 0 < t.countSummands := by
  induction t with
  | add l r ihl ihr =>
    rw [countSummands]
    omega
  | _ => exact Nat.one_pos

theorem crossings_mul_left (a b r : Term) :
    crossings (.mul a b) r = crossings a r + crossings b r := by
  simp only [crossings, countKinds]
  ring

theorem lowers_mulAssoc (neg : Nat → Nat) (a b c : Term) :
    Lowers neg (.mul a (.mul b c)) (.mul (.mul a b) c) := by
  have hc := countKinds_pos c
  refine .inr ⟨?_, ⟨fun p => ?_, rfl⟩, .inl ?_⟩
  · simp only [weight, Nat.mul_assoc]
  · simp only [countKinds, Nat.add_assoc]
  · simp only [skew, countKinds]
    omega

theorem lowers_addAssoc (neg : Nat → Nat) (a b c : Term) :
    Lowers neg (.add a (.add b c)) (.add (.add a b) c) := by
  have hc := countSummands_pos c
  refine .inr ⟨?_, ⟨fun p => rfl, ?_⟩, .inl ?_⟩
  · simp only [weight]
    omega
  · simp only [countSummands, Nat.add_assoc]
  · simp only [skew, countSummands]
    omega

/-- Moving the last factor of `l` past `r` lowers the disorder, if the two were in the wrong order
before. -/
theorem lowers_swapLast (neg : Nat → Nat) (hlast : (Law.lastFactor l).kind ≠ .mul)
    (hr : r.kind ≠ .mul)
    (hcross : crossings r (Law.lastFactor l) < crossings (Law.lastFactor l) r) :
    Lowers neg (.mul l r) (Law.swapLast l r) := by
  have hone : ∀ {t : Term}, t.kind ≠ .mul → t.countKinds (fun _ => true) = 1 :=
    fun ht => countKinds_of_kind ht _
  have hskew : ∀ head last : Term, last.kind ≠ .mul → (Term.mul (.mul head r) last).skew
      = (Term.mul (.mul head last) r).skew := by
    intro head last h
    simp only [skew, hone h, hone hr]
    omega
  have hl : (∃ head last, l = .mul head last) ∨
      Law.lastFactor l = l ∧ Law.swapLast l r = .mul r l := by
    cases l with
    | mul head last => exact .inl ⟨head, last, rfl⟩
    | _ => exact .inr ⟨rfl, rfl⟩
  rcases hl with ⟨head, last, rfl⟩ | ⟨hl, hswap⟩
  · -- The factors before the last one stay where they are.
    replace hcross : crossings r last < crossings last r := hcross
    refine .inr ⟨?_, ⟨fun p => ?_, rfl⟩, .inr ⟨hskew head last hlast, ?_⟩⟩
    · simp only [Law.swapLast, weight]
      ring
    · simp only [Law.swapLast, countKinds]
      omega
    · simp only [Law.swapLast, disorder, crossings_mul_left]
      omega
  · rw [hl] at hlast hcross
    rw [hswap]
    refine .inr ⟨Nat.mul_comm _ _, ⟨fun p => Nat.add_comm _ _, rfl⟩, .inr ⟨?_, ?_⟩⟩
    · simp only [skew, hone hlast, hone hr]
      omega
    · simp only [disorder]
      omega

end Rearranging

end Term

/-! ## Laws -/

/-- What the laws of a pass ask of the weight of a negation. -/
structure Law.Weighs (neg : Nat → Nat) (laws : List Law) : Prop where
  mono : StrictMono neg
  notAdd : .notAdd ∈ laws → ∀ a b, neg a * neg b < neg (a + b + 1)
  notMul : .notMul ∈ laws → ∀ a b, 2 ≤ a → 2 ≤ b → neg a + neg b + 2 < neg (a * b)
  notNot : .notNot ∈ laws → ∀ a, a + 1 < neg (neg a)
  mulNot : .mulNot ∈ laws → neg = (· + 1)

namespace Law

variable {neg : Nat → Nat} {laws : List Law} {law : Law} {t t' : Term}

/-- Every law without new names lowers the weight. -/
theorem lowers_plain (hlaws : Weighs neg laws) (hlaw : law ∈ laws) (h : law.plain? t = some t') :
    t.Lowers neg t' := by
  have hpos := Term.two_le_weight hlaws.mono
  unfold plain? at h
  split at h
  · -- `||(||x||)||`
    cases h
    exact .inl (Nat.lt_succ_self _)
  · -- `||a * ||x||||`
    exact .inl (weight_openSquashes? hlaws.mono h)
  · -- `not(||x||)`
    cases h
    exact .inl (hlaws.mono (Nat.lt_succ_self _))
  · -- `Sum{v}(x + y)`
    next vars a b =>
    cases h
    have hle : ∀ body : Term, (Term.sumOver vars body).weight neg ≤ 3 * body.weight neg + 1 :=
      fun body => Term.weight_sumOver_le vars body
    have ha := hle a
    have hb := hle b
    refine .inl ?_
    simp only [Term.weight]
    omega
  · -- `not(x + y)`
    cases h
    exact .inl (hlaws.notAdd hlaw _ _)
  · -- `not(x * y)`
    cases h
    exact .inl (hlaws.notMul hlaw _ _ (hpos _) (hpos _))
  · -- `not(not(x))`
    cases h
    exact .inl (hlaws.notNot hlaw _)
  · -- `||not(x)||`
    cases h
    exact .inl (Nat.lt_succ_self _)
  · -- `x * (y * z)`
    cases h
    exact Term.lowers_mulAssoc neg _ _ _
  · -- `x + (y + z)`
    cases h
    exact Term.lowers_addAssoc neg _ _ _
  · -- `(x + y) * z`
    next a b c =>
    cases h
    have hc := hpos c
    refine .inl ?_
    simp only [Term.weight, Nat.add_mul]
    omega
  · -- `x * (y + z)`
    next a b c _ =>
    cases h
    have ha := hpos a
    refine .inl ?_
    simp only [Term.weight, Nat.mul_add]
    omega
  · -- a squash moves right
    next l r =>
    split at h
    · next hkinds =>
      cases h
      obtain ⟨hlast, hr⟩ := hkinds
      simp only [mem_cons, not_mem_nil, or_false, not_or] at hr
      refine Term.lowers_swapLast neg (by simp [hlast]) hr.2.2 ?_
      simp [Term.crossings, Term.countKinds_of_kind, hlast, hr]
    · cases h
  · -- a negation moves right
    next l r =>
    split at h
    · next hkinds =>
      cases h
      obtain ⟨hlast, hr⟩ := hkinds
      simp only [mem_cons, not_mem_nil, or_false, not_or] at hr
      refine Term.lowers_swapLast neg (by simp [hlast]) hr.2 ?_
      simp [Term.crossings, Term.countKinds_of_kind, hlast, hr]
    · cases h
  · -- squashes merge
    exact .inl (weight_mulSquash hlaws.mono h)
  · -- negations merge
    have hneg := hlaws.mulNot hlaw
    subst hneg
    exact .inl (weight_mulNot h)
  · cases h

/-- Every law lowers the weight. -/
theorem lowers_fire (hlaws : Weighs neg laws) (hlaw : law ∈ laws) {s s' : FreshNames}
    (h : law.fire? s t = some (t', s')) : t.Lowers neg t' := by
  have hpos := Term.two_le_weight hlaws.mono
  unfold fire? at h
  split at h
  · -- `Sum{v}(x) * y`
    next vars body r =>
    cases h
    have hr := hpos r
    refine .inl (Nat.lt_of_le_of_lt (Term.weight_sumOver_le _ _) ?_)
    simp only [Term.weight, Term.weight_renameClashing, Nat.add_mul, Nat.mul_assoc]
    omega
  · -- `x * Sum{v}(y)`
    next l vars body =>
    cases h
    have hl := hpos l
    refine .inl (Nat.lt_of_le_of_lt (Term.weight_sumOver_le _ _) ?_)
    simp only [Term.weight, Term.weight_renameClashing, Nat.mul_add, Nat.mul_left_comm]
    omega
  · -- `Sum{v}(Sum{w}(x))`
    cases h
    refine .inl (Nat.lt_of_le_of_lt (Term.weight_sumOver_le _ _) ?_)
    simp only [Term.weight, Term.weight_renameClashing]
    omega
  · obtain ⟨new, hnew, heq⟩ := Option.map_eq_some_iff.mp h
    cases heq
    exact lowers_plain hlaws hlaw hnew

/-- The weights of the first pass. -/
theorem weighs_powers {laws : List Law} (h : .mulNot ∉ laws) : Weighs (2 ^ ·) laws where
  mono _ _ h := Nat.pow_lt_pow_right (by decide) h
  notAdd _ a b := by
    rw [← Nat.pow_add]
    exact Nat.pow_lt_pow_right (by decide) (Nat.lt_succ_self _)
  notMul _ a b ha hb := by
    have hx : 2 ^ 2 ≤ 2 ^ a := Nat.pow_le_pow_right (by decide) ha
    have hy : 2 ^ 2 ≤ 2 ^ b := Nat.pow_le_pow_right (by decide) hb
    calc 2 ^ a + 2 ^ b + 2 < 2 ^ a * 2 ^ b := by nlinarith
      _ = 2 ^ (a + b) := (Nat.pow_add 2 a b).symm
      _ ≤ 2 ^ (a * b) := Nat.pow_le_pow_right (by decide) (by nlinarith)
  notNot _ a := by
    have h₁ : a < 2 ^ a := Nat.lt_two_pow_self
    have h₂ : 2 ^ a < 2 ^ 2 ^ a := Nat.lt_two_pow_self
    omega
  mulNot hmem := absurd hmem h

/-- The weights of the passes that take no negation apart. -/
theorem weighs_successors {laws : List Law}
    (h : ∀ law ∈ [Law.notAdd, .notMul, .notNot], law ∉ laws) :
    Weighs (· + 1) laws where
  mono := strictMono_id.add_const 1
  notAdd hmem := absurd hmem (h _ (by decide))
  notMul hmem := absurd hmem (h _ (by decide))
  notNot hmem := absurd hmem (h _ (by decide))
  mulNot _ := rfl

theorem exists_weighs {laws : List Law} (hlaws : laws ∈ Pass.all) : ∃ neg, Weighs neg laws := by
  have hnegations : ∀ laws ∈ Pass.all,
      .mulNot ∉ laws ∨ ∀ law ∈ [Law.notAdd, .notMul, .notNot], law ∉ laws := by decide
  rcases hnegations laws hlaws with h | h
  · exact ⟨_, weighs_powers h⟩
  · exact ⟨_, weighs_successors h⟩

/-- Whether a law fires does not depend on the supply of names. -/
theorem fire?_eq_none_iff {s s' : FreshNames} : law.fire? s t = none ↔ law.fire? s' t = none := by
  unfold fire?
  split
  · simp
  · simp
  · simp
  · rw [Option.map_eq_none_iff, Option.map_eq_none_iff]

end Law

/-! ## Steps and passes -/

namespace Term

variable {neg : Nat → Nat} {laws : List Law}

/-- A step lowers the term. -/
theorem lowers_reduce? (hlaws : Law.Weighs neg laws) {s : FreshNames} {t : Term} {f : Firing}
    (h : t.reduce? s laws = some f) : t.Lowers neg f.result := by
  refine reduce?_induction (motive := fun t f => Lowers neg t f.result) ?_ Lowers.addLeft
    Lowers.addRight (Lowers.mulLeft hlaws.mono) (Lowers.mulRight hlaws.mono)
    (Lowers.not hlaws.mono) Lowers.squash Lowers.sum h
  intro t f _ hfirst
  obtain ⟨before, law, after, rfl, hfire, -⟩ := Law.firstAt?_eq_some hfirst
  exact Law.lowers_fire hlaws (by simp) hfire

/-- Lowering a term again and again comes to an end. -/
theorem wellFounded_lowers (neg : Nat → Nat) : WellFounded fun t' t => Lowers neg t t' := by
  refine Subrelation.wf ?_ (InvImage.wf (fun t : Term => (t.weight neg, t.skew, t.disorder))
    (WellFounded.prod_lex wellFounded_lt (WellFounded.prod_lex wellFounded_lt wellFounded_lt)))
  intro t' t h
  show Prod.Lex _ _ (t'.weight neg, t'.skew, t'.disorder) (t.weight neg, t.skew, t.disorder)
  rcases h with hw | ⟨hw, -, hskew | ⟨hskew, hdisorder⟩⟩
  · exact .left _ _ hw
  · rw [hw]
    exact .right _ (.left _ _ hskew)
  · rw [hw, hskew]
    exact .right _ (.right _ hdisorder)

/-- A subterm of a term that takes no step takes none either. -/
theorem child?_irreducible {s : FreshNames} {t c : Term} (h : t.reduce? s laws = none) {i : Nat}
    (hc : t.child? i = some c) : c.reduce? s laws = none := by
  have hstill := (reduce?_eq_none_iff.mp h).1
  cases t with
  | add l r | mul l r =>
    obtain ⟨hl, hr⟩ := hstill
    unfold child? at hc
    grind
  | not t | squash t | sum vars t =>
    unfold Still at hstill
    unfold child? at hc
    grind
  | _ => cases hc

/-- Where no step is taken, no law fires at any position, whatever the supply of names. -/
theorem fire?_of_irreducible {s : FreshNames} {t : Term} (h : t.reduce? s laws = none)
    {position : Position} {sub : Term} (hsub : t.at? position = some sub) :
    ∀ law ∈ laws, ∀ s', law.fire? s' sub = none := by
  induction position generalizing t with
  | nil =>
    cases hsub
    intro law hlaw s'
    exact Law.fire?_eq_none_iff.mp ((reduce?_eq_none_iff.mp h).2 law hlaw)
  | cons i rest ih =>
    rw [at?] at hsub
    cases hc : t.child? i with
    | none =>
      rw [hc] at hsub
      cases hsub
    | some c =>
      rw [hc] at hsub
      exact ih (child?_irreducible h hc) hsub

end Term

namespace Pass

variable {laws : List Law}

/-- A pass that ends within a budget ends in the same way within every larger one. -/
theorem run_of_le {number budget more : Nat} {p q : Progress}
    (h : run number laws budget p = some q) (hle : budget ≤ more) :
    run number laws more p = some q := by
  induction budget generalizing p more with
  | zero => cases h
  | succ budget ih =>
    obtain ⟨more, rfl⟩ : ∃ n, more = n + 1 := ⟨more - 1, by omega⟩
    rw [run] at h ⊢
    cases hf : p.term.reduce? p.fresh laws with
    | none =>
      rw [hf] at h
      exact h
    | some f =>
      rw [hf] at h
      exact ih h (by omega)

/-- Some budget is enough for a pass whose steps lower the term. -/
theorem exists_run {neg : Nat → Nat} (hlaws : Law.Weighs neg laws) (number : Nat) (p : Progress) :
    ∃ budget q, run number laws budget p = some q := by
  -- The induction is on the term at hand, along the order in which steps lower terms.
  obtain ⟨t, fresh, steps⟩ := p
  induction t using (Term.wellFounded_lowers neg).induction generalizing fresh steps with
  | _ t ih =>
    cases hf : t.reduce? fresh laws with
    | none =>
      refine ⟨1, ⟨t, fresh, steps⟩, ?_⟩
      simp only [run, hf]
    | some f =>
      obtain ⟨budget, q, hq⟩ := ih f.result (Term.lowers_reduce? hlaws hf) f.fresh
        (⟨number, f.position, f.law⟩ :: steps)
      refine ⟨budget + 1, q, ?_⟩
      simp only [run, hf]
      exact hq

/-- Each of the five passes comes to an end by itself: from every term there is a budget of steps
such that with it, and with every larger one, the pass returns one and the same term, and no law of
the pass fires at any position of that term. -/
theorem run_ends (hlaws : laws ∈ all) (number : Nat) (p : Progress) :
    ∃ (enough : Nat) (q : Progress),
      (∀ budget, enough ≤ budget → run number laws budget p = some q) ∧
        ∀ position sub, q.term.at? position = some sub →
          ∀ law ∈ laws, ∀ s, law.fire? s sub = none := by
  obtain ⟨neg, hneg⟩ := Law.exists_weighs hlaws
  obtain ⟨enough, q, hq⟩ := exists_run hneg number p
  refine ⟨enough, q, fun budget hle => run_of_le hq hle, fun position sub hsub => ?_⟩
  exact Term.fire?_of_irreducible (run_irreducible hq) hsub

/-- `not(R(x)) * Sum{x}((S(x) + T(x)) * not(U(x)))`. -/
def splitTwice : Term :=
  .mul (.not (.table "R" (.var "x")))
    (.sum [.var "x"]
      (.mul (.add (.table "S" (.var "x")) (.table "T" (.var "x"))) (.not (.table "U" (.var "x")))))

/-- `Sum{u0}(S(u0) * not(R(x) + U(u0))) + Sum{u1}(T(u1) * not(R(x) + U(u1)))`. -/
def mergedTwice : Term :=
  .add
    (.sum [.var "u0"] (.mul (.table "S" (.var "u0"))
      (.not (.add (.table "R" (.var "x")) (.table "U" (.var "u0"))))))
    (.sum [.var "u1"] (.mul (.table "T" (.var "u1"))
      (.not (.add (.table "R" (.var "x")) (.table "U" (.var "u1"))))))

/-- The last pass copies both negations of a term and the summation around one of them, and merges
the copies of the negations. -/
theorem run_ends_copied_negations :
    all.getLastD [] ∈ all ∧ ∃ enough, ∀ budget, enough ≤ budget →
      (run 4 (all.getLastD []) budget ⟨splitTwice, Law.freshFor splitTwice, []⟩).map (·.term) =
        some mergedTwice := by
  have hlast : all.getLastD [] ∈ all := by decide
  obtain ⟨enough, q, hq, -⟩ := run_ends hlast 4 ⟨splitTwice, Law.freshFor splitTwice, []⟩
  have hmerged : (run 4 (all.getLastD []) 12 ⟨splitTwice, Law.freshFor splitTwice, []⟩).map
      (·.term) = some mergedTwice := by decide +kernel
  obtain ⟨q', hrun, hq'⟩ := Option.map_eq_some_iff.mp hmerged
  refine ⟨hlast, enough, fun budget hle => ?_⟩
  rw [hq budget hle, ← hq (enough + 12) (by omega), run_of_le hrun (by omega)]
  exact congrArg some hq'

end Pass

end QueryRules
