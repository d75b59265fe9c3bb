import Mathlib.Tactic.Common
import QueryRules.NormalForm.Normalize

/-!
# QueryRules — a reduced term is a normal form

The last pass of the reduction stops at a term on which none of its laws fires anywhere. Such a
term is the written form of a disjunction: `Disj.ofTerm` reads it. Hence normalization fails in one
way only, by spending the budget of a pass.
-/

namespace QueryRules

open List

/-! ## Terms that take no step -/

/-- The laws that bring a term into the shape of a disjunction. -/
def Law.shaping : List Law :=
  [.mulSum, .sumMul, .sumSum, .sumAdd, .mulAssoc, .addAssoc, .distribution, .mulSquash, .mulNot]

/-- No direct subterm takes a step. -/
def Term.Still (s : FreshNames) (laws : List Law) : Term → Prop
  | .add l r | .mul l r => l.reduce? s laws = none ∧ r.reduce? s laws = none
  | .not t | .squash t | .sum _ t => t.reduce? s laws = none
  | .table _ _ | .pred _ _ | .eq _ _ => True

variable {t : Term}

section Inversion

variable {s : FreshNames} {laws : List Law}

theorem Law.firstAt?_eq_none :
    Law.firstAt? s laws t = none ↔ ∀ law ∈ laws, law.fire? s t = none := by
  simp [Law.firstAt?, findSome?_eq_none_iff]

/-- A term takes no step exactly if no subterm does and no law fires at the root. -/
theorem Term.reduce?_eq_none_iff :
    t.reduce? s laws = none ↔ t.Still s laws ∧ ∀ law ∈ laws, law.fire? s t = none := by
  rw [← Law.firstAt?_eq_none]
  cases t with
  | table | pred | eq =>
    -- Atoms are no left-hand sides.
    refine iff_of_true rfl ⟨trivial, Law.firstAt?_eq_none.mpr fun law _ => ?_⟩
    cases law <;> rfl
  | add l r | mul l r =>
    rw [Term.reduce?, Term.Still]
    cases l.reduce? s laws with
    | some f => simp
    | none => cases r.reduce? s laws <;> simp
  | not t | squash t | sum vars t =>
    rw [Term.reduce?, Term.Still]
    cases t.reduce? s laws <;> simp

end Inversion

/-! ## Kinds of subterms -/

/-- Merging fires as soon as there are two factors to merge. -/
theorem Law.countFactors_lt_two {body? : Term → Option Term} {merge : List Term → Option Term}
    (hmerge : ∀ bodies, bodies ≠ [] → merge bodies ≠ none) {t : Term}
    (h : Law.mergeFactors? body? merge t = none) :
    t.countFactors (fun f => (body? f).isSome) < 2 := by
  by_contra hcount
  unfold Law.mergeFactors? at h
  rw [if_neg hcount] at h
  have hbodies : t.factors.filterMap body? ≠ [] := by
    intro hnil
    have hlen := length_filterMap_eq_countP (f := body?) (l := t.factors)
    rw [hnil, ← Term.countFactors_eq_countP, length_nil] at hlen
    omega
  cases hm : merge (t.factors.filterMap body?) with
  | none => exact hmerge _ hbodies hm
  | some merged =>
    rw [hm] at h
    cases hkept : t.factors.filter (fun f => (body? f).isNone) with
    | nil | cons f fs => simp [hkept, Term.product?] at h

variable {l r : Term}

namespace Term

/-- How many factors of a product are squashes. -/
def squashCount (t : Term) : Nat :=
  t.countFactors fun f => (Law.squashBody? f).isSome

/-- How many factors of a product are negations. -/
def notCount (t : Term) : Nat :=
  t.countFactors fun f => (Law.notBody? f).isSome

variable {s : FreshNames} {laws : List Law}

/-- What stands in a product on which no law fires: neither factor is a sum or a summation, the
right one is no product, and at most one squash and one negation occur. -/
theorem mul_irreducible (hlaws : Law.shaping ⊆ laws)
    (h : ∀ law ∈ laws, law.fire? s (.mul l r) = none) :
    (l.kind ≠ .add ∧ l.kind ≠ .sum) ∧ (r.kind ≠ .add ∧ r.kind ≠ .sum ∧ r.kind ≠ .mul) ∧
      (Term.mul l r).squashCount < 2 ∧ (Term.mul l r).notCount < 2 := by
  have hfire : ∀ law ∈ Law.shaping, law.fire? s (.mul l r) = none := fun law hm => h law (hlaws hm)
  -- For each shape that is ruled out there is a law that would fire.
  refine ⟨⟨?_, ?_⟩, ⟨?_, ?_, ?_⟩, ?_, ?_⟩
  · intro hl
    cases l <;> simp [kind] at hl
    exact absurd (hfire .distribution (by decide)) (by simp [Law.fire?, Law.plain?])
  · intro hl
    cases l <;> simp [kind] at hl
    exact absurd (hfire .sumMul (by decide)) (by simp [Law.fire?])
  · intro hr
    cases r <;> simp [kind] at hr
    refine absurd (hfire .distribution (by decide)) ?_
    cases l <;> simp [Law.fire?, Law.plain?]
  · intro hr
    cases r <;> simp [kind] at hr
    refine absurd (hfire .mulSum (by decide)) ?_
    cases l <;> simp [Law.fire?]
  · intro hr
    cases r <;> simp [kind] at hr
    refine absurd (hfire .mulAssoc (by decide)) ?_
    cases l <;> simp [Law.fire?, Law.plain?]
  · have hmerge := hfire .mulSquash (by decide)
    simp only [Law.fire?, Law.plain?, Option.map_eq_none_iff] at hmerge
    refine Law.countFactors_lt_two (fun bodies hne => ?_) hmerge
    cases bodies with
    | nil => exact absurd rfl hne
    | cons b bs => simp [product?]
  · have hmerge := hfire .mulNot (by decide)
    simp only [Law.fire?, Law.plain?, Option.map_eq_none_iff] at hmerge
    refine Law.countFactors_lt_two (fun bodies hne => ?_) hmerge
    cases bodies with
    | nil => exact absurd rfl hne
    | cons b bs => simp [total?]

/-- A summation on which no law fires is neither over a sum nor over a summation. -/
theorem sum_irreducible (hlaws : Law.shaping ⊆ laws) {vars : List Tuple} {body : Term}
    (h : ∀ law ∈ laws, law.fire? s (.sum vars body) = none) :
    body.kind ≠ .add ∧ body.kind ≠ .sum := by
  constructor
  · intro hb
    cases body <;> simp [kind] at hb
    exact absurd (h .sumAdd (hlaws (by decide))) (by simp [Law.fire?, Law.plain?])
  · intro hb
    cases body <;> simp [kind] at hb
    exact absurd (h .sumSum (hlaws (by decide))) (by simp [Law.fire?])

/-- The right summand of a sum on which no law fires is no sum. -/
theorem add_irreducible (hlaws : Law.shaping ⊆ laws)
    (h : ∀ law ∈ laws, law.fire? s (.add l r) = none) : r.kind ≠ .add := by
  intro hr
  cases r <;> simp [kind] at hr
  refine absurd (h .addAssoc (hlaws (by decide))) ?_
  cases l <;> simp [Law.fire?, Law.plain?]

theorem squashCount_of_not_mul (h : t.kind ≠ .mul) :
    t.squashCount = if (Law.squashBody? t).isSome then 1 else 0 := by
  cases t with
  | mul l r => exact absurd rfl h
  | _ => rfl

theorem notCount_of_not_mul (h : t.kind ≠ .mul) :
    t.notCount = if (Law.notBody? t).isSome then 1 else 0 := by
  cases t with
  | mul l r => exact absurd rfl h
  | _ => rfl

end Term

/-! ## Reading products -/

/-- `f` is what the factors of `t` read as, and a conjunction can be made of it as far as the
factors go. -/
structure Factors.Reads (t : Term) (f : Factors) : Prop where
  reads : Factors.ofTerm t = .ok f
  squashes : f.squashes.length = t.squashCount
  negations : f.negations.length = t.notCount
  squashes_ok : ∀ e ∈ f.squashes, ∃ d, e = .ok d
  negations_ok : ∀ e ∈ f.negations, ∃ d, e = .ok d
  nonempty : f.tables ≠ [] ∨ f.preds ≠ [] ∨ f.squashes ≠ [] ∨ f.negations ≠ []

namespace Factors

/-- At most one reading, which is no error, gives an optional disjunction; there is one exactly if
there was a reading. -/
theorem first_ok {es : List (Except NormalFormError Disj)} (hok : ∀ e ∈ es, ∃ d, e = .ok d) :
    ∃ o, first es = .ok o ∧ (o = none → es = []) := by
  cases es with
  | nil => exact ⟨none, rfl, fun _ => rfl⟩
  | cons e es =>
    obtain ⟨d, rfl⟩ := hok e mem_cons_self
    exact ⟨some d, rfl, fun h => by cases h⟩

/-- Factors of an acceptable product make a conjunction, under any binders. -/
theorem Reads.toConj {f : Factors} (h : Reads t f) (hsq : t.squashCount < 2)
    (hneg : t.notCount < 2) (whole : Term) (vars : List Tuple) :
    ∃ c, f.toConj whole vars = .ok c := by
  obtain ⟨sq, hfirst, hsqnone⟩ := first_ok h.squashes_ok
  obtain ⟨neg, hfirst', hnegnone⟩ := first_ok h.negations_ok
  have hs := h.squashes
  have hn := h.negations
  refine ⟨⟨vars, f.tables, f.preds, sq, neg⟩, ?_⟩
  unfold Factors.toConj
  rw [if_neg (by omega), if_neg (by omega), hfirst, hfirst']
  show Conj.ofParts vars f.tables f.preds sq neg = _
  -- some part is there, because some factor was
  have hne : (Conj.mk vars f.tables f.preds sq neg).isEmpty = false := by
    rw [Bool.eq_false_iff]
    intro hempty
    simp only [Conj.isEmpty, Conj.onlyPreds, Bool.and_eq_true, List.isEmpty_iff,
      Option.isNone_iff_eq_none] at hempty
    obtain ⟨hp, ⟨ht, hsq⟩, hneg⟩ := hempty
    rcases h.nonempty with hh | hh | hh | hh
    · exact hh ht
    · exact hh hp
    · exact hh (hsqnone hsq)
    · exact hh (hnegnone hneg)
  simp only [Conj.ofParts, hne, Bool.false_eq_true, if_false]

/-- The same as a disjunction of one conjunction. -/
theorem Reads.toDisj {f : Factors} (h : Reads t f) (hsq : t.squashCount < 2)
    (hneg : t.notCount < 2) (whole : Term) (vars : List Tuple) :
    ∃ d, Factors.toDisj whole vars (Factors.ofTerm t) = .ok d := by
  obtain ⟨c, hc⟩ := h.toConj hsq hneg whole vars
  rw [h.reads]
  exact ⟨[c], by rw [Factors.toDisj, hc]; rfl⟩

theorem reads_table (n : String) (row : Tuple) : Reads (.table n row) (.ofTable n row) where
  reads := rfl
  squashes := rfl
  negations := rfl
  squashes_ok := by intro e he; cases he
  negations_ok := by intro e he; cases he
  nonempty := .inl (cons_ne_nil _ _)

theorem reads_pred (p : PredAtom) : Reads p.toTerm (.ofPred p) where
  reads := by cases p <;> rfl
  squashes := by cases p <;> rfl
  negations := by cases p <;> rfl
  squashes_ok := by intro e he; cases he
  negations_ok := by intro e he; cases he
  nonempty := .inr (.inl (cons_ne_nil _ _))

theorem reads_squash {d : Disj} (h : Disj.ofTerm t = .ok d) :
    Reads (.squash t) (.ofSquash (Disj.ofTerm t)) where
  reads := rfl
  squashes := rfl
  negations := rfl
  squashes_ok := by
    intro e he
    exact ⟨d, (mem_singleton.mp he).trans h⟩
  negations_ok := by intro e he; cases he
  nonempty := .inr (.inr (.inl (cons_ne_nil _ _)))

theorem reads_not {d : Disj} (h : Disj.ofTerm t = .ok d) :
    Reads (.not t) (.ofNegation (Disj.ofTerm t)) where
  reads := rfl
  squashes := rfl
  negations := rfl
  squashes_ok := by intro e he; cases he
  negations_ok := by
    intro e he
    exact ⟨d, (mem_singleton.mp he).trans h⟩
  nonempty := .inr (.inr (.inr (cons_ne_nil _ _)))

/-- Readings of two factors make a reading of their product, unless the right one is a product. -/
theorem Reads.mul {f g : Factors} (hl : Reads l f) (hr : Reads r g)
    (hkind : r.kind ≠ .mul) : Reads (.mul l r) (f.append g) where
  reads := by
    show Factors.ofMul (Factors.ofTerm l) r (Factors.ofTerm r) = _
    rw [hl.reads, hr.reads]
    simp only [Factors.ofMul, if_neg hkind]
    rfl
  squashes := by
    have hcount : (Term.mul l r).squashCount = l.squashCount + r.squashCount := by
      rw [Term.squashCount_of_not_mul hkind]
      rfl
    rw [hcount, ← hl.squashes, ← hr.squashes]
    exact length_append
  negations := by
    have hcount : (Term.mul l r).notCount = l.notCount + r.notCount := by
      rw [Term.notCount_of_not_mul hkind]
      rfl
    rw [hcount, ← hl.negations, ← hr.negations]
    exact length_append
  squashes_ok := by
    intro e he
    rcases mem_append.mp he with he | he
    · exact hl.squashes_ok e he
    · exact hr.squashes_ok e he
  negations_ok := by
    intro e he
    rcases mem_append.mp he with he | he
    · exact hl.negations_ok e he
    · exact hr.negations_ok e he
  nonempty := by
    rcases hl.nonempty with h | h | h | h
    · exact .inl (append_ne_nil_of_left_ne_nil h _)
    · exact .inr (.inl (append_ne_nil_of_left_ne_nil h _))
    · exact .inr (.inr (.inl (append_ne_nil_of_left_ne_nil h _)))
    · exact .inr (.inr (.inr (append_ne_nil_of_left_ne_nil h _)))

end Factors

/-! ## Reading irreducible terms -/

/-- A term on which no shaping law fires anywhere reads as a disjunction; unless it is a sum or a
summation, its factors read too, and few enough of them are squashes and negations. -/
theorem Term.readable_of_irreducible {s : FreshNames} {laws : List Law}
    (hlaws : Law.shaping ⊆ laws) (t : Term) (h : t.reduce? s laws = none) :
    (∃ d, Disj.ofTerm t = .ok d) ∧
      (t.kind ≠ .add → t.kind ≠ .sum →
        (∃ f, Factors.Reads t f) ∧ t.squashCount < 2 ∧ t.notCount < 2) := by
  induction t with
  | table n row =>
    have hf := Factors.reads_table n row
    exact ⟨hf.toDisj Nat.two_pos Nat.two_pos _ [], fun _ _ =>
      ⟨⟨_, hf⟩, Nat.two_pos, Nat.two_pos⟩⟩
  | pred n args =>
    have hf := Factors.reads_pred (.pred n args)
    exact ⟨hf.toDisj Nat.two_pos Nat.two_pos _ [], fun _ _ =>
      ⟨⟨_, hf⟩, Nat.two_pos, Nat.two_pos⟩⟩
  | eq l r =>
    have hf := Factors.reads_pred (.eq l r)
    exact ⟨hf.toDisj Nat.two_pos Nat.two_pos _ [], fun _ _ =>
      ⟨⟨_, hf⟩, Nat.two_pos, Nat.two_pos⟩⟩
  | add l r ihl ihr =>
    obtain ⟨⟨hl, hr⟩, hroot⟩ := reduce?_eq_none_iff.mp h
    obtain ⟨dl, hdl⟩ := (ihl hl).1
    obtain ⟨dr, hdr⟩ := (ihr hr).1
    refine ⟨⟨dl ++ dr, ?_⟩, fun hk => absurd rfl hk⟩
    simp only [Disj.ofTerm, hdl, hdr, if_neg (add_irreducible hlaws hroot)]
    rfl
  | mul l r ihl ihr =>
    obtain ⟨⟨hl, hr⟩, hroot⟩ := reduce?_eq_none_iff.mp h
    obtain ⟨⟨hladd, hlsum⟩, ⟨hradd, hrsum, hrmul⟩, hsq, hneg⟩ := mul_irreducible hlaws hroot
    obtain ⟨⟨f, hf⟩, -⟩ := (ihl hl).2 hladd hlsum
    obtain ⟨⟨g, hg⟩, -⟩ := (ihr hr).2 hradd hrsum
    -- Neither side is a sum, so both are read as factors.
    have hfg := hf.mul hg hrmul
    exact ⟨hfg.toDisj hsq hneg _ [], fun _ _ => ⟨⟨_, hfg⟩, hsq, hneg⟩⟩
  | not t ih =>
    obtain ⟨ht, -⟩ := reduce?_eq_none_iff.mp h
    obtain ⟨d, hd⟩ := (ih ht).1
    have hf := Factors.reads_not hd
    exact ⟨hf.toDisj Nat.two_pos Nat.one_lt_two _ [], fun _ _ =>
      ⟨⟨_, hf⟩, Nat.two_pos, Nat.one_lt_two⟩⟩
  | squash t ih =>
    obtain ⟨ht, -⟩ := reduce?_eq_none_iff.mp h
    obtain ⟨d, hd⟩ := (ih ht).1
    have hf := Factors.reads_squash hd
    exact ⟨hf.toDisj Nat.one_lt_two Nat.two_pos _ [], fun _ _ =>
      ⟨⟨_, hf⟩, Nat.one_lt_two, Nat.two_pos⟩⟩
  | sum vars body ih =>
    obtain ⟨hb, hroot⟩ := reduce?_eq_none_iff.mp h
    obtain ⟨hadd, hsum⟩ := sum_irreducible hlaws hroot
    obtain ⟨⟨f, hf⟩, hsq, hneg⟩ := (ih hb).2 hadd hsum
    refine ⟨?_, fun _ hk => absurd rfl hk⟩
    simp only [Disj.ofTerm, if_neg hsum]
    exact hf.toDisj hsq hneg _ vars

/-! ## Passes end at irreducible terms -/

namespace Pass

/-- What every step keeps, a pass keeps, and when it ends, no law fires. -/
theorem run_induction {P : Progress → Prop} {number : Nat} {laws : List Law}
    (hstep : ∀ {p f}, p.term.reduce? p.fresh laws = some f → P p →
      P ⟨f.result, f.fresh, ⟨number, f.position, f.law⟩ :: p.steps⟩)
    {budget : Nat} {p q : Progress} (h : run number laws budget p = some q) (hp : P p) :
    P q ∧ q.term.reduce? q.fresh laws = none := by
  -- The budget is spent from the front, so what is kept is known of the term at hand.
  induction budget generalizing p with
  | zero => cases h
  | succ budget ih =>
    unfold run at h
    split at h
    · next hnone =>
      cases h
      exact ⟨hp, hnone⟩
    · next f hf => exact ih h (hstep hf hp)

theorem run_irreducible {number budget : Nat} {laws : List Law} {p q : Progress}
    (h : run number laws budget p = some q) : q.term.reduce? q.fresh laws = none :=
  (run_induction (P := fun _ => True) (fun _ _ => trivial) h trivial).2

/-- After a list of passes no law of the last one fires. -/
theorem runAll_irreducible {limit number : Nat} {passes : List (List Law)} {laws : List Law}
    {p q : Progress} (hlast : passes.getLast? = some laws)
    (h : runAll limit number passes p = .ok q) : q.term.reduce? q.fresh laws = none := by
  induction passes generalizing number p with
  | nil => cases hlast
  | cons first rest ih =>
    unfold runAll at h
    split at h
    · next r hrun =>
      cases rest with
      | nil =>
        cases hlast
        cases h
        exact run_irreducible hrun
      | cons second rest => exact ih (by simpa using hlast) h
    · cases h

end Pass

namespace Term

/-- What the five passes leave is readable. -/
theorem ofTerm_of_reduceRecorded {p : Progress} (h : t.reduceRecorded = .ok p) :
    ∃ d, Disj.ofTerm p.term = .ok d := by
  have hlast : Pass.all.getLast? = some [.elimSquash, .squashNot, .mulSum, .sumMul, .sumSum,
      .sumAdd, .mulAssoc, .addAssoc, .distribution, .squashCommunity, .mulSquash, .notCommunity,
      .mulNot] := rfl
  have hirr := Pass.runAll_irreducible hlast h
  exact (readable_of_irreducible (by decide) p.term hirr).1

/-- The reduction succeeds as the recorded one does. -/
theorem exists_reduceRecorded {t t' : Term} (h : t.reduce = .ok t') :
    ∃ p, t.reduceRecorded = .ok p ∧ p.term = t' := by
  unfold reduce at h
  cases hrec : t.reduceRecorded with
  | error l =>
    rw [hrec] at h
    cases h
  | ok p =>
    rw [hrec] at h
    cases h
    exact ⟨p, rfl, rfl⟩

theorem ofTerm_of_reduce {t t' : Term} (h : t.reduce = .ok t') : ∃ d, Disj.ofTerm t' = .ok d := by
  obtain ⟨p, hp, rfl⟩ := exists_reduceRecorded h
  exact ofTerm_of_reduceRecorded hp

/-- The reduction fails as the recorded one does. -/
theorem reduce_eq_error {l : StepLimit} :
    t.reduce = .error l ↔ t.reduceRecorded = .error l := by
  unfold reduce
  cases t.reduceRecorded with
  | error l' => exact ⟨fun h => (by cases h; rfl), fun h => (by cases h; rfl)⟩
  | ok p => exact ⟨fun h => (by cases h), fun h => (by cases h)⟩

/-- Where all that is reduced can be read, only the reduction fails. -/
theorem error_iff_of_reads {α β : Type} {reduced : Except StepLimit α}
    {read : α → Except NormalFormError β} {e : NormalFormError}
    (h : ∀ a, reduced = .ok a → ∃ b, read a = .ok b) :
    (reduced.mapError .stepLimit >>= read) = .error e ↔
      ∃ l, reduced = .error l ∧ e = .stepLimit l := by
  cases reduced with
  | error l =>
    constructor
    · intro herror
      cases herror
      exact ⟨l, rfl, rfl⟩
    · rintro ⟨l', hl, rfl⟩
      cases hl
      rfl
  | ok a =>
    obtain ⟨b, hb⟩ := h a rfl
    constructor
    · intro herror
      cases hb.symm.trans herror
    · rintro ⟨l, hl, -⟩
      cases hl

/-- **Normalization fails by the step limit only.** A term that reduces, whatever its binders, is
readable afterwards; normalization, with or without its record of steps, reports an error exactly
if the reduction does, and it is the step limit of that reduction. -/
theorem normalize_fails_only_by_stepLimit (t : Term) :
    (∀ t', t.reduce = .ok t' → ∃ d, Disj.ofTerm t' = .ok d) ∧
      (∀ e, t.normalize = .error e ↔ ∃ l, t.reduce = .error l ∧ e = .stepLimit l) ∧
      (∀ e, t.normalizeRecorded = .error e ↔ ∃ l, t.reduce = .error l ∧ e = .stepLimit l) := by
  refine ⟨fun t' h => ofTerm_of_reduce h, fun e => ?_, fun e => ?_⟩
  · refine error_iff_of_reads fun t' h => ?_
    obtain ⟨d, hd⟩ := ofTerm_of_reduce h
    refine ⟨d.renameBound, ?_⟩
    rw [Disj.ofReduced, hd]
    rfl
  · simp only [reduce_eq_error]
    refine error_iff_of_reads fun p h => ?_
    obtain ⟨d, hd⟩ := ofTerm_of_reduceRecorded h
    refine ⟨(d.renameBound, p.steps.reverse), ?_⟩
    rw [Disj.ofReduced, hd]
    rfl

/-- A summation over a product with a negation, a sum and a squash, under a binder that is no
variable: it reduces to `Sum{1}(S(y) * not(R(x))) + Sum{1}(||T(x)|| * not(R(x)))`, which is
readable. -/
theorem normalize_fails_only_by_stepLimit_product :
    ∃ t', (Term.sum [.const "1"] (.mul (.not (.table "R" (.var "x")))
        (.add (.table "S" (.var "y")) (.squash (.table "T" (.var "x")))))).reduce = .ok t' ∧
      ∃ d, Disj.ofTerm t' = .ok d := by
  have hred : (Term.sum [.const "1"] (.mul (.not (.table "R" (.var "x")))
      (.add (.table "S" (.var "y")) (.squash (.table "T" (.var "x")))))).reduce
        = .ok (.add
          (.sum [.const "1"] (.mul (.table "S" (.var "y")) (.not (.table "R" (.var "x")))))
          (.sum [.const "1"]
            (.mul (.squash (.table "T" (.var "x"))) (.not (.table "R" (.var "x")))))) := rfl
  exact ⟨_, hred, (normalize_fails_only_by_stepLimit _).1 _ hred⟩

end Term

end QueryRules
