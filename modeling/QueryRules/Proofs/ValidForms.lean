import Mathlib.Data.List.Forall2
import QueryRules.Proofs.HereditaryForms
import QueryRules.Proofs.SettledForms

/-!
# QueryRules — valid normal forms

A normal form is valid if at every level each disjunction has a conjunction and each conjunction a
factor. The checked constructors make exactly the valid ones.
-/

namespace QueryRules

open List

/-! ## Validity -/

mutual

/-- The conjunction and all that are nested in it have a factor, and all nested disjunctions have a
conjunction. -/
def Conj.valid : Conj → Bool
  | ⟨vars, tables, preds, squash, negation⟩ =>
    !Conj.isEmpty ⟨vars, tables, preds, squash, negation⟩ && Disj.validOption squash
      && Disj.validOption negation

/-- Validity of an optional disjunction. -/
def Disj.validOption : Option (List Conj) → Bool
  | none => true
  | some d => !d.isEmpty && Disj.allValid d

/-- Validity of every conjunction of a disjunction. -/
def Disj.allValid : List Conj → Bool
  | [] => true
  | c :: cs => c.valid && Disj.allValid cs

end

/-- The disjunction and all that are nested in it have a conjunction, and all conjunctions at every
level have a factor. -/
def Disj.valid (d : Disj) : Bool :=
  !d.isEmpty && Disj.allValid d

variable {d : Disj}

theorem Disj.valid_iff : d.valid = true ↔ d ≠ [] ∧ ∀ c ∈ d, c.valid = true := by
  have hall : ∀ d : Disj, Disj.allValid d = true ↔ ∀ c ∈ d, c.valid = true := by
    intro d
    induction d with
    | nil => simp [Disj.allValid]
    | cons c cs ih => simp [Disj.allValid, ih]
  rw [Disj.valid, Bool.and_eq_true, hall]
  simp

theorem Conj.valid_iff {c : Conj} :
    c.valid = true ↔ c.isEmpty = false ∧ ∀ d, c.Nests d → d.valid = true := by
  have hoption : ∀ o : Option Disj, Disj.validOption o = true ↔
      ∀ d, o = some d → d.valid = true := by
    intro o
    cases o with
    | none => simp [Disj.validOption]
    | some d => simp [Disj.validOption, Disj.valid]
  obtain ⟨vars, tables, preds, squash, negation⟩ := c
  rw [Conj.valid, Bool.and_eq_true, Bool.and_eq_true, hoption, hoption, Bool.not_eq_true',
    and_assoc]
  refine and_congr_right fun _ => ⟨fun h d hd => hd.elim (h.1 d) (h.2 d), fun h => ?_⟩
  exact ⟨fun d hd => h d (.inl hd), fun d hd => h d (.inr hd)⟩

/-- A conjunction that the checked constructor makes, from nested disjunctions that the checked
constructors make. -/
inductive Conj.Built : Conj → Prop
  | ofTerms {vars : List Tuple} {tables preds : List Term} {squash negation : Option Disj}
      {c : Conj}
      (accepted : Conj.ofTerms vars tables preds squash negation = .ok c)
      (nonempty : ∀ d, squash = some d ∨ negation = some d → Disj.ofConjs d = .ok d)
      (nested : ∀ d, squash = some d ∨ negation = some d → ∀ e ∈ d, Built e) : Built c

/-- A disjunction that the checked constructors make. -/
def Disj.Built (d : Disj) : Prop :=
  Disj.ofConjs d = .ok d ∧ ∀ c ∈ d, c.Built

theorem TableAtom.ofTerms_map (as : List TableAtom) :
    TableAtom.ofTerms (as.map TableAtom.toTerm) = .ok as := by
  induction as with
  | nil => rfl
  | cons a as ih =>
    rw [map_cons, TableAtom.ofTerms, ih]
    rfl

theorem PredAtom.ofTerms_map (ps : List PredAtom) :
    PredAtom.ofTerms (ps.map PredAtom.toTerm) = .ok ps := by
  induction ps with
  | nil => rfl
  | cons p ps ih =>
    rw [map_cons, PredAtom.ofTerms, ih]
    cases p <;> rfl

variable {ts : List Term}

theorem TableAtom.eq_nil_of_ofTerms (h : TableAtom.ofTerms ts = .ok []) :
    ts = [] := by
  cases ts with
  | nil => rfl
  | cons t ts =>
    rw [TableAtom.ofTerms] at h
    split at h
    · cases h
    · cases hts : TableAtom.ofTerms ts <;> rw [hts] at h <;> cases h

theorem PredAtom.eq_nil_of_ofTerms (h : PredAtom.ofTerms ts = .ok []) :
    ts = [] := by
  cases ts with
  | nil => rfl
  | cons t ts =>
    rw [PredAtom.ofTerms] at h
    split at h
    · cases h
    · cases hts : PredAtom.ofTerms ts <;> rw [hts] at h <;> cases h

theorem Conj.isEmpty_iff {c : Conj} : c.isEmpty = true ↔
    c.tables = [] ∧ c.preds = [] ∧ c.squash = none ∧ c.negation = none := by
  simp only [Conj.isEmpty, Conj.onlyPreds, Bool.and_eq_true, List.isEmpty_iff,
    Option.isNone_iff_eq_none]
  tauto

/-- The checked constructor gives a conjunction back from the terms of its atoms. -/
theorem Conj.ofTerms_parts {c : Conj} (h : c.isEmpty = false) :
    Conj.ofTerms c.vars (c.tables.map TableAtom.toTerm) (c.preds.map PredAtom.toTerm) c.squash
      c.negation = .ok c := by
  obtain ⟨vars, tables, preds, squash, negation⟩ := c
  have hsome : ((tables.map TableAtom.toTerm).isEmpty && (preds.map PredAtom.toTerm).isEmpty
      && squash.isNone && negation.isNone) = false := by
    rw [← h, isEmpty_map, isEmpty_map]
    show _ = (preds.isEmpty && (tables.isEmpty && squash.isNone && negation.isNone))
    ac_rfl
  unfold Conj.ofTerms
  rw [if_neg (Bool.eq_false_iff.mp hsome), TableAtom.ofTerms_map, PredAtom.ofTerms_map]
  rfl

/-- What the checked constructor makes has a factor and the given nested disjunctions. -/
theorem Conj.ofTerms_inv {vars : List Tuple} {tables preds : List Term}
    {squash negation : Option Disj} {c : Conj}
    (h : Conj.ofTerms vars tables preds squash negation = .ok c) :
    c.isEmpty = false ∧ c.squash = squash ∧ c.negation = negation := by
  unfold Conj.ofTerms at h
  split at h
  · cases h
  next hsome =>
    cases htables : TableAtom.ofTerms tables with
    | error e =>
      rw [htables] at h
      cases h
    | ok as =>
      cases hpreds : PredAtom.ofTerms preds with
      | error e =>
        rw [htables, hpreds] at h
        cases h
      | ok ps =>
        rw [htables, hpreds] at h
        cases h
        refine ⟨Bool.eq_false_iff.mpr fun hempty => hsome ?_, rfl, rfl⟩
        obtain ⟨rfl, rfl, rfl, rfl⟩ := Conj.isEmpty_iff.mp hempty
        rw [TableAtom.eq_nil_of_ofTerms htables, PredAtom.eq_nil_of_ofTerms hpreds]
        rfl

theorem Disj.ofConjs_eq_ok : Disj.ofConjs d = .ok d ↔ d ≠ [] := by
  cases d with
  | nil => exact iff_of_false (fun h => by cases h) (fun h => h rfl)
  | cons c cs => exact iff_of_true rfl (cons_ne_nil c cs)

theorem Conj.valid_of_built {c : Conj} (h : c.Built) : c.valid = true := by
  induction h with
  | ofTerms accepted nonempty _ ih =>
    obtain ⟨hfactor, hsquash, hnegation⟩ := Conj.ofTerms_inv accepted
    refine Conj.valid_iff.mpr ⟨hfactor, fun d hd => ?_⟩
    unfold Conj.Nests at hd
    rw [hsquash, hnegation] at hd
    exact Disj.valid_iff.mpr ⟨Disj.ofConjs_eq_ok.mp (nonempty d hd), ih d hd⟩

theorem Conj.built_of_valid {c : Conj} (h : c.valid = true) : c.Built := by
  induction c using Conj.nested_induction with
  | _ c ih =>
    obtain ⟨hfactor, hnested⟩ := Conj.valid_iff.mp h
    refine .ofTerms (Conj.ofTerms_parts hfactor) (fun d hd => ?_) fun d hd e he => ?_
    · exact Disj.ofConjs_eq_ok.mpr (Disj.valid_iff.mp (hnested d hd)).1
    · exact ih d hd e he ((Disj.valid_iff.mp (hnested d hd)).2 e he)

/-- The checked constructors make the valid disjunctions. -/
theorem Disj.built_iff : d.Built ↔ d.valid = true := by
  rw [Disj.valid_iff, Disj.Built, Disj.ofConjs_eq_ok]
  refine and_congr_right fun _ => forall₂_congr fun c _ => ?_
  exact ⟨Conj.valid_of_built, Conj.built_of_valid⟩

/-! ## Reading -/

variable {t : Term}

/-- **What a term reads as is valid.** Sorted factors of a product are never without a factor. -/
theorem Disj.valid_ofTerm (h : Disj.ofTerm t = .ok d) : d.valid = true := by
  have hconj : ∀ {c : Conj}, (c.tables ≠ [] ∨ c.preds ≠ [] ∨ c.squash.toList ≠ [] ∨
      c.negation.toList ≠ []) ∧ (∀ d ∈ c.squash.toList ++ c.negation.toList, Disj.valid d = true) →
      Disj.valid [c] = true := by
    intro c ⟨hfactor, hnested⟩
    refine Disj.valid_iff.mpr ⟨cons_ne_nil _ _, fun e he => ?_⟩
    rw [mem_singleton.mp he, Conj.valid_iff]
    refine ⟨Bool.eq_false_iff.mpr fun hempty => ?_, fun d hd => hnested d ?_⟩
    · obtain ⟨ht, hp, hs, hn⟩ := Conj.isEmpty_iff.mp hempty
      simp [ht, hp, hs, hn] at hfactor
    · rw [mem_append, Option.mem_toList, Option.mem_toList]
      exact hd
  -- Every factor leaves something, so no conjunction is empty.
  refine (Term.readings (P := fun _ d => d.valid = true)
    (Q := fun _ ts ps sq neg => (ts ≠ [] ∨ ps ≠ [] ∨ sq ≠ [] ∨ neg ≠ []) ∧
      ∀ d ∈ sq ++ neg, d.valid = true)
    (fun n row => by simp) (fun p => by simp) (fun h => by simp [h]) (fun h => by simp [h])
    (fun hl hr => ⟨?_, ?_⟩) (fun _ h => hconj h) hconj (fun hl hr => ?_) t).1 d h
  · simp only [ne_eq, append_eq_nil_iff]
    tauto
  · simp only [mem_append] at hl hr ⊢
    rintro d ((hd | hd) | (hd | hd))
    · exact hl.2 d (.inl hd)
    · exact hr.2 d (.inl hd)
    · exact hl.2 d (.inr hd)
    · exact hr.2 d (.inr hd)
  · obtain ⟨hne, hl⟩ := Disj.valid_iff.mp hl
    refine Disj.valid_iff.mpr ⟨append_ne_nil_of_left_ne_nil hne _, fun c hc => ?_⟩
    exact (mem_append.mp hc).elim (hl c) ((Disj.valid_iff.mp hr).2 c)

/-! ## Reading back -/

variable {f : Factors}

namespace Factors

/-- The factors of several products together. -/
def concat (fs : List Factors) : Factors :=
  ⟨fs.flatMap tables, fs.flatMap preds, fs.flatMap squashes, fs.flatMap negations⟩

/-- `f` is the reading of the factor `t`, which is no product. -/
def Single (t : Term) (f : Factors) : Prop :=
  t.kind ≠ .mul ∧ Factors.ofTerm t = .ok f

/-- A left-deep product reads as its factors put together. -/
theorem ofTerm_foldl (ht : Factors.ofTerm t = .ok f)
    {fs : List Factors} (hts : List.Forall₂ Single ts fs) :
    Factors.ofTerm (ts.foldl .mul t) = .ok (concat (f :: fs)) := by
  induction hts generalizing t f with
  | nil => simp [ht, concat]
  | @cons u g us gs hu _ ih =>
    have hmul : Factors.ofTerm (.mul t u) = .ok (f.append g) := by
      rw [Factors.ofTerm, ht, hu.2]
      simp only [Factors.ofMul, if_neg hu.1]
      rfl
    rw [foldl_cons, ih hmul]
    simp [concat, append]

/-- A chain of products reads as the readings of its members put together, because no member is a
product itself. -/
theorem ofTerm_product {fs : List Factors} (hts : List.Forall₂ Single ts fs)
    (hne : ts ≠ []) : Factors.ofTerm (Term.product ts) = .ok (concat fs) := by
  cases hts with
  | nil => exact absurd rfl hne
  | cons ht hts => exact ofTerm_foldl ht.2 hts

/-- A term whose factors are read is neither a sum nor a summation. -/
theorem kind_of_ofTerm (h : Factors.ofTerm t = .ok f) :
    t.kind ≠ .add ∧ t.kind ≠ .sum := by
  cases t with
  | add l r | sum vars body => cases h
  | _ => exact ⟨by simp [Term.kind], by simp [Term.kind]⟩

/-- Factors that were read from the parts of a conjunction make the conjunction. -/
theorem toDisj_parts {c : Conj} (h : c.isEmpty = false) (whole : Term) :
    toDisj whole c.vars (.ok ⟨c.tables, c.preds, c.squash.toList.map .ok,
      c.negation.toList.map .ok⟩) = .ok [c] := by
  have hfew : ∀ o : Option Disj,
      (o.toList.map .ok : List (Except NormalFormError Disj)).length < 2 := by
    intro o
    cases o <;> simp
  have hfirst : ∀ o : Option Disj, first (o.toList.map .ok) = .ok o := by
    intro o
    cases o <;> rfl
  obtain ⟨vars, tables, preds, squash, negation⟩ := c
  rw [toDisj, toConj, if_neg (Nat.not_le_of_lt (hfew squash)),
    if_neg (Nat.not_le_of_lt (hfew negation)), hfirst, hfirst]
  show (Conj.ofParts vars tables preds squash negation).map _ = _
  rw [Conj.ofParts, if_neg (Bool.eq_false_iff.mp h)]
  rfl

end Factors

/-- A summation over a product, or a product alone, reads as one conjunction. -/
theorem Disj.ofTerm_sumOver {body : Term} (h : Factors.ofTerm body = .ok f)
    (vars : List Tuple) : Disj.ofTerm (.sumOver vars body)
      = Factors.toDisj (.sumOver vars body) vars (.ok f) := by
  obtain ⟨hadd, hsum⟩ := Factors.kind_of_ofTerm h
  cases vars with
  | nil =>
    rw [← h]
    cases body <;> first | rfl | exact absurd rfl hadd | exact absurd rfl hsum
  | cons v vs =>
    show Disj.ofTerm (.sum (v :: vs) body) = _
    rw [Disj.ofTerm, if_neg hsum, h]
    rfl

namespace Disj

/-- A left-deep sum of conjunctions reads as their list. -/
theorem ofTerm_foldl {d cs : Disj} (ht : Disj.ofTerm t = .ok d)
    (hcs : ∀ c ∈ cs, c.toTerm.kind ≠ .add ∧ Disj.ofTerm c.toTerm = .ok [c]) :
    Disj.ofTerm ((cs.map Conj.toTerm).foldl .add t) = .ok (d ++ cs) := by
  induction cs generalizing t d with
  | nil => simpa using ht
  | cons c cs ih =>
    obtain ⟨hkind, hc⟩ := hcs c mem_cons_self
    have hadd : Disj.ofTerm (.add t c.toTerm) = .ok (d ++ [c]) := by
      rw [Disj.ofTerm, ht, hc]
      simp only [if_neg hkind]
      rfl
    rw [map_cons, foldl_cons, ih hadd fun e he => hcs e (mem_cons_of_mem _ he),
      append_assoc, singleton_append]

/-- A chain of sums reads as the readings of its members put together. -/
theorem ofTerm_total (hne : d ≠ [])
    (hd : ∀ c ∈ d, c.toTerm.kind ≠ .add ∧ Disj.ofTerm c.toTerm = .ok [c]) :
    Disj.ofTerm d.toTerm = .ok d := by
  unfold toTerm
  rw [toTerms_eq_map]
  cases d with
  | nil => exact absurd rfl hne
  | cons c cs =>
    exact ofTerm_foldl (hd c mem_cons_self).2 fun e he => hd e (mem_cons_of_mem _ he)

end Disj

namespace Conj

variable {c : Conj}

/-- The product of a conjunction reads as its parts, if what is nested in it reads back. -/
theorem ofTerm_factorTerms (hfactor : c.isEmpty = false)
    (hnested : ∀ d, c.Nests d → Disj.ofTerm d.toTerm = .ok d) :
    Factors.ofTerm (.product (c.factorTerms (Disj.toTerm? c.squash) (Disj.toTerm? c.negation)))
      = .ok ⟨c.tables, c.preds, c.squash.toList.map .ok, c.negation.toList.map .ok⟩ := by
  unfold factorTerms
  rw [Disj.toTerm?_toList, Disj.toTerm?_toList, map_map, map_map]
  -- Each factor is read on its own.
  have hsingles : List.Forall₂ Factors.Single
      (c.tables.map TableAtom.toTerm ++ c.preds.map PredAtom.toTerm
        ++ c.squash.toList.map (.squash ∘ Disj.toTerm)
        ++ c.negation.toList.map (.not ∘ Disj.toTerm))
      (c.tables.map (fun a => .ofTable a.name a.row) ++ c.preds.map .ofPred
        ++ c.squash.toList.map (fun d => .ofSquash (.ok d))
        ++ c.negation.toList.map (fun d => .ofNegation (.ok d))) := by
    refine rel_append (rel_append (rel_append ?_ ?_) ?_) ?_ <;>
      rw [forall₂_map_left_iff, forall₂_map_right_iff, forall₂_same]
    · intro a _
      exact ⟨by simp [TableAtom.toTerm, Term.kind], rfl⟩
    · intro p _
      cases p <;> exact ⟨by simp [PredAtom.toTerm, Term.kind], rfl⟩
    · intro d hd
      refine ⟨by simp [Term.kind], ?_⟩
      rw [Function.comp_apply, Factors.ofTerm, hnested d (.inl (Option.mem_toList.mp hd))]
    · intro d hd
      refine ⟨by simp [Term.kind], ?_⟩
      rw [Function.comp_apply, Factors.ofTerm, hnested d (.inr (Option.mem_toList.mp hd))]
  have hnil : ∀ {α β : Type} (l : List α), l.flatMap (fun _ => ([] : List β)) = [] := by
    intro α β l
    simp
  rw [Factors.ofTerm_product hsingles fun hempty => ?_]
  · simp [hnil, Factors.concat, flatMap_map, Factors.ofTable, Factors.ofPred,
      Factors.ofSquash, Factors.ofNegation, ← map_eq_flatMap]
  · refine Bool.eq_false_iff.mp hfactor (Conj.isEmpty_iff.mpr ?_)
    simpa [and_assoc] using hempty

/-- A valid conjunction is written as no sum and reads back, by induction on what is nested in
it. -/
theorem ofTerm_toTerm (h : c.valid = true) :
    c.toTerm.kind ≠ .add ∧ Disj.ofTerm c.toTerm = .ok [c] := by
  induction c using Conj.nested_induction with
  | _ c ih =>
    obtain ⟨hfactor, hnested⟩ := valid_iff.mp h
    have hbody := ofTerm_factorTerms hfactor fun d hd => by
      obtain ⟨hne, hall⟩ := Disj.valid_iff.mp (hnested d hd)
      exact Disj.ofTerm_total hne fun e he => ih d hd e he (hall e he)
    rw [toTerm_eq, Disj.ofTerm_sumOver hbody]
    refine ⟨?_, Factors.toDisj_parts hfactor _⟩
    unfold Term.sumOver
    split
    · exact (Factors.kind_of_ofTerm hbody).1
    · simp [Term.kind]

end Conj

/-- **Reading undoes writing.** The written form of a disjunction is read as the disjunction itself
exactly if the checked constructors make it: what comes from them is read back with every binder
list, table, predicate, squash and negation in its place, and nothing else is. -/
theorem Disj.ofTerm_toTerm_iff (d : Disj) : Disj.ofTerm d.toTerm = .ok d ↔ d.Built := by
  rw [Disj.built_iff]
  constructor
  · exact Disj.valid_ofTerm
  · intro h
    obtain ⟨hne, hall⟩ := Disj.valid_iff.mp h
    exact Disj.ofTerm_total hne fun c hc => Conj.ofTerm_toTerm (hall c hc)

end QueryRules
