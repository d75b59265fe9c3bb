import Mathlib.Tactic.Ring
import QueryRules.NormalForm.Reader
import QueryRules.Proofs.Value

/-!
# QueryRules — values of normal forms

A disjunction has the value of its written form. Unfolded once, this is a sum over its
conjunctions (`Disj.value_toTerm`), each a summation over a product of tables, predicates, the
truth value of its squash and the opposite truth value of its negation (`Conj.value_toTerm`).

Reading keeps values (`Disj.value_ofTerm`): sorting the factors of a product changes their order
only. What else is kept follows from the same induction (`Term.readings`).
-/

namespace QueryRules

open List Factors

variable {D : Type*} [Fintype D] [DecidableEq D]

/-! ## Written forms -/

/-- The value of a product of tables, predicates, squashes and negations. -/
def factorsValue (m : Model D) (env : Env D) (tables : List TableAtom) (preds : List PredAtom)
    (squashes negations : List Disj) : Nat :=
  (tables.map fun a => a.toTerm.value m env).prod * (preds.map fun p => p.toTerm.value m env).prod
    * (squashes.map fun d => if d.toTerm.value m env = 0 then 0 else 1).prod
    * (negations.map fun d => if d.toTerm.value m env = 0 then 1 else 0).prod

/-- The value of the product under the binders of a conjunction. -/
def Conj.bodyValue (m : Model D) (c : Conj) (env : Env D) : Nat :=
  factorsValue m env c.tables c.preds c.squash.toList c.negation.toList

theorem Term.value_product (m : Model D) (env : Env D) (ts : List Term) :
    (Term.product ts).value m env = (ts.map (·.value m env)).prod := by
  unfold Term.product
  cases h : Term.product? ts with
  | none =>
    cases ts with
    | nil => simp [Term.unit, Term.value]
    | cons t ts => simp [Term.product?] at h
  | some p => exact Term.value_product? m env h

theorem Disj.toTerms_eq_map (d : Disj) : Disj.toTerms d = d.map Conj.toTerm := by
  induction d with
  | nil => rfl
  | cons c cs ih => rw [Disj.toTerms, ih, map_cons]

/-- A disjunction is the sum of its conjunctions; the empty one is zero. -/
theorem Disj.value_toTerm (m : Model D) (env : Env D) (d : Disj) :
    d.toTerm.value m env = (d.map fun c => c.toTerm.value m env).sum := by
  unfold Disj.toTerm
  rw [Disj.toTerms_eq_map]
  cases h : Term.total? (d.map Conj.toTerm) with
  | none =>
    cases d with
    | nil => simp [Term.zero, Term.unit, Term.value]
    | cons c cs => simp [Term.total?] at h
  | some p =>
    rw [Option.getD_some, Term.value_total? m env h, map_map]
    rfl

theorem Disj.value_append (m : Model D) (env : Env D) (d e : Disj) :
    Term.value m (Disj.toTerm (d ++ e)) env = d.toTerm.value m env + e.toTerm.value m env := by
  rw [Disj.value_toTerm, Disj.value_toTerm, Disj.value_toTerm, map_append, sum_append]

theorem Disj.toTerm?_toList (o : Option Disj) :
    (Disj.toTerm? o).toList = o.toList.map Disj.toTerm := by
  cases o with
  | none | some d => rfl

/-- A conjunction is the summation of its product. -/
theorem Conj.value_toTerm (m : Model D) (env : Env D) (c : Conj) :
    c.toTerm.value m env = Env.sumBinders c.vars (c.bodyValue m) env := by
  obtain ⟨vars, tables, preds, squash, negation⟩ := c
  have hbody : (Term.product (tables.map TableAtom.toTerm ++ preds.map PredAtom.toTerm
      ++ (Disj.toTerm? squash).toList.map .squash
      ++ (Disj.toTerm? negation).toList.map .not)).value m
        = Conj.bodyValue m ⟨vars, tables, preds, squash, negation⟩ := by
    funext env
    rw [Term.value_product, Disj.toTerm?_toList, Disj.toTerm?_toList]
    simp only [map_append, prod_append, map_map]
    rfl
  rw [Conj.toTerm, Term.value_sumOver, hbody]

/-- The product depends on the values of its parts. -/
theorem Conj.bodyValue_congr {m : Model D} {c c' : Conj} {env env' : Env D}
    (htables : (c'.tables.map fun a => a.toTerm.value m env').prod
      = (c.tables.map fun a => a.toTerm.value m env).prod)
    (hpreds : (c'.preds.map fun p => p.toTerm.value m env').prod
      = (c.preds.map fun p => p.toTerm.value m env).prod)
    (hsquash : c'.squash.map (fun d => Term.value m (Disj.toTerm d) env')
      = c.squash.map fun d => Term.value m (Disj.toTerm d) env)
    (hnegation : c'.negation.map (fun d => Term.value m (Disj.toTerm d) env')
      = c.negation.map fun d => Term.value m (Disj.toTerm d) env) :
    c'.bodyValue m env' = c.bodyValue m env := by
  have hlist : ∀ {o o' : Option Disj} (f : Nat → Nat),
      o'.map (fun d => d.toTerm.value m env') = o.map (fun d => d.toTerm.value m env) →
        o'.toList.map (fun d => f (d.toTerm.value m env'))
          = o.toList.map fun d => f (d.toTerm.value m env) := by
    intro o o' f h
    have hvalues := congrArg (fun r => r.toList.map f) h
    simpa only [Option.toList_map, map_map, Function.comp_def] using hvalues
  unfold Conj.bodyValue factorsValue
  rw [htables, hpreds, hlist (fun n => if n = 0 then 0 else 1) hsquash,
    hlist (fun n => if n = 0 then 1 else 0) hnegation]

/-- Where a product is not zero, none of its atoms is. -/
theorem Conj.factors_ne_zero {m : Model D} {c : Conj} {env : Env D} (h : c.bodyValue m env ≠ 0) :
    (∀ a ∈ c.tables, a.toTerm.value m env ≠ 0) ∧ ∀ p ∈ c.preds, p.toTerm.value m env ≠ 0 := by
  unfold Conj.bodyValue factorsValue at h
  have hatoms := (Nat.mul_ne_zero_iff.mp (Nat.mul_ne_zero_iff.mp h).1).1
  obtain ⟨htables, hpreds⟩ := Nat.mul_ne_zero_iff.mp hatoms
  constructor
  · intro a ha hzero
    exact htables (prod_eq_zero (mem_map.mpr ⟨a, ha, hzero⟩))
  · intro p hp hzero
    exact hpreds (prod_eq_zero (mem_map.mpr ⟨p, hp, hzero⟩))

/-! ## Reading -/

namespace Factors

/-- The parts of a conjunction that was made of factors. Every squash and every negation among the
factors could be read. -/
theorem toConj_inv {whole : Term} {vars : List Tuple} {f : Factors} {c : Conj}
    (h : f.toConj whole vars = .ok c) :
    c.vars = vars ∧ c.tables = f.tables ∧ c.preds = f.preds ∧
      f.squashes = c.squash.toList.map .ok ∧ f.negations = c.negation.toList.map .ok := by
  -- With fewer than two there is nothing that `first` leaves out.
  have hfirst : ∀ {es : List (Except NormalFormError Disj)} {o : Option Disj}, es.length < 2 →
      first es = .ok o → es = o.toList.map .ok := by
    intro es o hlen hok
    match es, hlen, hok with
    | [], _, hok => cases hok; rfl
    | [.ok d], _, hok => cases hok; rfl
    | [.error e], _, hok => cases hok
  unfold toConj at h
  by_cases hsq : 2 ≤ f.squashes.length
  · rw [if_pos hsq] at h
    cases h
  by_cases hneg : 2 ≤ f.negations.length
  · rw [if_neg hsq, if_pos hneg] at h
    cases h
  rw [if_neg hsq, if_neg hneg] at h
  cases hs : first f.squashes with
  | error e => rw [hs] at h; cases h
  | ok sq =>
    cases hn : first f.negations with
    | error e => rw [hs, hn] at h; cases h
    | ok neg =>
      rw [hs, hn] at h
      change Conj.ofParts vars f.tables f.preds sq neg = .ok c at h
      unfold Conj.ofParts at h
      dsimp only at h
      split at h
      · cases h
      · cases h
        exact ⟨rfl, rfl, rfl, hfirst (by omega) hs, hfirst (by omega) hn⟩

/-- A list of readings that is made of two lists, all of it disjunctions, splits. -/
theorem map_ok_append {es es' : List (Except NormalFormError Disj)} {ds : List Disj}
    (h : es ++ es' = ds.map .ok) :
    ∃ ds₁ ds₂, ds = ds₁ ++ ds₂ ∧ es = ds₁.map .ok ∧ es' = ds₂.map .ok := by
  obtain ⟨ds₁, ds₂, hds, h₁, h₂⟩ := map_eq_append_iff.mp h.symm
  exact ⟨ds₁, ds₂, hds, h₁.symm, h₂.symm⟩

end Factors

/-- The readings of the factors of a product, taken apart. -/
theorem Factors.ofMul_inv {l r : Except Misfit Factors} {right : Term} {f : Factors}
    (h : ofMul l right r = .ok f) : ∃ a b, l = .ok a ∧ r = .ok b ∧ f = a.append b := by
  unfold ofMul at h
  cases l with
  | error e => cases h
  | ok a =>
    by_cases hkind : right.kind = .mul
    · simp only [if_pos hkind] at h
      cases h
    · simp only [if_neg hkind] at h
      cases r with
      | error e => cases h
      | ok b =>
        cases h
        exact ⟨a, b, rfl, rfl, rfl⟩

/-- A sum that was read, taken apart. -/
theorem Disj.ofTerm_add_inv {l r : Term} {d : Disj} (h : Disj.ofTerm (.add l r) = .ok d) :
    ∃ dl dr, Disj.ofTerm l = .ok dl ∧ Disj.ofTerm r = .ok dr ∧ d = dl ++ dr := by
  rw [Disj.ofTerm] at h
  obtain ⟨dl, hl, h⟩ := bind_eq_ok.mp h
  by_cases hkind : r.kind = .add
  · simp only [if_pos hkind] at h
    cases h
  · simp only [if_neg hkind] at h
    obtain ⟨dr, hr, h⟩ := bind_eq_ok.mp h
    cases h
    exact ⟨dl, dr, hl, hr, rfl⟩

section Readings

variable {P : Term → Disj → Prop}
  {Q : Term → List TableAtom → List PredAtom → List Disj → List Disj → Prop}

/-- `Q` holds of the sorted factors of a product, provided that all of them could be read. -/
def Factors.ReadAs (Q : Term → List TableAtom → List PredAtom → List Disj → List Disj → Prop)
    (t : Term) (f : Factors) : Prop :=
  ∀ sq neg, f.squashes = sq.map .ok → f.negations = neg.map .ok → Q t f.tables f.preds sq neg

/-- Factors that were read make one conjunction. -/
theorem Factors.ReadAs.exists_conj {whole body : Term} {vars : List Tuple} {f : Factors} {d : Disj}
    (hf : f.ReadAs Q body) (h : toDisj whole vars (.ok f) = .ok d) :
    ∃ c, d = [c] ∧ c.vars = vars ∧ Q body c.tables c.preds c.squash.toList c.negation.toList := by
  rw [toDisj] at h
  cases hc : f.toConj whole vars with
  | error e => rw [hc] at h; cases h
  | ok c =>
    rw [hc] at h
    cases h
    obtain ⟨hv, ht, hp, hsq, hneg⟩ := toConj_inv hc
    refine ⟨c, rfl, hv, ?_⟩
    rw [ht, hp]
    exact hf _ _ hsq hneg

/-- `P` holds of what a term is read as, and `Q` of its factors. -/
def Term.Readings (P : Term → Disj → Prop)
    (Q : Term → List TableAtom → List PredAtom → List Disj → List Disj → Prop) (t : Term) : Prop :=
  (∀ d, Disj.ofTerm t = .ok d → P t d) ∧ ∀ f, ofTerm t = .ok f → f.ReadAs Q t

/-- A term with factors that is read as the conjunction of them. -/
theorem Factors.ReadAs.readings {t : Term} {f : Factors} (hf : f.ReadAs Q t)
    (product : ∀ {c : Conj}, c.vars = [] →
      Q t c.tables c.preds c.squash.toList c.negation.toList → P t [c])
    (hread : ofTerm t = .ok f)
    (hwhole : ∀ d, Disj.ofTerm t = .ok d → toDisj t [] (.ok f) = .ok d) :
    t.Readings P Q := by
  refine ⟨fun d hd => ?_, fun g hg => ?_⟩
  · obtain ⟨c, rfl, hvars, hc⟩ := hf.exists_conj (hwhole d hd)
    exact product hvars hc
  · rw [hread] at hg
    cases hg
    exact hf

theorem Factors.readAs_of_atoms {t : Term} {f : Factors} (hsquashes : f.squashes = [])
    (hnegations : f.negations = []) (h : Q t f.tables f.preds [] []) : f.ReadAs Q t := by
  intro sq neg hsq hneg
  obtain rfl := map_eq_nil_iff.mp (hsq.symm.trans hsquashes)
  obtain rfl := map_eq_nil_iff.mp (hneg.symm.trans hnegations)
  exact h

theorem Factors.readAs_ofSquash {t : Term}
    (h : ∀ d, Disj.ofTerm t = .ok d → Q (.squash t) [] [] [d] []) :
    (ofSquash (Disj.ofTerm t)).ReadAs Q (.squash t) := by
  intro sq neg hsq hneg
  obtain ⟨d, rfl, hd⟩ := map_eq_singleton_iff.mp hsq.symm
  obtain rfl := map_eq_nil_iff.mp hneg.symm
  exact h d hd.symm

theorem Factors.readAs_ofNegation {t : Term}
    (h : ∀ d, Disj.ofTerm t = .ok d → Q (.not t) [] [] [] [d]) :
    (ofNegation (Disj.ofTerm t)).ReadAs Q (.not t) := by
  intro sq neg hsq hneg
  obtain rfl := map_eq_nil_iff.mp hsq.symm
  obtain ⟨d, rfl, hd⟩ := map_eq_singleton_iff.mp hneg.symm
  exact h d hd.symm

/-- What holds of everything that is read: `P` of the reading of a whole term and `Q` of the sorted
factors of a product, all of them read. One induction on the term for both, since the two readers
call each other. A product that stands alone is a conjunction without binders. -/
theorem Term.readings
    (table : ∀ n row, Q (.table n row) [⟨n, row⟩] [] [] [])
    (pred : ∀ p : PredAtom, Q p.toTerm [] [p] [] [])
    (squash : ∀ {t d}, P t d → Q (.squash t) [] [] [d] [])
    (not : ∀ {t d}, P t d → Q (.not t) [] [] [] [d])
    (mul : ∀ {l r ts ts' ps ps' sq sq' neg neg'}, Q l ts ps sq neg → Q r ts' ps' sq' neg' →
      Q (.mul l r) (ts ++ ts') (ps ++ ps') (sq ++ sq') (neg ++ neg'))
    (product : ∀ {t c}, c.vars = [] → Q t c.tables c.preds c.squash.toList c.negation.toList →
      P t [c])
    (sum : ∀ {t c}, Q t c.tables c.preds c.squash.toList c.negation.toList → P (.sum c.vars t) [c])
    (add : ∀ {l r d e}, P l d → P r e → P (.add l r) (d ++ e)) (t : Term) : t.Readings P Q := by
  induction t with
  | table n row =>
    have hatom : (ofTable n row).ReadAs Q (.table n row) :=
      readAs_of_atoms rfl rfl (table n row)
    exact hatom.readings product rfl fun d hd => hd
  | pred n args =>
    have hatom : (ofPred (.pred n args)).ReadAs Q (.pred n args) :=
      readAs_of_atoms rfl rfl (pred (.pred n args))
    exact hatom.readings product rfl fun d hd => hd
  | eq l r =>
    have hatom : (ofPred (.eq l r)).ReadAs Q (.eq l r) :=
      readAs_of_atoms rfl rfl (pred (.eq l r))
    exact hatom.readings product rfl fun d hd => hd
  | squash t ih =>
    exact (readAs_ofSquash fun d hd => squash (ih.1 d hd)).readings product rfl
      fun d hd => hd
  | not t ih =>
    exact (readAs_ofNegation fun d hd => not (ih.1 d hd)).readings product rfl
      fun d hd => hd
  | mul l r ihl ihr =>
    have hwhole : ∀ d, Disj.ofTerm (.mul l r) = .ok d →
        toDisj (.mul l r) [] (ofTerm (.mul l r)) = .ok d := fun d hd => hd
    cases hread : ofTerm (.mul l r) with
    | error e =>
      rw [hread] at hwhole
      refine ⟨fun d hd => ?_, fun f hf => ?_⟩
      · cases hwhole d hd
      · cases hread.symm.trans hf
    | ok f =>
      rw [hread] at hwhole
      refine Factors.ReadAs.readings (fun sq neg hsq hneg => ?_) product hread hwhole
      -- The factors of a product are those of its sides, one after the other.
      obtain ⟨a, b, ha, hb, rfl⟩ := ofMul_inv hread
      obtain ⟨sq₁, sq₂, rfl, hsqa, hsqb⟩ := map_ok_append hsq
      obtain ⟨neg₁, neg₂, rfl, hnega, hnegb⟩ := map_ok_append hneg
      exact mul (ihl.2 a ha sq₁ neg₁ hsqa hnega) (ihr.2 b hb sq₂ neg₂ hsqb hnegb)
  | add l r ihl ihr =>
    refine ⟨fun d hd => ?_, fun f hf => by cases hf⟩
    obtain ⟨dl, dr, hl, hr, rfl⟩ := Disj.ofTerm_add_inv hd
    exact add (ihl.1 dl hl) (ihr.1 dr hr)
  | sum vars body ih =>
    refine ⟨fun d hd => ?_, fun f hf => by cases hf⟩
    rw [Disj.ofTerm] at hd
    split at hd
    · cases hd
    · cases hread : ofTerm body with
      | error e => rw [hread] at hd; cases hd
      | ok f =>
        rw [hread] at hd
        obtain ⟨c, rfl, rfl, hc⟩ := (ih.2 f hread).exists_conj hd
        exact sum hc

end Readings

/-- The product of two products of sorted factors. -/
theorem factorsValue_append (m : Model D) (env : Env D) (ts ts' : List TableAtom)
    (ps ps' : List PredAtom) (sq sq' neg neg' : List Disj) :
    factorsValue m env (ts ++ ts') (ps ++ ps') (sq ++ sq') (neg ++ neg')
      = factorsValue m env ts ps sq neg * factorsValue m env ts' ps' sq' neg' := by
  unfold factorsValue
  simp only [map_append, prod_append]
  ring

/-- The factors `f` multiply to the value of `t`, provided that all of them could be read. -/
def Factors.Denotes (m : Model D) (f : Factors) (t : Term) : Prop :=
  ∀ sq neg, f.squashes = sq.map .ok → f.negations = neg.map .ok →
    ∀ env, factorsValue m env f.tables f.preds sq neg = t.value m env

/-- A conjunction with the factors of a product is the summation of it. -/
theorem Conj.value_of_factors {m : Model D} {c : Conj} {body : Term}
    (h : ∀ env, factorsValue m env c.tables c.preds c.squash.toList c.negation.toList
      = body.value m env) (env : Env D) :
    Term.value m (Disj.toTerm [c]) env = Env.sumBinders c.vars (body.value m) env := by
  have hbody : c.bodyValue m = body.value m := funext h
  rw [Disj.value_toTerm, map_singleton, sum_singleton, Conj.value_toTerm, hbody]

/-- Reading keeps values, of whole terms and of products. -/
theorem Term.value_readings (m : Model D) (t : Term) :
    (∀ d, Disj.ofTerm t = .ok d → ∀ env, d.toTerm.value m env = t.value m env) ∧
      (∀ f, ofTerm t = .ok f → f.Denotes m t) := by
  refine Term.readings (P := fun t d => ∀ env, d.toTerm.value m env = t.value m env)
    (Q := fun t ts ps sq neg => ∀ env, factorsValue m env ts ps sq neg = t.value m env)
    ?_ ?_ ?_ ?_ ?_ ?_ ?_ ?_ t
  · intro n row env
    simp [factorsValue, TableAtom.toTerm]
  · intro p env
    simp [factorsValue]
  · intro t d h env
    simp [factorsValue, Term.value, h]
  · intro t d h env
    simp [factorsValue, Term.value, h]
  · intro l r _ _ _ _ _ _ _ _ hl hr env
    rw [Term.value, ← hl env, ← hr env]
    exact factorsValue_append m env _ _ _ _ _ _ _ _
  · intro t c hvars h env
    rw [Conj.value_of_factors h, hvars]
    rfl
  · intro t c h env
    exact Conj.value_of_factors h env
  · intro l r d e hl hr env
    rw [Disj.value_append, hl, hr, Term.value]

/-- Reading a term as a disjunction keeps its value. -/
theorem Disj.value_ofTerm (m : Model D) {t : Term} {d : Disj} (h : Disj.ofTerm t = .ok d)
    (env : Env D) : d.toTerm.value m env = t.value m env :=
  (Term.value_readings m t).1 d h env

end QueryRules
