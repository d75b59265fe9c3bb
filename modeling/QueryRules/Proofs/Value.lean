import Mathlib.Algebra.BigOperators.Ring.Finset
import Mathlib.Data.Fintype.BigOperators
import QueryRules.Proofs.Preliminaries
import QueryRules.Term

/-!
# QueryRules — values of terms

A term denotes a multiplicity. This module says which one: a `Model` interprets constants,
attributes, functions, tables and predicates over a finite domain of rows, an `Env` gives a row to
every variable name, and `Term.value` computes the number.

* Tables count with their multiplicity, predicates and equalities with zero or one.
* Negation and squash are the two truth values of a number.
* A summation is iterated: one finite sum for each binder, the first one outermost. A binder that
  is listed again, or bound again further inside, hides the earlier one.
-/

namespace QueryRules

open List

open Finset

variable {D : Type*}

/-! ## Models and environments -/

/-- An interpretation of the vocabulary of terms over a domain of rows. Projection is strict: every
attribute of null is null. -/
structure Model (D : Type*) where
  const : String → D
  attr : String → D → D
  call : String → List D → D
  table : String → D → Nat
  pred : String → List D → Bool
  attr_null : ∀ name, attr name (const "null") = const "null"

/-- A row for every variable name. -/
abbrev Env (D : Type*) := String → D

namespace Env

/-- Give a row to a binder. Only row variables can be bound; a binder of another shape changes
nothing. -/
def bind (env : Env D) (binder : Tuple) (d : D) : Env D :=
  match binder with
  | .var n => Function.update env n d
  | _ => env

/-- Sum a quantity over the rows of every binder of a list, the first binder outermost. -/
def sumBinders [Fintype D] : List Tuple → (Env D → Nat) → Env D → Nat
  | [], f, env => f env
  | v :: vs, f, env => ∑ d, sumBinders vs f (env.bind v d)

end Env

/-! ## Values -/

mutual

/-- The row that a tuple expression denotes. -/
def Tuple.value (m : Model D) (env : Env D) : Tuple → D
  | .var n => env n
  | .const c => m.const c
  | .attr base a => m.attr a (base.value m env)
  | .call f args => m.call f (Tuple.values m env args)

/-- The rows that a list of tuple expressions denotes. -/
def Tuple.values (m : Model D) (env : Env D) : List Tuple → List D
  | [] => []
  | t :: ts => t.value m env :: Tuple.values m env ts

end

/-- The multiplicity that a term denotes. -/
def Term.value [Fintype D] [DecidableEq D] (m : Model D) : Term → Env D → Nat
  | .table n row, env => m.table n (row.value m env)
  | .pred n args, env => if m.pred n (Tuple.values m env args) then 1 else 0
  | .eq l r, env => if l.value m env = r.value m env then 1 else 0
  | .add l r, env => l.value m env + r.value m env
  | .mul l r, env => l.value m env * r.value m env
  | .not t, env => if t.value m env = 0 then 1 else 0
  | .squash t, env => if t.value m env = 0 then 0 else 1
  | .sum vars body, env => Env.sumBinders vars (body.value m) env

/-- Whether every binder of a term, at every depth, is a row variable. -/
def Term.baseBinders : Term → Bool
  | .table _ _ | .pred _ _ | .eq _ _ => true
  | .add l r | .mul l r => l.baseBinders && r.baseBinders
  | .not t | .squash t => t.baseBinders
  | .sum vars body => vars.all Tuple.isVar && body.baseBinders

/-! ## Binding

Binding different binders commutes, and a second binding of the same binder hides the first. -/

namespace Env

theorem bind_comm (env : Env D) {v w : Tuple} (h : v ≠ w) (d e : D) :
    (env.bind v d).bind w e = (env.bind w e).bind v d := by
  cases v with
  | var x =>
    cases w with
    | var y =>
      have hxy : x ≠ y := fun hxy => h (by rw [hxy])
      exact Function.update_comm hxy d e env
    | const c | attr b a | call f args => rfl
  | const c | attr b a | call f args => rfl

theorem bind_bind (env : Env D) (v : Tuple) (d e : D) :
    (env.bind v d).bind v e = env.bind v e := by
  cases v with
  | var x => exact Function.update_idem d e env
  | const c | attr b a | call f args => rfl

theorem bind_of_not_isVar (env : Env D) {w : Tuple} (h : w.isVar = false) (d : D) :
    env.bind w d = env := by
  cases w with
  | var x => simp [Tuple.isVar] at h
  | const c | attr b a | call f args => rfl

variable [Fintype D]

/-- A binder that the summand ignores is ignored by the summation: it commutes with the binders of
the list or is hidden by one of them. -/
theorem sumBinders_bind (vs : List Tuple) {f : Env D → Nat} {v : Tuple}
    (h : ∀ env d, f (env.bind v d) = f env) (env : Env D) (d : D) :
    sumBinders vs f (env.bind v d) = sumBinders vs f env := by
  induction vs generalizing env with
  | nil => exact h env d
  | cons w ws ih =>
    unfold sumBinders
    refine Finset.sum_congr rfl fun e _ => ?_
    by_cases hvw : v = w
    · rw [← hvw, bind_bind]
    · rw [bind_comm env hvw, ih]

theorem sumBinders_append (vs ws : List Tuple) (f : Env D → Nat) (env : Env D) :
    sumBinders (vs ++ ws) f env = sumBinders vs (sumBinders ws f) env := by
  induction vs generalizing env with
  | nil => rfl
  | cons v vs ih =>
    show ∑ d, sumBinders (vs ++ ws) f (env.bind v d) = _
    exact Finset.sum_congr rfl fun d _ => ih (env.bind v d)

theorem sumBinders_add (vs : List Tuple) (f g : Env D → Nat) (env : Env D) :
    sumBinders vs (fun e => f e + g e) env = sumBinders vs f env + sumBinders vs g env := by
  induction vs generalizing env with
  | nil => rfl
  | cons v vs ih =>
    unfold sumBinders
    rw [← Finset.sum_add_distrib]
    exact Finset.sum_congr rfl fun d _ => ih (env.bind v d)

/-- A factor that ignores all binders moves out of the summation. -/
theorem sumBinders_mul (vs : List Tuple) (f g : Env D → Nat)
    (h : ∀ v ∈ vs, ∀ env d, g (env.bind v d) = g env) (env : Env D) :
    sumBinders vs (fun e => f e * g e) env = sumBinders vs f env * g env := by
  induction vs generalizing env with
  | nil => rfl
  | cons v vs ih =>
    unfold sumBinders
    rw [Finset.sum_mul]
    refine Finset.sum_congr rfl fun d _ => ?_
    rw [ih (fun w hw => h w (mem_cons_of_mem v hw)), h v mem_cons_self]

end Env

/-! ## Products and sums

The constructors of terms from lists, and the view of a product as the list of its factors. -/

namespace Term

variable [Fintype D] [DecidableEq D]

/-- The constructor that collapses the empty summation keeps the value. -/
theorem value_sumOver (m : Model D) (vars : List Tuple) (body : Term) (env : Env D) :
    (Term.sumOver vars body).value m env = Env.sumBinders vars (body.value m) env := by
  unfold sumOver
  cases vars with
  | nil | cons v vs => rfl

theorem value_foldl_mul (m : Model D) (env : Env D) (t : Term) (ts : List Term) :
    (ts.foldl .mul t).value m env = t.value m env * (ts.map (·.value m env)).prod := by
  induction ts generalizing t with
  | nil => simp
  | cons u us ih =>
    rw [List.foldl_cons, ih, List.map_cons, List.prod_cons, Term.value, mul_assoc]

theorem value_foldl_add (m : Model D) (env : Env D) (t : Term) (ts : List Term) :
    (ts.foldl .add t).value m env = t.value m env + (ts.map (·.value m env)).sum := by
  induction ts generalizing t with
  | nil => simp
  | cons u us ih =>
    rw [List.foldl_cons, ih, List.map_cons, List.sum_cons, Term.value, add_assoc]

theorem value_product? (m : Model D) (env : Env D) {ts : List Term} {p : Term}
    (h : product? ts = some p) : p.value m env = (ts.map (·.value m env)).prod := by
  cases ts with
  | nil => simp [product?] at h
  | cons t ts =>
    rw [product?, Option.some.injEq] at h
    rw [← h, value_foldl_mul, List.map_cons, List.prod_cons]

theorem value_total? (m : Model D) (env : Env D) {ts : List Term} {p : Term}
    (h : total? ts = some p) : p.value m env = (ts.map (·.value m env)).sum := by
  cases ts with
  | nil => simp [total?] at h
  | cons t ts =>
    rw [total?, Option.some.injEq] at h
    rw [← h, value_foldl_add, List.map_cons, List.sum_cons]

/-- The value of a term is the product of the values of its factors. -/
theorem value_eq_prod_factors (m : Model D) (env : Env D) (t : Term) :
    t.value m env = (t.factors.map (·.value m env)).prod := by
  fun_induction factors t with
  | case1 l r ih => rw [value, ih, map_append, prod_append]; simp
  | case2 t h => simp

end Term

/-! ## Tuples -/

/-- A row variable has a name. -/
theorem Tuple.exists_eq_var {t : Tuple} (h : t.isVar = true) : ∃ x, t = .var x := by
  cases t with
  | var x => exact ⟨x, rfl⟩
  | const c | attr base a | call f args => cases h

/-- Folding a projection of null keeps its row. -/
theorem Tuple.value_project (m : Model D) (env : Env D) (t : Tuple) (a : String) :
    (t.project a).value m env = m.attr a (t.value m env) := by
  unfold Tuple.project
  split
  · next h => rw [h]; exact (m.attr_null a).symm
  · rfl

/-- A projection uses no more than its base. -/
theorem Tuple.uses_of_uses_project {t : Tuple} {a x : String}
    (h : (t.project a).uses (.var x) = true) : t.uses (.var x) = true := by
  unfold Tuple.project at h
  split at h
  · exact h
  · simpa [Tuple.uses] using h

mutual

variable {env env' : Env D}

/-- The row of a tuple expression depends on the variables that occur in it. -/
theorem Tuple.value_congr (m : Model D) : (t : Tuple) →
    (∀ x, t.uses (.var x) = true → env x = env' x) → t.value m env = t.value m env'
  | .var n, h => h n (by simp [Tuple.uses])
  | .const _, _ => rfl
  | .attr base a, h => by
    have hb := Tuple.value_congr m base fun x hx => h x (by simp [Tuple.uses, hx])
    rw [Tuple.value, Tuple.value, hb]
  | .call f args, h => by
    have ha := Tuple.values_congr m args fun x hx => h x (by simp [Tuple.uses, hx])
    rw [Tuple.value, Tuple.value, ha]

theorem Tuple.values_congr (m : Model D) : (ts : List Tuple) →
    (∀ x, Tuple.anyUses ts (.var x) = true → env x = env' x) →
      Tuple.values m env ts = Tuple.values m env' ts
  | [], _ => rfl
  | t :: ts, h => by
    have ht := Tuple.value_congr m t fun x hx => h x (by simp [Tuple.anyUses, hx])
    have hs := Tuple.values_congr m ts fun x hx => h x (by simp [Tuple.anyUses, hx])
    rw [Tuple.values, Tuple.values, ht, hs]

end

/-! ## Unused variables -/

/-- An environment that differs at an unused variable only agrees on all used ones. -/
theorem Env.bind_var_of_ne (env : Env D) {x y : String} (h : y ≠ x) (d : D) :
    env.bind (.var x) d y = env y := by
  simp [Env.bind, h]

/-- The two environments differ at variables of the list only. -/
def Env.AgreesOff (vs : List Tuple) (env e : Env D) : Prop :=
  ∀ x, .var x ∉ vs → e x = env x

variable {vs : List Tuple}

theorem Env.AgreesOff.of_bind {v : Tuple} {env e : Env D} {d : D}
    (h : AgreesOff vs (env.bind v d) e) : AgreesOff (v :: vs) env e := by
  intro x hx
  rw [List.mem_cons, not_or] at hx
  rw [h x hx.2]
  cases v with
  | var y => exact Env.bind_var_of_ne env (fun hxy => hx.1 (congrArg _ hxy)) d
  | const c | attr b a | call f args => rfl

/-- A summation looks at environments that differ at its binders only. -/
theorem Env.sumBinders_congr [Fintype D] {f g : Env D → Nat} {env : Env D}
    (h : ∀ e, AgreesOff vs env e → f e = g e) : sumBinders vs f env = sumBinders vs g env := by
  induction vs generalizing env with
  | nil => exact h env fun _ _ => rfl
  | cons v vs ih => exact Finset.sum_congr rfl fun d _ => ih fun e he => h e he.of_bind

variable {x : String}

theorem Tuple.value_bind_of_not_uses (m : Model D) {t : Tuple}
    (h : t.uses (.var x) = false) (env : Env D) (d : D) :
    t.value m (env.bind (.var x) d) = t.value m env := by
  refine Tuple.value_congr m t fun y hy => Env.bind_var_of_ne env ?_ d
  rintro rfl
  simp [h] at hy

theorem Tuple.values_bind_of_not_uses (m : Model D) {ts : List Tuple}
    (h : Tuple.anyUses ts (.var x) = false) (env : Env D) (d : D) :
    Tuple.values m (env.bind (.var x) d) ts = Tuple.values m env ts := by
  refine Tuple.values_congr m ts fun y hy => Env.bind_var_of_ne env ?_ d
  rintro rfl
  simp [h] at hy

/-- A variable that does not occur in a term, as a binder neither, has no influence on its value.
Induction on the term; under a summation the binding moves past the binders. -/
theorem Term.value_bind_of_not_uses [Fintype D] [DecidableEq D] (m : Model D) {t : Term}
    (h : t.uses (.var x) = false) (env : Env D) (d : D) :
    t.value m (env.bind (.var x) d) = t.value m env := by
  induction t generalizing env d with
  | table n row =>
    simp only [Term.value]
    rw [Tuple.value_bind_of_not_uses m h]
  | pred n args =>
    simp only [Term.value]
    rw [Tuple.values_bind_of_not_uses m h]
  | eq l r =>
    obtain ⟨hl, hr⟩ := Bool.or_eq_false_iff.mp h
    simp only [Term.value]
    rw [Tuple.value_bind_of_not_uses m hl, Tuple.value_bind_of_not_uses m hr]
  | add l r ihl ihr | mul l r ihl ihr =>
    obtain ⟨hl, hr⟩ := Bool.or_eq_false_iff.mp h
    simp only [Term.value]
    rw [ihl hl, ihr hr]
  | not t ih | squash t ih =>
    simp only [Term.value]
    rw [ih h]
  | sum vars body ih =>
    have hb : body.uses (.var x) = false := by
      simp only [Term.uses, Bool.or_eq_false_iff] at h
      exact h.2
    exact Env.sumBinders_bind vars (ih hb) env d

/-! ## Occurrences under substitution

Putting one variable for another neither makes nor removes variables elsewhere. A projection may
fold on the way, but only to null. -/

/-- Replacing in a list is replacing in each of its members. -/
theorem Tuple.substAll_eq_map (ts : List Tuple) (source image : Tuple) :
    substAll ts source image = ts.map (Tuple.subst · source image) := by
  induction ts with
  | nil => rfl
  | cons t ts ih => rw [substAll, ih, List.map_cons]

/-- A variable stays a variable, and nothing else becomes one. -/
theorem Tuple.isVar_subst_var (t : Tuple) (v n : String) :
    (t.subst (.var v) (.var n)).isVar = t.isVar := by
  cases t with
  | var y =>
    by_cases h : y = v
    · simp [Tuple.subst, Tuple.isVar, h]
    · simp [Tuple.subst, Tuple.isVar, h]
  | const c => simp [Tuple.subst]
  | attr b a =>
    simp only [Tuple.subst, reduceCtorEq, if_false, Tuple.project]
    split
    · next hnull => rw [hnull]; rfl
    · rfl
  | call f args => simp [Tuple.subst, Tuple.isVar]

mutual

/-- What occurs after a variable was replaced occurs in the image, or occurred before and is not the
variable. -/
theorem Tuple.uses_subst {g x : String} {image : Tuple} : (t : Tuple) →
    (t.subst (.var g) image).uses (.var x) = true →
      image.uses (.var x) = true ∨ (x ≠ g ∧ t.uses (.var x) = true)
  | .var y, h => by
    by_cases hyg : y = g
    · left
      simpa [Tuple.subst, hyg] using h
    · right
      have hyx : y = x := by simpa [Tuple.subst, Tuple.uses, hyg] using h
      subst hyx
      exact ⟨hyg, by simp [Tuple.uses]⟩
  | .const c, h => by simp [Tuple.subst, Tuple.uses] at h
  | .attr base a, h => by
    simp only [Tuple.subst, reduceCtorEq, if_false] at h
    have hb := Tuple.uses_subst base (Tuple.uses_of_uses_project h)
    simpa [Tuple.uses] using hb
  | .call f args, h => by
    simp only [Tuple.subst, reduceCtorEq, if_false] at h
    have ha := Tuple.anyUses_substAll args (by simpa [Tuple.uses] using h)
    simpa [Tuple.uses] using ha

theorem Tuple.anyUses_substAll {g x : String} {image : Tuple} : (ts : List Tuple) →
    Tuple.anyUses (Tuple.substAll ts (.var g) image) (.var x) = true →
      image.uses (.var x) = true ∨ (x ≠ g ∧ Tuple.anyUses ts (.var x) = true)
  | [], h => by simp [Tuple.substAll, Tuple.anyUses] at h
  | t :: ts, h => by
    rw [Tuple.substAll, Tuple.anyUses, Bool.or_eq_true] at h
    rw [Tuple.anyUses, Bool.or_eq_true]
    rcases h with ht | hs
    · exact (Tuple.uses_subst t ht).imp id fun h => ⟨h.1, .inl h.2⟩
    · exact (Tuple.anyUses_substAll ts hs).imp id fun h => ⟨h.1, .inr h.2⟩

end

/-- What occurs after a variable was put for another one is the new variable, or occurred before and
is not the replaced one. -/
theorem Tuple.uses_subst_var {v n x : String} (t : Tuple)
    (h : (t.subst (.var v) (.var n)).uses (.var x) = true) :
    x = n ∨ (x ≠ v ∧ t.uses (.var x) = true) := by
  refine (Tuple.uses_subst t h).imp (fun hx => ?_) id
  simpa [Tuple.uses, eq_comm] using hx

theorem Tuple.anyUses_substAll_var {v n x : String} (ts : List Tuple)
    (h : Tuple.anyUses (Tuple.substAll ts (.var v) (.var n)) (.var x) = true) :
    x = n ∨ (x ≠ v ∧ Tuple.anyUses ts (.var x) = true) := by
  refine (Tuple.anyUses_substAll ts h).imp (fun hx => ?_) id
  simpa [Tuple.uses, eq_comm] using hx

/-- The same for a list of binders. -/
theorem Tuple.mem_substAll_var {v n x : String}
    (h : .var x ∈ Tuple.substAll vs (.var v) (.var n)) : x = n ∨ (x ≠ v ∧ .var x ∈ vs) := by
  induction vs with
  | nil => simp [Tuple.substAll] at h
  | cons w ws ih =>
    rw [Tuple.substAll, List.mem_cons] at h
    rcases h with hw | hws
    · -- the head is a variable after the substitution, so it was one before
      have hvar : w.isVar = true := by
        rw [← Tuple.isVar_subst_var w v n, ← hw]; rfl
      cases w with
      | var y =>
        have hx : (Tuple.var y).uses (.var x) = true → Tuple.var x = .var y := by
          intro hyx
          have : y = x := by simpa [Tuple.uses] using hyx
          rw [this]
        rcases Tuple.uses_subst_var (.var y) (x := x) (by rw [← hw]; simp [Tuple.uses]) with
          hn | ⟨hv, hyx⟩
        · exact .inl hn
        · exact .inr ⟨hv, by rw [hx hyx]; exact mem_cons_self⟩
      | const c | attr b a | call f args => simp [Tuple.isVar] at hvar
    · rcases ih hws with hn | ⟨hv, hx⟩
      · exact .inl hn
      · exact .inr ⟨hv, mem_cons_of_mem w hx⟩

/-- Binders stay row variables. -/
theorem Tuple.all_isVar_substAll_var (vs : List Tuple) (v n : String) :
    (Tuple.substAll vs (.var v) (.var n)).all Tuple.isVar = vs.all Tuple.isVar := by
  induction vs with
  | nil => rfl
  | cons w ws ih => rw [Tuple.substAll, all_cons, all_cons, ih, Tuple.isVar_subst_var]

theorem Term.baseBinders_subst_var (t : Term) (v n : String) :
    (t.subst (.var v) (.var n)).baseBinders = t.baseBinders := by
  induction t with
  | table name row | pred name args | eq l r => rfl
  | add l r ihl ihr | mul l r ihl ihr => simp only [Term.subst, Term.baseBinders, ihl, ihr]
  | not t ih | squash t ih => exact ih
  | sum vars body ih =>
    simp only [Term.subst, Term.baseBinders, ih, Tuple.all_isVar_substAll_var]

/-- What occurs in a term after the substitution is the new variable, or occurred before and is not
the replaced one. -/
theorem Term.uses_subst_var {v n x : String} {t : Term}
    (h : (t.subst (.var v) (.var n)).uses (.var x) = true) :
    x = n ∨ (x ≠ v ∧ t.uses (.var x) = true) := by
  induction t with
  | table name row => exact Tuple.uses_subst_var row h
  | pred name args => exact Tuple.anyUses_substAll_var args h
  | eq l r =>
    simp only [Term.subst, Term.uses, Bool.or_eq_true] at h ⊢
    rcases h with hl | hr
    · exact (Tuple.uses_subst_var l hl).imp_right fun h => ⟨h.1, .inl h.2⟩
    · exact (Tuple.uses_subst_var r hr).imp_right fun h => ⟨h.1, .inr h.2⟩
  | add l r ihl ihr | mul l r ihl ihr =>
    simp only [Term.subst, Term.uses, Bool.or_eq_true] at h ⊢
    rcases h with hl | hr
    · exact (ihl hl).imp_right fun h => ⟨h.1, .inl h.2⟩
    · exact (ihr hr).imp_right fun h => ⟨h.1, .inr h.2⟩
  | not t ih | squash t ih => exact ih h
  | sum vars body ih =>
    simp only [Term.subst, Term.uses, Bool.or_eq_true, decide_eq_true_eq] at h ⊢
    rcases h with hvars | hbody
    · exact (Tuple.mem_substAll_var hvars).imp_right fun h => ⟨h.1, .inl h.2⟩
    · exact (ih hbody).imp_right fun h => ⟨h.1, .inr h.2⟩

variable {v n : String}

/-- The replaced variable is gone. -/
theorem Term.not_uses_subst_var (hvn : v ≠ n) (t : Term) :
    (t.subst (.var v) (.var n)).uses (.var v) = false := by
  rw [Bool.eq_false_iff]
  intro h
  rcases Term.uses_subst_var h with hn | ⟨hv, _⟩
  · exact hvn hn
  · exact hv rfl

/-! ## Renaming

`Env.Renamed v n env env'`: the second environment gives to `n` the row that the first one gives to
`v`, and both agree elsewhere. Under it a term without `n` has the same value as the term with `n`
written for `v`. -/

/-- `env'` is `env` with the row of `v` handed to the name `n`. -/
def Env.Renamed (v n : String) (env env' : Env D) : Prop :=
  env' n = env v ∧ ∀ x, x ≠ v → x ≠ n → env' x = env x

theorem Env.renamed_update (v n : String) (env : Env D) (d : D) :
    Env.Renamed v n (env.bind (.var v) d) (env.bind (.var n) d) := by
  refine ⟨?_, fun x hv hn => ?_⟩
  · simp [Env.bind]
  · rw [Env.bind_var_of_ne env hv, Env.bind_var_of_ne env hn]

/-- Corresponding binders get the same row. A binder that is no variable stays none. -/
theorem Env.Renamed.bind (h : Env.Renamed v n env env')
    {w : Tuple} (hw : w ≠ .var n) (d : D) :
    Env.Renamed v n (env.bind w d) (env'.bind (w.subst (.var v) (.var n)) d) := by
  cases w with
  | var y =>
    have hyn : y ≠ n := fun hyn => hw (by rw [hyn])
    -- The binder itself is renamed, or it is another one.
    by_cases hyv : y = v
    · subst hyv
      simp only [Tuple.subst, if_pos]
      refine ⟨by simp [Env.bind], fun x hx hn => ?_⟩
      rw [Env.bind_var_of_ne env hx, Env.bind_var_of_ne env' hn]
      exact h.2 x hx hn
    · have hsubst : (Tuple.var y).subst (.var v) (.var n) = .var y := by
        simp [Tuple.subst, hyv]
      rw [hsubst]
      refine ⟨?_, fun x hx hn => ?_⟩
      · rw [Env.bind_var_of_ne env' hyn.symm, Env.bind_var_of_ne env (Ne.symm hyv)]
        exact h.1
      · by_cases hxy : x = y
        · simp [Env.bind, hxy]
        · rw [Env.bind_var_of_ne env hxy, Env.bind_var_of_ne env' hxy]
          exact h.2 x hx hn
  | const c => simpa [Tuple.subst, Env.bind] using h
  | attr b a =>
    rw [Env.bind_of_not_isVar env' (Tuple.isVar_subst_var (.attr b a) v n)]
    exact h
  | call f args => simpa [Tuple.subst, Env.bind] using h

mutual

/-- Replacing a variable means to evaluate with the row of the image for it. -/
theorem Tuple.value_subst (m : Model D) (env : Env D) (g : String) (image : Tuple) : (t : Tuple) →
    (t.subst (.var g) image).value m env = t.value m (env.bind (.var g) (image.value m env))
  | .var x => by
    by_cases hxg : x = g
    · simp [Tuple.subst, Tuple.value, Env.bind, hxg]
    · simp [Tuple.subst, Tuple.value, Env.bind, hxg]
  | .const c => by simp [Tuple.subst, Tuple.value]
  | .attr base a => by
    simp only [Tuple.subst, reduceCtorEq, if_false]
    rw [Tuple.value_project, Tuple.value_subst m env g image base, Tuple.value]
  | .call f args => by
    simp only [Tuple.subst, reduceCtorEq, if_false, Tuple.value]
    rw [Tuple.values_substAll m env g image args]

theorem Tuple.values_substAll (m : Model D) (env : Env D) (g : String) (image : Tuple) :
    (ts : List Tuple) → Tuple.values m env (Tuple.substAll ts (.var g) image)
      = Tuple.values m (env.bind (.var g) (image.value m env)) ts
  | [] => rfl
  | t :: ts => by
    rw [Tuple.substAll, Tuple.values, Tuple.values, Tuple.value_subst m env g image t,
      Tuple.values_substAll m env g image ts]

end

/-- Giving the row of the new name back to the variable undoes a renaming, the new name apart. -/
theorem Env.Renamed.bind_back (h : Env.Renamed v n env env')
    (hx : x ≠ n) : env'.bind (.var v) (env' n) x = env x := by
  by_cases hxv : x = v
  · simpa [Env.bind, hxv] using h.1
  · rw [Env.bind_var_of_ne env' hxv]
    exact h.2 x hxv hx

theorem Tuple.value_subst_var (m : Model D)
    (henv : Env.Renamed v n env env') (t : Tuple) (h : t.uses (.var n) = false) :
    (t.subst (.var v) (.var n)).value m env' = t.value m env := by
  rw [Tuple.value_subst]
  refine Tuple.value_congr m t fun x hx => henv.bind_back ?_
  rintro rfl
  simp [h] at hx

theorem Tuple.values_substAll_var (m : Model D)
    (henv : Env.Renamed v n env env') (ts : List Tuple) (h : Tuple.anyUses ts (.var n) = false) :
    Tuple.values m env' (Tuple.substAll ts (.var v) (.var n)) = Tuple.values m env ts := by
  rw [Tuple.values_substAll]
  refine Tuple.values_congr m ts fun x hx => henv.bind_back ?_
  rintro rfl
  simp [h] at hx

/-- Summations over corresponding binders have the same value if their summands correspond. -/
theorem Env.Renamed.sumBinders_eq [Fintype D] {f g : Env D → Nat}
    (hfg : ∀ env env', Env.Renamed v n env env' → g env' = f env) :
    ∀ (vs : List Tuple), .var n ∉ vs → ∀ {env env' : Env D}, Env.Renamed v n env env' →
      Env.sumBinders (Tuple.substAll vs (.var v) (.var n)) g env' = Env.sumBinders vs f env
  | [], _, _, _, henv => hfg _ _ henv
  | w :: ws, hn, env, env', henv => by
    obtain ⟨hw, hws⟩ : w ≠ .var n ∧ .var n ∉ ws := by
      rw [List.mem_cons, not_or] at hn
      exact ⟨Ne.symm hn.1, hn.2⟩
    rw [Tuple.substAll, Env.sumBinders, Env.sumBinders]
    exact Finset.sum_congr rfl fun d _ =>
      Env.Renamed.sumBinders_eq hfg ws hws (henv.bind hw d)

/-- Writing an unused name for a variable, binders included, keeps the value once the environment
is changed alike. -/
theorem Term.value_subst_var [Fintype D] [DecidableEq D] (m : Model D) {t : Term}
    (h : t.uses (.var n) = false) (henv : Env.Renamed v n env env') :
    (t.subst (.var v) (.var n)).value m env' = t.value m env := by
  induction t generalizing env env' with
  | table name row =>
    simp only [Term.subst, Term.value]
    rw [Tuple.value_subst_var m henv row h]
  | pred name args =>
    simp only [Term.subst, Term.value]
    rw [Tuple.values_substAll_var m henv args h]
  | eq l r =>
    obtain ⟨hl, hr⟩ := Bool.or_eq_false_iff.mp h
    simp only [Term.subst, Term.value]
    rw [Tuple.value_subst_var m henv l hl, Tuple.value_subst_var m henv r hr]
  | add l r ihl ihr | mul l r ihl ihr =>
    obtain ⟨hl, hr⟩ := Bool.or_eq_false_iff.mp h
    simp only [Term.subst, Term.value]
    rw [ihl hl henv, ihr hr henv]
  | not t ih | squash t ih =>
    simp only [Term.subst, Term.value]
    rw [ih h henv]
  | sum vars body ih =>
    obtain ⟨hvars, hbody⟩ : .var n ∉ vars ∧ body.uses (.var n) = false := by
      simpa [Term.uses] using h
    exact Env.Renamed.sumBinders_eq (fun _ _ henv => ih hbody henv) vars hvars henv

/-- A binder may get an unused name. Induction on the binders between it and the body: binders of
other names commute with it, and one of the same name leaves a sum over a binder without influence
on either side, the outer one on the left and the inner one on the right. -/
theorem Env.sumBinders_rename [Fintype D] [DecidableEq D] (m : Model D) (hvn : v ≠ n)
    {body : Term} (hbody : body.uses (.var n) = false) (vs : List Tuple) (hvs : .var n ∉ vs)
    (env : Env D) :
    ∑ d, sumBinders vs ((body.subst (.var v) (.var n)).value m) (env.bind (.var n) d)
      = ∑ d, sumBinders vs (body.value m) (env.bind (.var v) d) := by
  induction vs generalizing env with
  | nil =>
    exact Finset.sum_congr rfl fun d _ =>
      Term.value_subst_var m hbody (Env.renamed_update v n env d)
  | cons w ws ih =>
    obtain ⟨hw, hws⟩ : .var n ≠ w ∧ .var n ∉ ws := by
      simpa [List.mem_cons, not_or] using hvs
    simp only [sumBinders]
    by_cases hvw : .var v = w
    · subst hvw
      -- An inner binder of the same name hides the outer one.
      have hleft : ∀ d e, sumBinders ws ((body.subst (.var v) (.var n)).value m)
          ((env.bind (.var n) d).bind (.var v) e)
            = sumBinders ws ((body.subst (.var v) (.var n)).value m) (env.bind (.var n) d) :=
        fun d e => sumBinders_bind ws
          (Term.value_bind_of_not_uses m (Term.not_uses_subst_var hvn body)) _ e
      simp only [hleft, bind_bind]
      rw [Finset.sum_comm]
      exact Finset.sum_congr rfl fun _ _ => ih hws env
    · calc ∑ d, ∑ e, sumBinders ws ((body.subst (.var v) (.var n)).value m)
            ((env.bind (.var n) d).bind w e)
          = ∑ e, ∑ d, sumBinders ws ((body.subst (.var v) (.var n)).value m)
              ((env.bind w e).bind (.var n) d) := by
            rw [Finset.sum_comm]
            simp only [bind_comm env hw]
        _ = ∑ e, ∑ d, sumBinders ws (body.value m) ((env.bind w e).bind (.var v) d) :=
            Finset.sum_congr rfl fun e _ => ih hws (env.bind w e)
        _ = ∑ d, ∑ e, sumBinders ws (body.value m) ((env.bind (.var v) d).bind w e) := by
            rw [Finset.sum_comm]
            simp only [bind_comm env hvw]

end QueryRules
