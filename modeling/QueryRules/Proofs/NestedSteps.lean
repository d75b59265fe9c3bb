import Mathlib.Data.List.Forall2
import QueryRules.Proofs.ScopedForms

/-!
# QueryRules — steps at every level

`Conj.descend` applies a step to a conjunction and then to what is nested in the result. One level
of this is a step followed by a replacement of the nested conjunctions (`Conj.descend_inv`), and a
replacement of nested conjunctions by others (`Conj.Reworked`) keeps the scope and the value if the
others do.
-/

namespace QueryRules

open List

namespace Conj

variable {R : Conj → Conj → Prop} {c c' e e' : Conj} {d d' : Disj}

/-- A member of the second of two lists of related conjunctions is related to a member of the
first. -/
theorem exists_of_forall₂ (h : List.Forall₂ R d d') (he : e' ∈ d') : ∃ e ∈ d, R e e' := by
  induction h with
  | nil => cases he
  | @cons a b as bs hab _ ih =>
    rcases mem_cons.mp he with rfl | he
    · exact ⟨a, mem_cons_self, hab⟩
    · obtain ⟨e, hmem, hR⟩ := ih he
      exact ⟨e, mem_cons_of_mem _ hmem, hR⟩

theorem value_of_forall₂ {D : Type*} [Fintype D] [DecidableEq D] {m : Model D} {env : Env D}
    (h : List.Forall₂ R d d')
    (hR : ∀ e ∈ d, ∀ e', R e e' → e'.toTerm.value m env = e.toTerm.value m env) :
    d'.toTerm.value m env = d.toTerm.value m env := by
  rw [Disj.value_toTerm, Disj.value_toTerm]
  induction h with
  | nil => rfl
  | @cons a b as bs hab _ ih =>
    rw [map_cons, map_cons, sum_cons, sum_cons,
      hR a mem_cons_self b hab, ih fun e he => hR e (mem_cons_of_mem _ he)]

/-- The conjunction with every nested conjunction replaced by a related one. -/
structure Reworked (R : Conj → Conj → Prop) (c c' : Conj) : Prop where
  vars : c'.vars = c.vars
  tables : c'.tables = c.tables
  preds : c'.preds = c.preds
  squash : Option.Rel (List.Forall₂ R) c.squash c'.squash
  negation : Option.Rel (List.Forall₂ R) c.negation c'.negation

namespace Reworked

theorem tuples (h : Reworked R c c') : c'.tuples = c.tuples := by
  unfold Conj.tuples
  rw [h.tables, h.preds]

/-- A nested conjunction after the replacement comes from one before it. -/
theorem exists_source (h : Reworked R c c') (hd : c'.Nests d') (he : e' ∈ d') :
    ∃ d, c.Nests d ∧ ∃ e ∈ d, R e e' := by
  have hoption : ∀ {o o' : Option Disj}, Option.Rel (List.Forall₂ R) o o' → o' = some d' →
      ∃ d, o = some d ∧ ∃ e ∈ d, R e e' := by
    intro o o' hrel ho'
    cases hrel with
    | none => cases ho'
    | some hrel =>
      cases ho'
      exact ⟨_, rfl, exists_of_forall₂ hrel he⟩
  rcases hd with hd | hd
  · obtain ⟨d, hd, hin⟩ := hoption h.squash hd
    exact ⟨d, .inl hd, hin⟩
  · obtain ⟨d, hd, hin⟩ := hoption h.negation hd
    exact ⟨d, .inr hd, hin⟩

/-- A nested conjunction before the replacement has become one after it. -/
theorem exists_image (h : Reworked R c c') (hd : c.Nests d) (he : e ∈ d) :
    ∃ d', c'.Nests d' ∧ ∃ e' ∈ d', R e e' := by
  have hflip : ∀ {o o' : Option Disj}, Option.Rel (List.Forall₂ R) o o' →
      Option.Rel (List.Forall₂ fun e' e => R e e') o' o := by
    intro o o' hrel
    cases hrel with
    | none => exact .none
    | some hrel => exact .some hrel.flip
  have hback : Reworked (fun e' e => R e e') c' c :=
    ⟨h.vars.symm, h.tables.symm, h.preds.symm, hflip h.squash, hflip h.negation⟩
  exact hback.exists_source hd he

/-- If all below stays in scope, so does the whole. -/
theorem keeps_scope {scope : String → Prop} (h : Reworked R c c') (hc : Scoped scope c)
    (hbelow : ∀ d, c.Nests d → ∀ e ∈ d, ∀ e', R e e' →
      Scoped (fun x => scope x ∨ .var x ∈ c.vars) e') : Scoped scope c' := by
  have hnested : ∀ d', c'.Nests d' → ∀ e' ∈ d',
      Scoped (fun x => scope x ∨ .var x ∈ c.vars) e' := by
    intro d' hd' e' he'
    obtain ⟨d, hd, e, he, hR⟩ := h.exists_source hd' he'
    exact hbelow d hd e he e' hR
  refine .intro (h.vars ▸ hc.binders) (fun x hx => ?_) fun d' hd' e' he' => ?_
  · rw [h.vars]
    rcases inside_iff.mp hx with ⟨t, ht, hu⟩ | ⟨d', hd', e', he', hfree⟩
    · exact hc.inside (.inl ⟨t, h.tuples ▸ ht, hu⟩)
    · exact (hnested d' hd' e' he').scope_of_free hfree
  · rw [h.vars]
    exact hnested d' hd' e' he'

/-- If all below keeps its value, so does the whole. -/
theorem keeps_value {D : Type*} [Fintype D] [DecidableEq D] {m : Model D} (h : Reworked R c c')
    (hbelow : ∀ d, c.Nests d → ∀ e ∈ d, ∀ e', R e e' →
      ∀ env, e'.toTerm.value m env = e.toTerm.value m env) (env : Env D) :
    c'.toTerm.value m env = c.toTerm.value m env := by
  have hoption : ∀ {o o' : Option Disj} (env : Env D), Option.Rel (List.Forall₂ R) o o' →
      (∀ d, o = some d → c.Nests d) → o'.map (fun d => Term.value m (Disj.toTerm d) env)
        = o.map fun d => Term.value m (Disj.toTerm d) env := by
    intro o o' env hrel ho
    cases hrel with
    | none => rfl
    | some hrel =>
      refine congrArg some (value_of_forall₂ hrel fun e he e' hR => ?_)
      exact hbelow _ (ho _ rfl) e he e' hR env
  have hbody : c'.bodyValue m = c.bodyValue m := by
    funext env
    exact bodyValue_congr (by rw [h.tables]) (by rw [h.preds])
      (hoption env h.squash fun d hd => .inl hd) (hoption env h.negation fun d hd => .inr hd)
  rw [Conj.value_toTerm, Conj.value_toTerm, h.vars, hbody]

end Reworked

/-! ## Descending -/

section Descending

variable {ε : Type} {step : Conj → Except ε Conj} {levels : Nat}

theorem forall₂_of_mapM {f : Conj → Except ε Conj} (h : d.mapM f = .ok d')
    (hR : ∀ e ∈ d, ∀ e', f e = .ok e' → R e e') : List.Forall₂ R d d' := by
  induction d generalizing d' with
  | nil =>
    cases h
    exact .nil
  | cons e es ih =>
    rw [mapM_cons] at h
    cases he : f e with
    | error err =>
      rw [he] at h
      cases h
    | ok e' =>
      cases hrest : es.mapM f with
      | error err =>
        rw [he, hrest] at h
        cases h
      | ok es' =>
        rw [he, hrest] at h
        cases h
        refine .cons (hR e mem_cons_self e' he) (ih hrest fun a ha => ?_)
        exact hR a (mem_cons_of_mem _ ha)

theorem rel_of_mapM {o o' : Option Disj} {f : Conj → Except ε Conj}
    (h : o.mapM (List.mapM f) = .ok o')
    (hR : ∀ d, o = some d → ∀ e ∈ d, ∀ e', f e = .ok e' → R e e') :
    Option.Rel (List.Forall₂ R) o o' := by
  cases o with
  | none =>
    cases h
    exact .none
  | some d =>
    change (some <$> d.mapM f) = .ok o' at h
    cases hd : d.mapM f with
    | error err =>
      rw [hd] at h
      cases h
    | ok d' =>
      rw [hd] at h
      cases h
      exact .some (forall₂_of_mapM hd (hR d rfl))

/-- **One level of a descent.** The step is applied to the conjunction, and the nested conjunctions
of the result are worked through with fewer levels, which are enough for them if the step does not
nest deeper. -/
theorem descend_inv (h : c.descend step levels = .ok c')
    (hstep : ∀ c₁, step c = .ok c₁ → c₁.depth ≤ levels) :
    ∃ c₁, step c = .ok c₁ ∧ Reworked (fun e e' => ∃ fewer < levels, e.depth ≤ fewer ∧
      e.descend step fewer = .ok e') c₁ c' := by
  cases levels with
  | zero =>
    -- Nothing is nested.
    have hdepth := hstep c' h
    rw [depth_eq, Nat.max_le] at hdepth
    have hnone : ∀ {o : Option Disj}, Disj.depthOption o ≤ 0 → o = none := by
      intro o ho
      cases o with
      | none => rfl
      | some d => exact absurd ho (Nat.not_succ_le_zero _)
    refine ⟨c', h, rfl, rfl, rfl, ?_, ?_⟩
    · rw [hnone hdepth.1]
      exact .none
    · rw [hnone hdepth.2]
      exact .none
  | succ levels =>
    cases hc₁ : step c with
    | error err =>
      rw [Conj.descend, hc₁] at h
      cases h
    | ok c₁ =>
      have hdepth := hstep c₁ hc₁
      have hR : ∀ d, c₁.Nests d → ∀ e ∈ d, ∀ e', e.descend step levels = .ok e' →
          ∃ fewer < levels + 1, e.depth ≤ fewer ∧ e.descend step fewer = .ok e' := by
        intro d hd e he e' he'
        have hlt := depth_lt hd he
        exact ⟨levels, by omega, by omega, he'⟩
      have hunfold : c.descend step (levels + 1)
          = (c₁.squash.mapM (List.mapM (Conj.descend step levels))).bind fun squash =>
            (c₁.negation.mapM (List.mapM (Conj.descend step levels))).bind fun negation =>
              .ok { c₁ with squash, negation } := by
        rw [Conj.descend, hc₁]
        rfl
      rw [hunfold] at h
      cases hsquash : c₁.squash.mapM (List.mapM (Conj.descend step levels)) with
      | error err =>
        rw [hsquash] at h
        cases h
      | ok squash =>
        cases hnegation : c₁.negation.mapM (List.mapM (Conj.descend step levels)) with
        | error err =>
          rw [hsquash, hnegation] at h
          cases h
        | ok negation =>
          rw [hsquash, hnegation] at h
          cases h
          exact ⟨c₁, rfl, rfl, rfl, rfl, rel_of_mapM hsquash fun d hd => hR d (.inl hd),
            rel_of_mapM hnegation fun d hd => hR d (.inr hd)⟩

/-- Steps that cannot fail, one conjunction after the other. -/
theorem mapM_pure {f : Conj → Except ε Conj} {f' : Conj → Id Conj}
    (h : ∀ e, f e = .ok (Id.run (f' e))) (d : Disj) : d.mapM f = .ok (Id.run (d.mapM f')) := by
  induction d with
  | nil => rfl
  | cons e es ih =>
    rw [mapM_cons, mapM_cons, h e, ih]
    rfl

/-- A descent of a step that cannot fail does not fail. -/
theorem descend_pure (f : Conj → Conj) (levels : Nat) (c : Conj) :
    c.descend (fun c => (.ok (f c) : Except ε Conj)) levels
      = .ok (Id.run (c.descend (fun c => pure (f c)) levels)) := by
  induction levels generalizing c with
  | zero => rfl
  | succ levels ih =>
    have hoption : ∀ o : Option Disj,
        o.mapM (List.mapM (Conj.descend (fun c => (.ok (f c) : Except ε Conj)) levels))
          = .ok (Id.run (o.mapM (List.mapM (Conj.descend (fun c => pure (f c)) levels)))) := by
      intro o
      cases o with
      | none => rfl
      | some d =>
        show some <$> d.mapM _ = _
        rw [mapM_pure ih d]
        rfl
    rw [Conj.descend, Conj.descend]
    show (Except.bind ((f c).squash.mapM _) fun squash =>
      Except.bind ((f c).negation.mapM _) fun negation => .ok { f c with squash, negation }) = _
    rw [hoption, hoption]
    rfl

end Descending

end Conj

end QueryRules
