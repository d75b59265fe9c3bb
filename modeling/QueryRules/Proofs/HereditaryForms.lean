import QueryRules.Proofs.CanonicalNames
import QueryRules.Proofs.Gathering
import QueryRules.Proofs.LawSoundness

/-!
# QueryRules — properties of all parts of a normal form

Some properties of a term speak of its binder lists, or of its variables, one by one
(`Term.Hereditary`). A conjunction inherits them from the term that it is read from
(`Term.Hereditary.spread`) and hands them on to the term that it is written as
(`Term.Hereditary.toTerm`).
-/

namespace QueryRules

open List

/-! ## Nested conjunctions -/

/-- The disjunction is the squash or the negation of the conjunction. -/
def Conj.Nests (c : Conj) (d : Disj) : Prop :=
  c.squash = some d ∨ c.negation = some d

/-- A conjunction may be looked at after all that are nested in it. -/
theorem Conj.nested_induction {motive : Conj → Prop}
    (h : ∀ c, (∀ d, c.Nests d → ∀ e ∈ d, motive e) → motive c) (c : Conj) : motive c := by
  induction hdepth : c.depth using Nat.strong_induction_on generalizing c with
  | _ depth ih =>
    refine h c fun d hd e he => ih e.depth ?_ e rfl
    rw [← hdepth]
    exact Conj.depth_lt hd he

/-- A conjunction has the property `C` exactly if its binders have the property `B` and the
conjunctions nested in it have `C`. -/
def Conj.Hereditary (C : Conj → Prop) (B : List Tuple → Prop) : Prop :=
  ∀ c, C c ↔ B c.vars ∧ ∀ d, c.Nests d → ∀ e ∈ d, C e

theorem Conj.hereditary_baseBinders :
    Conj.Hereditary Conj.BaseBinders fun vars => ∀ v ∈ vars, ∃ x, v = .var x := by
  rintro ⟨vars, tables, preds, squash, negation⟩
  have hoption : ∀ o : Option Disj, Disj.BaseBindersOption o ↔
      ∀ d, o = some d → ∀ e ∈ d, e.BaseBinders := by
    intro o
    cases o with
    | none => simp [Disj.BaseBindersOption]
    | some d => simp [Disj.BaseBindersOption, Disj.baseBinders_iff]
  rw [Conj.BaseBinders, hoption, hoption]
  refine and_congr_right fun _ => ⟨fun h d hd => ?_, fun h => ⟨fun d hd => ?_, fun d hd => ?_⟩⟩
  · exact hd.elim (h.1 d) (h.2 d)
  · exact h d (.inl hd)
  · exact h d (.inr hd)

/-! ## Reading -/

namespace Gathered

variable {C : Conj → Prop} {B : List Tuple → Prop} {g g' : Gathered}

/-- The conjunctions inside of the factors have a property. -/
def All (C : Conj → Prop) (g : Gathered) : Prop :=
  (∀ d ∈ g.squashes, ∀ c ∈ d, C c) ∧ ∀ c ∈ g.negated, C c

theorem all_atoms (C : Conj → Prop) (tables : List TableAtom) (preds : List PredAtom) :
    All C ⟨tables, preds, [], []⟩ :=
  ⟨fun _ hd => absurd hd not_mem_nil, fun _ hc => absurd hc not_mem_nil⟩

theorem All.append (h : g.All C) (h' : g'.All C) : (g.append g').All C :=
  ⟨fun d hd => (mem_append.mp hd).elim (h.1 d) (h'.1 d),
    fun c hc => (mem_append.mp hc).elim (h.2 c) (h'.2 c)⟩

theorem All.toConj (hC : Conj.Hereditary C B) (h : g.All C) {vars : List Tuple} (hvars : B vars) :
    C (g.toConj vars) := by
  refine (hC _).mpr ⟨hvars, fun d hd e he => ?_⟩
  rcases hd with hd | hd
  · exact h.1 d (mem_of_mem_head? hd) e he
  · dsimp only [Gathered.toConj] at hd
    split at hd
    · cases hd
    · cases hd
      exact h.2 e he

end Gathered

namespace Term

variable {P : Term → Prop} {B : List Tuple → Prop} {C : Conj → Prop}

/-- What holds of all parts of a term holds of all parts of the conjunctions that it says. -/
theorem Hereditary.spread (hP : Hereditary P B) (hC : Conj.Hereditary C B) (hnil : B []) {t : Term}
    (h : P t) : (∀ c ∈ t.spread, C c) ∧ t.gather.All C := by
  -- A product says a single conjunction without binders.
  have hproduct : ∀ {t : Term}, t.IsProduct → t.gather.All C →
      (∀ c ∈ t.spread, C c) ∧ t.gather.All C := by
    intro t hp hg
    rw [spread_of_isProduct hp]
    refine ⟨fun c hc => ?_, hg⟩
    rw [mem_singleton.mp hc]
    exact hg.toConj hC hnil
  induction t with
  | table n row | pred n args | eq l r =>
    refine hproduct (isProduct_of_isAtom rfl) ?_
    rw [gather]
    exact Gathered.all_atoms C _ _
  | mul l r ihl ihr =>
    obtain ⟨hl, hr⟩ := hP.mul.mp h
    refine hproduct (isProduct_mul l r) ?_
    rw [gather]
    exact (ihl hl).2.append (ihr hr).2
  | not t ih =>
    refine hproduct (isProduct_not t) ?_
    rw [gather]
    exact ⟨fun d hd => absurd hd not_mem_nil, (ih (hP.not.mp h)).1⟩
  | squash t ih =>
    refine hproduct (isProduct_squash t) ?_
    rw [gather]
    refine ⟨fun d hd => ?_, fun c hc => absurd hc not_mem_nil⟩
    rw [mem_singleton.mp hd]
    exact (ih (hP.squash.mp h)).1
  | add l r ihl ihr =>
    obtain ⟨hl, hr⟩ := hP.add.mp h
    rw [Term.spread, gather]
    refine ⟨fun c hc => ?_, Gathered.all_atoms C _ _⟩
    exact (mem_append.mp hc).elim ((ihl hl).1 c) ((ihr hr).1 c)
  | sum vars body ih =>
    obtain ⟨hvars, hbody⟩ := hP.sum.mp h
    rw [Term.spread, gather]
    refine ⟨fun c hc => ?_, Gathered.all_atoms C _ _⟩
    rw [mem_singleton.mp hc]
    exact (ih hbody).2.toConj hC hvars

theorem hereditary_baseBinders :
    Hereditary (fun t => t.baseBinders = true) fun vars => ∀ v ∈ vars, ∃ x, v = .var x := by
  refine ⟨Bool.and_eq_true_iff, Bool.and_eq_true_iff, Iff.rfl, Iff.rfl, ?_⟩
  intro vars body
  refine Bool.and_eq_true_iff.trans (and_congr_left fun _ => all_eq_true.trans ?_)
  refine forall₂_congr fun v _ => ⟨Tuple.exists_eq_var, ?_⟩
  rintro ⟨x, rfl⟩
  rfl

/-- The binders of what a term says are row variables, if those of the term are. -/
theorem baseBinders_spread {t : Term} (h : t.baseBinders = true) : Disj.BaseBinders t.spread := by
  have hspread := hereditary_baseBinders.spread Conj.hereditary_baseBinders
    (fun v hv => absurd hv not_mem_nil) h
  exact Disj.baseBinders_iff.mpr hspread.1

/-! ## Writing -/

/-- A conjunction whose atoms, binders and nested conjunctions have a property is written as a term
that has it. -/
theorem Hereditary.toTerm (hP : Hereditary P B) (hunit : P .unit) (hvars : ∀ c, C c → B c.vars)
    (hatoms : ∀ c, C c → (∀ a ∈ c.tables, P a.toTerm) ∧ ∀ p ∈ c.preds, P p.toTerm)
    (hnested : ∀ c, C c → ∀ d, c.Nests d → ∀ e ∈ d, C e) (c : Conj) (hc : C c) : P c.toTerm := by
  induction c using Conj.nested_induction with
  | _ c ih =>
    obtain ⟨vars, tables, preds, squash, negation⟩ := c
    -- What is nested is a sum, and a sum of nothing is `not(1)`.
    have hbelow : ∀ d, Conj.Nests ⟨vars, tables, preds, squash, negation⟩ d → P d.toTerm := by
      intro d hd
      unfold Disj.toTerm
      rw [Disj.toTerms_eq_map]
      cases htotal : Term.total? (d.map Conj.toTerm) with
      | none => exact hP.not.mpr hunit
      | some t =>
        refine Term.total?_keeps (fun hl hr => hP.add.mpr ⟨hl, hr⟩) htotal fun u hu => ?_
        obtain ⟨e, he, rfl⟩ := mem_map.mp hu
        exact ih d hd e he (hnested _ hc d hd e he)
    rw [Conj.toTerm]
    refine hP.sumOver (hvars _ hc) ?_
    unfold Term.product
    cases hproduct : Term.product? (tables.map TableAtom.toTerm ++ preds.map PredAtom.toTerm
        ++ (Disj.toTerm? squash).toList.map .squash ++ (Disj.toTerm? negation).toList.map .not) with
    | none => exact hunit
    | some t =>
      refine Term.product?_keeps (fun hl hr => hP.mul.mpr ⟨hl, hr⟩) hproduct fun u hu => ?_
      rw [Disj.toTerm?_toList, Disj.toTerm?_toList] at hu
      simp only [mem_append, mem_map, Option.mem_toList] at hu
      rcases hu with ((⟨a, ha, rfl⟩ | ⟨p, hp, rfl⟩) | ⟨_, ⟨d, hd, rfl⟩, rfl⟩) |
        ⟨_, ⟨d, hd, rfl⟩, rfl⟩
      · exact (hatoms _ hc).1 a ha
      · exact (hatoms _ hc).2 p hp
      · exact hP.squash.mpr (hbelow d (.inl hd))
      · exact hP.not.mpr (hbelow d (.inr hd))

theorem hereditary_plainNames :
    Hereditary (fun t => PlainNames t.uses) fun vars => ∀ x, .var x ∈ vars → IsPlain x := by
  have hor : ∀ {f g : Tuple → Bool}, PlainNames (fun v => f v || g v) ↔
      PlainNames f ∧ PlainNames g := by
    intro f g
    simp only [PlainNames, Bool.or_eq_true, or_imp, forall_and]
  refine ⟨hor, hor, Iff.rfl, Iff.rfl, ?_⟩
  intro vars body
  refine Iff.trans hor (and_congr_left fun _ => ?_)
  simp only [PlainNames, decide_eq_true_eq]

end Term

namespace Conj

theorem baseBinders_toTerm {c : Conj} (h : c.BaseBinders) : c.toTerm.baseBinders = true := by
  refine Term.hereditary_baseBinders.toTerm rfl (fun c hc => ((hereditary_baseBinders c).mp hc).1)
    (fun c _ => ⟨fun a _ => rfl, fun p _ => ?_⟩)
    (fun c hc => ((hereditary_baseBinders c).mp hc).2) c h
  cases p with
  | pred n args | eq l r => rfl

/-- The term of a form has no other names than the form. -/
theorem plainNames_toTerm {c : Conj} (h : PlainNames c.uses) : PlainNames c.toTerm.uses := by
  refine Term.hereditary_plainNames.toTerm (C := fun c => PlainNames c.uses)
    (fun x hx => by cases hx) (fun c hc x hx => hc x (Conj.uses_iff.mpr (.inl hx))) (fun c hc => ?_)
    (fun c hc d hd e he x hx => hc x ?_) c h
  · have htuple : ∀ t ∈ c.tuples, ∀ x, t.uses (.var x) = true → IsPlain x := fun t ht x hx =>
      hc x (Conj.uses_iff.mpr (.inr (.inl ⟨t, ht, hx⟩)))
    refine ⟨fun a ha => htuple a.row (mem_append_left _ (mem_map_of_mem ha)), ?_⟩
    intro p hp x hx
    have hused : p.uses (.var x) = true := by
      cases p with
      | pred n args | eq l r => exact hx
    obtain ⟨t, ht, hx⟩ := PredAtom.uses_iff.mp hused
    exact htuple t (mem_append_right _ (mem_flatMap.mpr ⟨p, hp, ht⟩)) x hx
  · have hbelow : Disj.uses d (.var x) = true := Disj.uses_iff.mpr ⟨e, he, hx⟩
    refine Conj.uses_iff.mpr (.inr (.inr ?_))
    rcases hd with hd | hd
    · rw [hd]
      exact .inl hbelow
    · rw [hd]
      exact .inr hbelow

end Conj

end QueryRules
