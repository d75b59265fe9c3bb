import QueryRules.Proofs.FreeVariables

/-!
# QueryRules — variables that naming captures

Normalization names bound variables in two rounds, first by tags `#1, #2, …` and then by canonical
names. The second round skips the names of free variables, the first one does not. A free variable
that has the name of a tag is therefore captured where it occurs below the binder that gets this
tag, and becomes bound.

This is all that can happen to a free variable: nothing becomes free, a variable that has an
occurrence outside of the scope of its tag stays free, and other names than tags are safe
(`Term.freeVars_of_normalize`).
-/

namespace QueryRules

open List

/-! ## Names after several replacements -/

namespace Labels

variable {names : Nat → String} {σ : Labels} {k : Nat} {vars : List Tuple} {x y : String}

/-- The name that a variable has after the replacements were made one after the other. -/
def after (σ : Labels) (x : String) : String :=
  σ.foldl (fun y p => if Tuple.var y = p.1 then p.2 else y) x

theorem after_cons (p : Tuple × String) (σ : Labels) (x : String) :
    after (p :: σ) x = σ.after (if .var x = p.1 then p.2 else x) :=
  rfl

theorem after_append (σ τ : Labels) (x : String) : after (σ ++ τ) x = τ.after (σ.after x) :=
  foldl_append

theorem after_of_not_mem (h : .var x ∉ σ.map Prod.fst) : σ.after x = x := by
  induction σ with
  | nil => rfl
  | cons p σ ih =>
    rw [map_cons, mem_cons, not_or] at h
    rw [after_cons, if_neg h.1, ih h.2]

/-- A variable keeps its name or ends with one of the new names. -/
theorem after_eq_or_mem (σ : Labels) (x : String) :
    σ.after x = x ∨ σ.after x ∈ σ.map Prod.snd := by
  induction σ generalizing x with
  | nil => exact .inl rfl
  | cons p σ ih =>
    rw [after_cons, map_cons, mem_cons]
    split
    · exact .inr (ih p.2)
    · exact (ih x).imp_right .inr

/-- Replacements of variables only. -/
def OnVars (σ : Labels) : Prop :=
  ∀ p ∈ σ, ∃ x, p.1 = .var x

theorem substTuple_var (σ : Labels) (x : String) : σ.substTuple (.var x) = .var (σ.after x) := by
  induction σ generalizing x with
  | nil => rfl
  | cons p σ ih =>
    show substTuple σ ((Tuple.var x).subst p.1 (.var p.2)) = _
    rw [after_cons, Tuple.subst]
    split
    · exact ih p.2
    · exact ih x

/-- What occurs in a tuple after a renaming. -/
theorem uses_substTuple (hσ : σ.OnVars) {t : Tuple} : (σ.substTuple t).uses (.var y) = true ↔
    ∃ x, t.uses (.var x) = true ∧ σ.after x = y := by
  induction σ generalizing t with
  | nil => simp [substTuple, after]
  | cons p σ ih =>
    obtain ⟨a, n⟩ := p
    obtain ⟨v, rfl⟩ := hσ _ mem_cons_self
    show (substTuple σ (t.subst (.var v) (.var n))).uses (.var y) = true ↔ _
    rw [ih fun q hq => hσ q (mem_cons_of_mem _ hq), Tuple.subst_var_eq_rename]
    simp only [Tuple.uses_rename, after_cons, Tuple.var.injEq]
    constructor
    · rintro ⟨_, ⟨x, hx, rfl⟩, hy⟩
      exact ⟨x, hx, hy⟩
    · rintro ⟨x, hx, hy⟩
      exact ⟨_, ⟨x, hx, rfl⟩, hy⟩

/-! ### Binders -/

/-- Binders are named from the place on that they start at. -/
theorem exists_of_mem_ofBinders {n : String} (h : n ∈ (ofBinders names k vars).map Prod.snd) :
    ∃ j, k ≤ j ∧ j < k + vars.length ∧ n = names j := by
  induction vars generalizing k with
  | nil => cases h
  | cons v vs ih =>
    rw [length_cons]
    rcases mem_cons.mp h with rfl | h
    · exact ⟨k, by omega, by omega, rfl⟩
    · obtain ⟨j, hj, hlt, rfl⟩ := ih h
      exact ⟨j, by omega, by omega, rfl⟩

/-- A binder ends with one of the names, though not always with its own: a later binder may have
that name already. -/
theorem exists_after_ofBinders (names : Nat → String) (k : Nat) (h : .var x ∈ vars) :
    ∃ j, k ≤ j ∧ j < k + vars.length ∧ (ofBinders names k vars).after x = names j := by
  induction vars generalizing k with
  | nil => cases h
  | cons v vs ih =>
    rw [ofBinders, after_cons, length_cons]
    split
    · -- The name just given may be that of a binder to come, which is renamed in turn.
      rcases after_eq_or_mem (ofBinders names (k + 1) vs) (names k) with heq | hmem
      · exact ⟨k, by omega, by omega, heq⟩
      · obtain ⟨j, hj, hlt, heq⟩ := exists_of_mem_ofBinders hmem
        exact ⟨j, by omega, by omega, heq⟩
    · next hne =>
      obtain ⟨j, hj, hlt, heq⟩ := ih (k + 1) ((mem_cons.mp h).resolve_left hne)
      exact ⟨j, by omega, by omega, heq⟩

/-- If binders are listed once, each name that is none of them goes to a binder and stays there. -/
theorem exists_after_eq {j : Nat} (hbase : ∀ v ∈ vars, ∃ x, v = .var x) (hnodup : vars.Nodup)
    (hj : k ≤ j) (hlt : j < k + vars.length) (hnew : .var (names j) ∉ vars) :
    ∃ y, .var y ∈ vars ∧ (ofBinders names k vars).after y = names j := by
  induction vars generalizing k with
  | nil =>
    rw [length_nil] at hlt
    omega
  | cons v vs ih =>
    obtain ⟨a, rfl⟩ := hbase v mem_cons_self
    obtain ⟨ha, hvs⟩ := nodup_cons.mp hnodup
    have hnewTail : .var (names j) ∉ vs := fun hmem => hnew (mem_cons_of_mem _ hmem)
    rcases Nat.eq_or_lt_of_le hj with rfl | hlater
    · refine ⟨a, mem_cons_self, ?_⟩
      rw [ofBinders, after_cons, if_pos rfl]
      refine after_of_not_mem ?_
      rw [map_fst_ofBinders]
      exact hnewTail
    · rw [length_cons] at hlt
      obtain ⟨y, hy, heq⟩ := ih (k := k + 1) (fun w hw => hbase w (mem_cons_of_mem _ hw)) hvs
        (by omega) (by omega) hnewTail
      refine ⟨y, mem_cons_of_mem _ hy, ?_⟩
      have hne : Tuple.var y ≠ .var a := fun heq => ha (heq ▸ hy)
      rw [ofBinders, after_cons, if_neg hne, heq]

/-! ### Below binders -/

theorem OnVars.enter (hσ : σ.OnVars) (hvars : ∀ v ∈ vars, ∃ x, v = .var x) :
    (σ.enter names k vars).OnVars := by
  intro p hp
  rcases mem_append.mp hp with hp | hp
  · exact hσ p (mem_of_mem_filter hp)
  · have hmem := mem_map_of_mem (f := Prod.fst) hp
    rw [map_fst_ofBinders] at hmem
    exact hvars p.1 hmem

theorem mem_fst_enter {v : Tuple} (h : v ∈ (σ.enter names k vars).map Prod.fst) :
    v ∈ σ.map Prod.fst ∨ v ∈ vars := by
  rw [enter, map_append, mem_append, map_fst_ofBinders] at h
  refine h.imp_left fun h => ?_
  obtain ⟨p, hp, rfl⟩ := mem_map.mp h
  exact mem_map_of_mem (mem_of_mem_filter hp)

theorem mem_snd_enter {n : String} (h : n ∈ (σ.enter names k vars).map Prod.snd) :
    n ∈ σ.map Prod.snd ∨ ∃ j, k ≤ j ∧ j < k + vars.length ∧ n = names j := by
  rw [enter, map_append, mem_append] at h
  refine h.imp (fun h => ?_) exists_of_mem_ofBinders
  obtain ⟨p, hp, rfl⟩ := mem_map.mp h
  exact mem_map_of_mem (mem_of_mem_filter hp)

/-- Replacements from around a binder do not reach it. -/
theorem after_filter_of_mem (h : .var x ∈ vars) :
    after (σ.filter fun p => p.1 ∉ vars) x = x := by
  refine after_of_not_mem fun hmem => ?_
  obtain ⟨p, hp, hpx⟩ := mem_map.mp hmem
  exact of_decide_eq_true (mem_filter.mp hp).2 (hpx ▸ h)

/-- Leaving out replacements of the binders makes no difference to a variable that does not end as
one of them. -/
theorem after_filter (h : .var (after (σ.filter fun p => p.1 ∉ vars) y) ∉ vars) :
    after (σ.filter fun p => p.1 ∉ vars) y = σ.after y := by
  induction σ generalizing y with
  | nil => rfl
  | cons p σ ih =>
    by_cases hp : p.1 ∈ vars
    · rw [filter_cons_of_neg (by simpa using hp)] at h ⊢
      -- Otherwise `y` is a binder, stays one and ends as one.
      have hne : Tuple.var y ≠ p.1 := by
        intro heq
        rw [after_filter_of_mem (heq ▸ hp)] at h
        exact h (heq ▸ hp)
      rw [after_cons, if_neg hne, ih h]
    · rw [filter_cons_of_pos (by simpa using hp)] at h ⊢
      rw [after_cons] at h ⊢
      rw [ih h, after_cons]

theorem after_enter_of_mem (h : .var x ∈ vars) :
    (σ.enter names k vars).after x = (ofBinders names k vars).after x := by
  rw [enter, after_append, after_filter_of_mem h]

/-- A name below binders that is none of their new names was there before the binders got them. -/
theorem after_enter_inv (h : (σ.enter names k vars).after y = x)
    (hx : ∀ z, .var z ∈ vars → (σ.enter names k vars).after z ≠ x) :
    .var y ∉ vars ∧ σ.after y = x := by
  have hy : .var y ∉ vars := fun hmem => hx y hmem h
  rw [enter, after_append] at h
  -- What the variable is called when the binders are renamed is none of them.
  have hmid : .var (after (σ.filter fun p => p.1 ∉ vars) y) ∉ vars := by
    intro hmem
    refine hx _ hmem ?_
    rw [after_enter_of_mem hmem, h]
  refine ⟨hy, ?_⟩
  rw [after_of_not_mem (by rwa [map_fst_ofBinders]), after_filter hmid] at h
  exact h

end Labels

/-! ## Renaming in turn -/

section Renamed

variable {names : Nat → String}

mutual

theorem Conj.slots_renameInTurn (names : Nat → String) : (c : Conj) → ∀ (σ : Labels) (k : Nat),
    (c.renameInTurn names σ k).slots = c.slots
  | ⟨vars, tables, preds, squash, negation⟩, σ, k => by
    rw [Conj.renameInTurn, Conj.mapParts, Conj.slots, Conj.slots, length_map,
      Disj.slotsOption_renameInTurnOption names squash,
      Disj.slotsOption_renameInTurnOption names negation]

theorem Disj.slotsOption_renameInTurnOption (names : Nat → String) : (d : Option (List Conj)) →
    ∀ (σ : Labels) (k : Nat),
      Disj.slotsOption (Disj.renameInTurnOption names σ k d) = Disj.slotsOption d
  | none, _, _ => rfl
  | some d, σ, k => Disj.slots_renameInTurn names d σ k

theorem Disj.slots_renameInTurn (names : Nat → String) : (d : List Conj) →
    ∀ (σ : Labels) (k : Nat), Disj.slots (Disj.renameInTurn names σ k d) = Disj.slots d
  | [], _, _ => rfl
  | c :: cs, σ, k => by
    rw [Disj.renameInTurn, Disj.slots, Disj.slots, Conj.slots_renameInTurn names c,
      Disj.slots_renameInTurn names cs]

end

mutual

theorem Conj.baseBinders_renameInTurn (names : Nat → String) : (c : Conj) → c.BaseBinders →
    ∀ (σ : Labels) (k : Nat), (c.renameInTurn names σ k).BaseBinders
  | ⟨vars, tables, preds, squash, negation⟩, hbase, σ, k => by
    obtain ⟨hvars, hsquash, hnegation⟩ := hbase
    refine ⟨fun v hv => ?_, Disj.baseBinders_renameInTurnOption names squash hsquash _ _,
      Disj.baseBinders_renameInTurnOption names negation hnegation _ _⟩
    obtain ⟨w, hw, rfl⟩ := mem_map.mp hv
    obtain ⟨x, rfl⟩ := hvars w hw
    exact ⟨_, Labels.substTuple_var _ x⟩

theorem Disj.baseBinders_renameInTurnOption (names : Nat → String) : (d : Option (List Conj)) →
    Disj.BaseBindersOption d → ∀ (σ : Labels) (k : Nat),
      Disj.BaseBindersOption (Disj.renameInTurnOption names σ k d)
  | none, _, _, _ => trivial
  | some d, hbase, σ, k => Disj.baseBinders_renameInTurn names d hbase σ k

theorem Disj.baseBinders_renameInTurn (names : Nat → String) : (d : List Conj) →
    Disj.BaseBinders d → ∀ (σ : Labels) (k : Nat),
      Disj.BaseBinders (Disj.renameInTurn names σ k d)
  | [], _, _, _ => trivial
  | c :: cs, hbase, σ, k =>
    ⟨Conj.baseBinders_renameInTurn names c hbase.1 σ k,
      Disj.baseBinders_renameInTurn names cs hbase.2 σ _⟩

end

namespace Conj

variable {c : Conj} {σ : Labels} {k : Nat} {x : String}

/-- What is inside of a renamed conjunction. -/
theorem inside_renameInTurn (hσ : (σ.enter names k c.vars).OnVars) :
    (c.renameInTurn names σ k).Inside x ↔
      (∃ y, (∃ t ∈ c.tuples, t.uses (.var y) = true) ∧ (σ.enter names k c.vars).after y = x) ∨
      Disj.FreeOption x (Disj.renameInTurnOption names (σ.enter names k c.vars)
        (k + c.vars.length) c.squash) ∨
      Disj.FreeOption x (Disj.renameInTurnOption names (σ.enter names k c.vars)
        (k + c.vars.length + Disj.slotsOption c.squash) c.negation) := by
  rw [renameInTurn_eq]
  refine or_congr ?_ Iff.rfl
  rw [tuples_mapParts]
  simp only [mem_map, exists_exists_and_eq_and, Labels.uses_substTuple hσ]
  constructor
  · rintro ⟨t, ht, y, hy, hx⟩
    exact ⟨y, ⟨t, ht, hy⟩, hx⟩
  · rintro ⟨y, ⟨t, ht, hy⟩, hx⟩
    exact ⟨t, ht, y, hy, hx⟩

/-- A variable that is not bound after the renaming is none of the new names of the binders. -/
theorem after_ne_of_not_mem (h : .var x ∉ (c.renameInTurn names σ k).vars) :
    ∀ z, .var z ∈ c.vars → (σ.enter names k c.vars).after z ≠ x := by
  rintro z hz rfl
  refine h ?_
  rw [renameInTurn_eq]
  exact mem_map.mpr ⟨.var z, hz, Labels.substTuple_var _ z⟩

end Conj

mutual

/-- Nothing becomes free: what is free after the renaming was free before, up to the replacements
from around. -/
theorem Conj.exists_free_of_renameInTurn : (c : Conj) → c.BaseBinders →
    ∀ {σ : Labels} {k : Nat} {x : String}, σ.OnVars → (c.renameInTurn names σ k).Free x →
      ∃ y, c.Free y ∧ σ.after y = x
  | ⟨vars, tables, preds, squash, negation⟩, hbase, σ, k, x, hσ, h => by
    obtain ⟨hmem, hin⟩ := Conj.free_iff.mp h
    have hne := Conj.after_ne_of_not_mem hmem
    obtain ⟨hvars, hsquash, hnegation⟩ := hbase
    have hσ' : (σ.enter names k vars).OnVars := hσ.enter hvars
    -- An occurrence below the binders comes from one that was there before.
    obtain ⟨y, hy, hyx⟩ : ∃ y, Conj.Inside y ⟨vars, tables, preds, squash, negation⟩ ∧
        (σ.enter names k vars).after y = x := by
      rcases (Conj.inside_renameInTurn hσ').mp hin with ⟨y, hy, hyx⟩ | hfree | hfree
      · exact ⟨y, .inl hy, hyx⟩
      · obtain ⟨y, hy, hyx⟩ := Disj.exists_free_of_renameInTurnOption squash hsquash hσ' hfree
        exact ⟨y, .inr (.inl hy), hyx⟩
      · obtain ⟨y, hy, hyx⟩ := Disj.exists_free_of_renameInTurnOption negation hnegation hσ' hfree
        exact ⟨y, .inr (.inr hy), hyx⟩
    obtain ⟨hunbound, hafter⟩ := Labels.after_enter_inv hyx hne
    exact ⟨y, Conj.free_iff.mpr ⟨hunbound, hy⟩, hafter⟩

theorem Disj.exists_free_of_renameInTurnOption : (d : Option (List Conj)) →
    Disj.BaseBindersOption d → ∀ {σ : Labels} {k : Nat} {x : String}, σ.OnVars →
      Disj.FreeOption x (Disj.renameInTurnOption names σ k d) →
        ∃ y, Disj.FreeOption y d ∧ σ.after y = x
  | none, _, _, _, _, _, h => absurd h id
  | some d, hbase, _, _, _, hσ, h => Disj.exists_free_of_renameInTurn d hbase hσ h

/-- What is free afterwards comes from a free variable. -/
theorem Disj.exists_free_of_renameInTurn : (d : List Conj) → Disj.BaseBinders d →
    ∀ {σ : Labels} {k : Nat} {x : String}, σ.OnVars →
      Disj.Free x (Disj.renameInTurn names σ k d) → ∃ y, Disj.Free y d ∧ σ.after y = x
  | [], _, _, _, _, _, h => absurd h id
  | c :: cs, hbase, _, _, _, hσ, h => by
    rcases h with h | h
    · obtain ⟨y, hy, hyx⟩ := Conj.exists_free_of_renameInTurn c hbase.1 hσ h
      exact ⟨y, .inl hy, hyx⟩
    · obtain ⟨y, hy, hyx⟩ := Disj.exists_free_of_renameInTurn cs hbase.2 hσ h
      exact ⟨y, .inr hy, hyx⟩

end

/-! ## Exposed occurrences -/

mutual

/-- Whether a variable has a free occurrence in a conjunction outside of the scopes of binders that
get its name. The binders are numbered from `k` on. -/
def Conj.Exposed (names : Nat → String) (x : String) : (k : Nat) → Conj → Prop
  | k, ⟨vars, tables, preds, squash, negation⟩ =>
    .var x ∉ vars ∧ (∀ j, k ≤ j → j < k + vars.length → x ≠ names j) ∧
      ((∃ t ∈ Conj.tuples ⟨vars, tables, preds, squash, negation⟩, t.uses (.var x) = true) ∨
        Disj.ExposedOption names x (k + vars.length) squash ∨
        Disj.ExposedOption names x (k + vars.length + Disj.slotsOption squash) negation)

/-- Whether a variable is exposed in an optional disjunction. -/
def Disj.ExposedOption (names : Nat → String) (x : String) : (k : Nat) → Option (List Conj) → Prop
  | _, none => False
  | k, some d => Disj.Exposed names x k d

/-- Whether a variable is exposed in some conjunction of a disjunction. -/
def Disj.Exposed (names : Nat → String) (x : String) : (k : Nat) → List Conj → Prop
  | _, [] => False
  | k, c :: cs => c.Exposed names x k ∨ Disj.Exposed names x (k + c.slots) cs

end

mutual

/-- A free variable with none of the names that are given is exposed. -/
theorem Conj.exposed_of_free : (c : Conj) → ∀ {k : Nat} {x : String},
    (∀ j, k ≤ j → j < k + c.slots → x ≠ names j) → c.Free x → c.Exposed names x k
  | ⟨vars, tables, preds, squash, negation⟩, k, x, hnew, h => by
    rw [Conj.slots] at hnew
    refine ⟨h.1, fun j hj hlt => hnew j hj (by omega), h.2.imp_right (Or.imp ?_ ?_)⟩
    · exact Disj.exposedOption_of_free squash fun j hj hlt => hnew j (by omega) (by omega)
    · exact Disj.exposedOption_of_free negation fun j hj hlt => hnew j (by omega) (by omega)

theorem Disj.exposedOption_of_free : (d : Option (List Conj)) → ∀ {k : Nat} {x : String},
    (∀ j, k ≤ j → j < k + Disj.slotsOption d → x ≠ names j) → Disj.FreeOption x d →
      Disj.ExposedOption names x k d
  | none, _, _, _, h => absurd h id
  | some d, _, _, hnew, h => Disj.exposed_of_free d hnew h

theorem Disj.exposed_of_free : (d : List Conj) → ∀ {k : Nat} {x : String},
    (∀ j, k ≤ j → j < k + Disj.slots d → x ≠ names j) → Disj.Free x d → Disj.Exposed names x k d
  | [], _, _, _, h => absurd h id
  | c :: cs, k, x, hnew, h => by
    rw [Disj.slots] at hnew
    refine h.imp (Conj.exposed_of_free c fun j hj hlt => hnew j hj (by omega))
      (Disj.exposed_of_free cs fun j hj hlt => hnew j (by omega) (by omega))

end

mutual

/-- An exposed variable that is not replaced from around stays free. -/
theorem Conj.free_renameInTurn_of_exposed : (c : Conj) → c.BaseBinders →
    ∀ {σ : Labels} {k : Nat} {x : String}, σ.OnVars → .var x ∉ σ.map Prod.fst →
      c.Exposed names x k → (c.renameInTurn names σ k).Free x
  | ⟨vars, tables, preds, squash, negation⟩, hbase, σ, k, x, hσ, hx, h => by
    obtain ⟨hvars, hsquash, hnegation⟩ := hbase
    obtain ⟨hmem, hnew, hin⟩ := h
    have hσ' : (σ.enter names k vars).OnVars := hσ.enter hvars
    have hx' : .var x ∉ (σ.enter names k vars).map Prod.fst := fun h =>
      (Labels.mem_fst_enter h).elim hx hmem
    refine Conj.free_iff.mpr ⟨fun hbound => ?_, (Conj.inside_renameInTurn hσ').mpr ?_⟩
    · -- The new binders have names that are given here, and `x` has none of these.
      obtain ⟨v, hv, heq⟩ := mem_map.mp hbound
      obtain ⟨z, rfl⟩ := hvars v hv
      obtain ⟨j, hj, hlt, hafter⟩ := Labels.exists_after_ofBinders names k hv
      rw [Labels.substTuple_var, Labels.after_enter_of_mem hv, hafter] at heq
      exact hnew j hj hlt (Tuple.var.inj heq).symm
    · rcases hin with hin | hin | hin
      · exact .inl ⟨x, hin, Labels.after_of_not_mem hx'⟩
      · exact .inr (.inl (Disj.freeOption_renameInTurn_of_exposed squash hsquash hσ' hx' hin))
      · exact .inr (.inr (Disj.freeOption_renameInTurn_of_exposed negation hnegation hσ' hx' hin))

theorem Disj.freeOption_renameInTurn_of_exposed : (d : Option (List Conj)) →
    Disj.BaseBindersOption d → ∀ {σ : Labels} {k : Nat} {x : String}, σ.OnVars →
      .var x ∉ σ.map Prod.fst → Disj.ExposedOption names x k d →
        Disj.FreeOption x (Disj.renameInTurnOption names σ k d)
  | none, _, _, _, _, _, _, h => absurd h id
  | some d, hbase, _, _, _, hσ, hx, h => Disj.free_renameInTurn_of_exposed d hbase hσ hx h

theorem Disj.free_renameInTurn_of_exposed : (d : List Conj) → Disj.BaseBinders d →
    ∀ {σ : Labels} {k : Nat} {x : String}, σ.OnVars → .var x ∉ σ.map Prod.fst →
      Disj.Exposed names x k d → Disj.Free x (Disj.renameInTurn names σ k d)
  | [], _, _, _, _, _, _, h => absurd h id
  | c :: cs, hbase, _, _, _, hσ, hx, h =>
    h.imp (Conj.free_renameInTurn_of_exposed c hbase.1 hσ hx)
      (Disj.free_renameInTurn_of_exposed cs hbase.2 hσ hx)

end

mutual

/-- If binders are listed once, a variable that stays free is exposed: each name in its way would
have gone to a binder. -/
theorem Conj.exposed_of_free_renameInTurn : (c : Conj) → c.BaseBinders → c.Distinct →
    ∀ {σ : Labels} {k : Nat} {x : String}, σ.OnVars → .var x ∉ σ.map Prod.fst →
      x ∉ σ.map Prod.snd → (c.renameInTurn names σ k).Free x → c.Exposed names x k
  | ⟨vars, tables, preds, squash, negation⟩, hbase, hdistinct, σ, k, x, hσ, hold, hnew, h => by
    have hfree := Conj.exists_free_of_renameInTurn _ hbase hσ h
    obtain ⟨hmem, hin⟩ := Conj.free_iff.mp h
    have hne := Conj.after_ne_of_not_mem hmem
    obtain ⟨hvars, hsquash, hnegation⟩ := hbase
    obtain ⟨hnodup, hnested⟩ := hdistinct
    -- Nothing from around gets the name, so it was `x` before.
    have hsame : ∀ {y}, σ.after y = x → y = x := by
      intro y hy
      rcases σ.after_eq_or_mem y with heq | hmem
      · exact heq.symm.trans hy
      · exact absurd (hy ▸ hmem) hnew
    have hunbound : .var x ∉ vars := by
      obtain ⟨y, hy, hafter⟩ := hfree
      exact hsame hafter ▸ (Conj.free_iff.mp hy).1
    -- A name that is given here and is no binder yet goes to a binder, which would bind `x`.
    have hrange : ∀ j, k ≤ j → j < k + vars.length → x ≠ names j := by
      rintro j hj hlt rfl
      obtain ⟨y, hy, hafter⟩ := Labels.exists_after_eq hvars hnodup hj hlt hunbound
      exact hne y hy ((Labels.after_enter_of_mem hy).trans hafter)
    have hσ' : (σ.enter names k vars).OnVars := hσ.enter hvars
    have hold' : .var x ∉ (σ.enter names k vars).map Prod.fst := fun h =>
      (Labels.mem_fst_enter h).elim hold hunbound
    have hnew' : x ∉ (σ.enter names k vars).map Prod.snd := by
      intro h
      rcases Labels.mem_snd_enter h with h | ⟨j, hj, hlt, heq⟩
      · exact hnew h
      · exact hrange j hj hlt heq
    refine ⟨hunbound, hrange, ?_⟩
    rcases (Conj.inside_renameInTurn hσ').mp hin with ⟨y, hy, hafter⟩ | hin | hin
    · exact .inl (hsame (Labels.after_enter_inv hafter hne).2 ▸ hy)
    · exact .inr (.inl (Disj.exposedOption_of_free_renameInTurn squash hsquash
        (fun d hd => hnested d (.inl hd)) hσ' hold' hnew' hin))
    · exact .inr (.inr (Disj.exposedOption_of_free_renameInTurn negation hnegation
        (fun d hd => hnested d (.inr hd)) hσ' hold' hnew' hin))

theorem Disj.exposedOption_of_free_renameInTurn : (d : Option (List Conj)) →
    Disj.BaseBindersOption d → (∀ e, d = some e → ∀ c ∈ e, c.Distinct) →
    ∀ {σ : Labels} {k : Nat} {x : String}, σ.OnVars → .var x ∉ σ.map Prod.fst →
      x ∉ σ.map Prod.snd → Disj.FreeOption x (Disj.renameInTurnOption names σ k d) →
        Disj.ExposedOption names x k d
  | none, _, _, _, _, _, _, _, _, h => absurd h id
  | some d, hbase, hdistinct, _, _, _, hσ, hold, hnew, h =>
    Disj.exposed_of_free_renameInTurn d hbase (hdistinct d rfl) hσ hold hnew h

/-- A variable that is free afterwards under its own name was exposed. -/
theorem Disj.exposed_of_free_renameInTurn : (d : List Conj) → Disj.BaseBinders d →
    (∀ c ∈ d, c.Distinct) → ∀ {σ : Labels} {k : Nat} {x : String}, σ.OnVars →
      .var x ∉ σ.map Prod.fst → x ∉ σ.map Prod.snd →
        Disj.Free x (Disj.renameInTurn names σ k d) → Disj.Exposed names x k d
  | [], _, _, _, _, _, _, _, _, h => absurd h id
  | c :: cs, hbase, hdistinct, _, _, _, hσ, hold, hnew, h =>
    h.imp
      (Conj.exposed_of_free_renameInTurn c hbase.1 (hdistinct c mem_cons_self) hσ hold hnew)
      (Disj.exposed_of_free_renameInTurn cs hbase.2
        (fun e he => hdistinct e (mem_cons_of_mem _ he)) hσ hold hnew)

end

end Renamed

/-! ## Both rounds -/

namespace Disj

variable {d : Disj} {x : String}

theorem nth_tagNames (j : Nat) : tagNames.nth j = Tags.tagName (j + 1) := by
  have hskip : tagNames.skip j = ⟨"#", [], j + 1⟩ := by
    induction j with
    | zero => rfl
    | succ j ih =>
      rw [FreshNames.skip, ih]
      rfl
  rw [FreshNames.nth, hskip]
  rfl

/-- Whether a variable has a free occurrence outside of the scope of the binder that gets its name
as a tag. -/
def TagExposed (x : String) (d : Disj) : Prop :=
  Disj.Exposed tagNames.nth x 0 d

theorem renameBound_eq (hbase : BaseBinders d) : d.renameBound
    = renameInTurn d.canonicalNames.nth [] 0 (renameInTurn tagNames.nth [] 0 d) := by
  have hbase' := baseBinders_renameInTurn tagNames.nth d hbase [] 0
  show renameWith d.canonicalNames (renameWith tagNames d) = _
  rw [renameWith_eq_renameInTurn hbase, renameWith_eq_renameInTurn hbase']

theorem slots_renameBound (hbase : BaseBinders d) : slots d.renameBound = slots d := by
  rw [renameBound_eq hbase, slots_renameInTurn, slots_renameInTurn]

/-- The second round changes no free variables: it skips the names of all that were free before the
first one. -/
theorem free_renameBound_iff (hbase : BaseBinders d) :
    Disj.Free x d.renameBound ↔ Disj.Free x (renameInTurn tagNames.nth [] 0 d) := by
  have hbase' := baseBinders_renameInTurn tagNames.nth d hbase [] 0
  rw [renameBound_eq hbase]
  constructor
  · intro h
    obtain ⟨y, hy, rfl⟩ := exists_free_of_renameInTurn _ hbase' (by simp [Labels.OnVars]) h
    exact hy
  · intro h
    -- A variable that is still free was free at first, so its name is taken.
    obtain ⟨y, hy, rfl⟩ := exists_free_of_renameInTurn _ hbase (by simp [Labels.OnVars]) h
    refine free_renameInTurn_of_exposed _ hbase' (by simp [Labels.OnVars]) not_mem_nil ?_
    exact exposed_of_free _ (fun j hj _ => apart_canonicalNames d y hy j hj) h

/-- Naming the bound variables makes nothing free. -/
theorem free_of_renameBound (hbase : BaseBinders d) (h : Disj.Free x d.renameBound) :
    Disj.Free x d := by
  have hfirst := (free_renameBound_iff hbase).mp h
  obtain ⟨y, hy, rfl⟩ := exists_free_of_renameInTurn _ hbase (by simp [Labels.OnVars]) hfirst
  exact hy

theorem free_renameBound_of_exposed (hbase : BaseBinders d) (h : d.TagExposed x) :
    Disj.Free x d.renameBound :=
  (free_renameBound_iff hbase).mpr
    (free_renameInTurn_of_exposed _ hbase (by simp [Labels.OnVars]) not_mem_nil h)

theorem exposed_of_free_renameBound (hbase : BaseBinders d) (hdistinct : ∀ c ∈ d, c.Distinct)
    (h : Disj.Free x d.renameBound) : d.TagExposed x :=
  exposed_of_free_renameInTurn _ hbase hdistinct (by simp [Labels.OnVars]) not_mem_nil
    not_mem_nil ((free_renameBound_iff hbase).mp h)

/-- A free variable that naming loses has the name of a tag. -/
theorem exists_tag_of_lost (hbase : BaseBinders d) (hx : Disj.Free x d)
    (hlost : ¬ Disj.Free x d.renameBound) : ∃ k, 1 ≤ k ∧ k ≤ slots d ∧ x = Tags.tagName k := by
  by_contra hnone
  refine hlost (free_renameBound_of_exposed hbase (exposed_of_free d (fun j _ hlt heq => ?_) hx))
  rw [Nat.zero_add] at hlt
  exact hnone ⟨j + 1, by omega, hlt, heq.trans (nth_tagNames j)⟩

end Disj

namespace Term

/-- Normalizing is reducing, reading and naming; before naming, the free variables are those of the
term. -/
theorem exists_reading_of_normalize {t : Term} {d : Disj} (hbase : t.baseBinders = true)
    (h : t.normalize = .ok d) : ∃ t' e, t.reduce = .ok t' ∧ Disj.ofTerm t' = .ok e ∧
      d = e.renameBound ∧ Disj.BaseBinders e ∧ (∀ x, Disj.Free x e ↔ t.Free x) ∧
      (t.distinctBinders = true → ∀ c ∈ e, c.Distinct) := by
  obtain ⟨t', hred, rfl⟩ := exists_reduce_of_normalize h
  obtain ⟨e, hread⟩ := ofTerm_of_reduce hred
  have hspread := (spread_readings t').1 e hread
  subst hspread
  refine ⟨t', t'.spread, hred, hread, rfl, baseBinders_spread (names_reduce hbase hred).1,
    fun x => free_of_reduce hbase hred hread, fun hdistinct => ?_⟩
  exact (hereditary_distinct.spread Conj.hereditary_distinct nodup_nil
    (distinct_reduce hbase hdistinct hred)).1

/-- **Free variables of a normal form.** Normalization makes nothing free, and a free variable that
it loses has the name of a tag, with a number up to the number of binders. Without such a variable
the free variables are the same. Precisely, reducing and reading keep the free variables, and naming
keeps those that are exposed to their tags; if no summation lists a binder twice, it loses all
others. -/
theorem freeVars_of_normalize {t : Term} {d : Disj} (hbase : t.baseBinders = true)
    (h : t.normalize = .ok d) :
    (∀ v ∈ d.toTerm.freeVars, v ∈ t.freeVars) ∧
      (∀ v ∈ t.freeVars, v ∉ d.toTerm.freeVars →
        ∃ k, 1 ≤ k ∧ k ≤ Disj.slots d ∧ v = .var (Tags.tagName k)) ∧
      ((∀ k, 1 ≤ k → k ≤ Disj.slots d → .var (Tags.tagName k) ∉ t.freeVars) →
        d.toTerm.freeVars = t.freeVars) ∧
      ∃ t' e, t.reduce = .ok t' ∧ Disj.ofTerm t' = .ok e ∧ e.toTerm.freeVars = t.freeVars ∧
        (∀ x, e.TagExposed x → .var x ∈ d.toTerm.freeVars) ∧
        (t.distinctBinders = true → (d.toTerm.freeVars = t.freeVars ↔
          ∀ x, .var x ∈ t.freeVars → e.TagExposed x)) := by
  obtain ⟨t', e, hred, hread, rfl, hbase', hfree, hdistinct⟩ := exists_reading_of_normalize hbase h
  have hsub : ∀ x, Disj.Free x e.renameBound → t.Free x := fun x hx =>
    (hfree x).mp (Disj.free_of_renameBound hbase' hx)
  have hlost : ∀ x, t.Free x → ¬ Disj.Free x e.renameBound →
      ∃ k, 1 ≤ k ∧ k ≤ Disj.slots e.renameBound ∧ x = Tags.tagName k := by
    intro x hx hnot
    rw [Disj.slots_renameBound hbase']
    exact Disj.exists_tag_of_lost hbase' ((hfree x).mpr hx) hnot
  -- Since nothing becomes free, equality is a question of what gets lost.
  have heq : e.renameBound.toTerm.freeVars = t.freeVars ↔
      ∀ x, t.Free x → Disj.Free x e.renameBound := by
    simp only [freeVars_eq_iff, Disj.free_toTerm]
    exact ⟨fun h x => (h x).mpr, fun h x => ⟨hsub x, h x⟩⟩
  refine ⟨fun v hv => ?_, fun v hv hnot => ?_, fun hnone => heq.mpr fun x hx => ?_, t', e, hred,
    hread, freeVars_eq_iff.mpr fun x => Disj.free_toTerm.trans (hfree x), fun x hx => ?_,
    fun honce => ?_⟩
  · obtain ⟨x, rfl, hx⟩ := mem_freeVars.mp hv
    exact var_mem_freeVars.mpr (hsub x (Disj.free_toTerm.mp hx))
  · obtain ⟨x, rfl, hx⟩ := mem_freeVars.mp hv
    obtain ⟨k, hk, hle, rfl⟩ := hlost x hx fun hd => hnot (Disj.var_mem_freeVars.mpr hd)
    exact ⟨k, hk, hle, rfl⟩
  · by_contra hnot
    obtain ⟨k, hk, hle, rfl⟩ := hlost x hx hnot
    exact hnone k hk hle (var_mem_freeVars.mpr hx)
  · exact Disj.var_mem_freeVars.mpr (Disj.free_renameBound_of_exposed hbase' hx)
  · simp only [heq, var_mem_freeVars]
    exact forall₂_congr fun x _ => ⟨Disj.exposed_of_free_renameBound hbase' (hdistinct honce),
      Disj.free_renameBound_of_exposed hbase'⟩

/-- `Sum{a}(R(a) * S(#1)) + T(#1) * ||Sum{b}(U(b) * [p(b, #2)])||`. -/
def tagsInScope : Term :=
  .add
    (.sum [.var "a"] (.mul (.table "R" (.var "a")) (.table "S" (.var "#1"))))
    (.mul (.table "T" (.var "#1"))
      (.squash (.sum [.var "b"] (.mul (.table "U" (.var "b")) (.pred "p" [.var "b", .var "#2"])))))

/-- `Sum{x0}(R(x0) * S(x0)) + T(#1) * ||Sum{x1}(U(x1) * [p(x1, x1)])||`. -/
def tagsCaptured : Disj :=
  [⟨[.var "x0"], [⟨"R", .var "x0"⟩, ⟨"S", .var "x0"⟩], [], none, none⟩,
    ⟨[], [⟨"T", .var "#1"⟩], [],
      some [⟨[.var "x1"], [⟨"U", .var "x1"⟩], [.pred "p" [.var "x1", .var "x1"]], none, none⟩],
      none⟩]

/-- The binder `a` gets the tag `#1` and captures one of two occurrences, and `b` gets `#2` and
captures the only one. -/
theorem freeVars_of_normalize_captured :
    (tagsInScope.baseBinders = true ∧ tagsInScope.normalize = .ok tagsCaptured) ∧
      tagsInScope.freeVars = [.var "#1", .var "#2"] ∧ tagsCaptured.toTerm.freeVars = [.var "#1"] ∧
      (∀ v ∈ tagsInScope.freeVars, v ∉ tagsCaptured.toTerm.freeVars →
        ∃ k, 1 ≤ k ∧ k ≤ Disj.slots tagsCaptured ∧ v = .var (Tags.tagName k)) ∧
      ∃ t' e, tagsInScope.reduce = .ok t' ∧ Disj.ofTerm t' = .ok e ∧
        ¬ ∀ x, .var x ∈ tagsInScope.freeVars → e.TagExposed x := by
  have hbase : tagsInScope.baseBinders = true := by decide
  have hnormalize : tagsInScope.normalize = .ok tagsCaptured := by decide +kernel
  obtain ⟨-, hlost, -, t', e, hred, hread, -, -, hexact⟩ := freeVars_of_normalize hbase hnormalize
  refine ⟨⟨hbase, hnormalize⟩, by decide +kernel, by decide +kernel, hlost, t', e, hred, hread, ?_⟩
  rw [← hexact (by decide)]
  decide +kernel

/-- **A free variable gets lost**: the free variable of `Sum{a}(R(a) * S(#1))` is bound in its
normal form `Sum{x0}(R(x0) * S(x0))`. -/
theorem freeVars_lost_by_normalize :
    ∃ d, (Term.sum [.var "a"]
        (.mul (.table "R" (.var "a")) (.table "S" (.var "#1")))).normalize = .ok d ∧
      (Term.sum [.var "a"]
        (.mul (.table "R" (.var "a")) (.table "S" (.var "#1")))).freeVars = [.var "#1"] ∧
      d.toTerm.freeVars = [] :=
  ⟨[⟨[.var "x0"], [⟨"R", .var "x0"⟩, ⟨"S", .var "x0"⟩], [], none, none⟩], by decide +kernel,
    by decide +kernel, by decide +kernel⟩

end Term

end QueryRules
