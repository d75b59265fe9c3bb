import Mathlib.Data.List.Count
import QueryRules.Proofs.Idempotence

/-!
# QueryRules — replacing variables without capture

A conjunction is *scoped* if at every level its binders are variables that are not in scope yet,
and everything that occurs is in scope (`Conj.Scoped`). Canonical names make every conjunction of a
normal form scoped (`Term.scoped_of_normalize`), with the free variables as the outermost scope.

In a scoped conjunction a variable of the scope is bound nowhere below. So replacing it reaches all
of its occurrences, captures nothing, and means to evaluate in a changed environment
(`Conj.Scoped.bodyValue_subst`). Removing a binder together with its variable leaves the scope as
it was (`Conj.Scoped.eliminate`).
-/

namespace QueryRules

open List

/-! ## Nested disjunctions -/

theorem Disj.free_iff {x : String} {d : Disj} : Disj.Free x d ↔ ∃ c ∈ d, c.Free x := by
  induction d with
  | nil => simp [Disj.Free]
  | cons c cs ih => simp [Disj.Free, ih]

theorem Disj.freeOption_iff {x : String} {d : Option Disj} :
    Disj.FreeOption x d ↔ ∃ e, d = some e ∧ Disj.Free x e := by
  cases d with
  | none | some e => simp [Disj.FreeOption]

namespace Conj

/-- What is inside of a conjunction is in an atom or free in a nested conjunction. -/
theorem inside_iff {x : String} {c : Conj} : c.Inside x ↔
    (∃ t ∈ c.tuples, t.uses (.var x) = true) ∨ ∃ d, c.Nests d ∧ ∃ e ∈ d, e.Free x := by
  unfold Inside Nests
  rw [Disj.freeOption_iff, Disj.freeOption_iff]
  simp only [Disj.free_iff, or_and_right, exists_or]

/-! ## Scopes -/

/-- Every binder is a variable that is not in scope yet, everything else is in scope, and so on at
the levels below, with the binders added to the scope. -/
inductive Scoped : (scope : String → Prop) → Conj → Prop
  | intro {scope : String → Prop} {c : Conj}
      (binders : ∀ v ∈ c.vars, ∃ x, v = .var x ∧ ¬ scope x)
      (inside : ∀ x, c.Inside x → scope x ∨ .var x ∈ c.vars)
      (nested : ∀ d, c.Nests d → ∀ e ∈ d, Scoped (fun x => scope x ∨ .var x ∈ c.vars) e) :
      Scoped scope c

namespace Scoped

variable {scope scope' : String → Prop} {c c' e : Conj} {d : Disj} {x g : String} {image : Tuple}

theorem binders (h : Scoped scope c) : ∀ v ∈ c.vars, ∃ x, v = .var x ∧ ¬ scope x := by
  cases h with
  | intro binders _ _ => exact binders

theorem inside (h : Scoped scope c) (hx : c.Inside x) : scope x ∨ .var x ∈ c.vars := by
  cases h with
  | intro _ inside _ => exact inside x hx

theorem nested (h : Scoped scope c) (hd : c.Nests d) (he : e ∈ d) :
    Scoped (fun x => scope x ∨ .var x ∈ c.vars) e := by
  cases h with
  | intro _ _ nested => exact nested d hd e he

theorem not_mem (h : Scoped scope c) (hx : scope x) : .var x ∉ c.vars := by
  intro hmem
  obtain ⟨y, hy, hnot⟩ := h.binders _ hmem
  exact hnot (Tuple.var.inj hy ▸ hx)

theorem scope_of_free (h : Scoped scope c) (hx : c.Free x) : scope x := by
  obtain ⟨hmem, hin⟩ := free_iff.mp hx
  exact (h.inside hin).resolve_right hmem

theorem congr (h : Scoped scope c) (hiff : ∀ x, scope x ↔ scope' x) : Scoped scope' c := by
  have heq : scope = scope' := funext fun x => propext (hiff x)
  exact heq ▸ h

/-- Other atoms below the same binders, over variables that were there before. -/
theorem of_atoms (h : Scoped scope c) (hvars : c'.vars = c.vars) (hsquash : c'.squash = c.squash)
    (hnegation : c'.negation = c.negation)
    (hatoms : ∀ t ∈ c'.tuples, ∀ x, t.uses (.var x) = true → c.Inside x) : Scoped scope c' := by
  have hnests : ∀ {d}, c'.Nests d → c.Nests d := by
    intro d hd
    unfold Nests at hd ⊢
    rw [← hsquash, ← hnegation]
    exact hd
  refine .intro (hvars ▸ h.binders) (fun x hx => ?_) fun d hd e he => ?_
  · rw [hvars]
    rcases inside_iff.mp hx with ⟨t, ht, hu⟩ | ⟨d, hd, hin⟩
    · exact h.inside (hatoms t ht x hu)
    · exact h.inside (inside_iff.mpr (.inr ⟨d, hnests hd, hin⟩))
  · rw [hvars]
    exact h.nested (hnests hd) he

/-- A variable that is not bound any more is in scope instead. -/
theorem unbind (h : Scoped scope c) (hg : .var g ∈ c.vars) :
    Scoped (fun x => scope x ∨ x = g) { c with vars := c.vars.filter (· ≠ .var g) } := by
  have hmem : ∀ x, .var x ∈ c.vars.filter (· ≠ .var g) ↔ .var x ∈ c.vars ∧ x ≠ g := by
    intro x
    simp [mem_filter]
  refine .intro (fun v hv => ?_) (fun x hx => ?_) fun d hd e he => ?_
  · obtain ⟨hv, hne⟩ := mem_filter.mp hv
    obtain ⟨x, rfl, hx⟩ := h.binders v hv
    refine ⟨x, rfl, fun hor => ?_⟩
    rcases hor with hscope | rfl
    · exact hx hscope
    · exact absurd rfl (of_decide_eq_true hne)
  · rw [hmem]
    have hin := h.inside (c := c) hx
    tauto
  · refine (h.nested (c := c) hd he).congr fun x => ?_
    rw [hmem]
    by_cases hxg : x = g
    · subst hxg
      tauto
    · tauto

end Scoped

end Conj

/-! ## Canonical names -/

section Relabeled

variable {names : Nat → String}

mutual

/-- Naming binders by their places makes a conjunction scoped, as long as the names to come are not
in scope. -/
theorem Conj.scoped_relabel (hnames : Function.Injective names) : (c : Conj) → c.BaseBinders →
    ∀ {scope : String → Prop} {σ : Labels} {k : Nat}, (∀ x, scope x → ∀ j, k ≤ j → x ≠ names j) →
      (∀ x, c.Free x → scope (σ.name x)) → (c.relabel names σ k).Scoped scope
  | ⟨vars, tables, preds, squash, negation⟩, hbase, scope, σ, k, hscope, hfree => by
    have hapart : Labels.Apart (fun x => Conj.Free x ⟨vars, tables, preds, squash, negation⟩) names
        k σ := fun x hx => hscope _ (hfree x hx)
    have hfree' := @Conj.free_relabel names hnames ⟨vars, tables, preds, squash, negation⟩ hbase σ k
      hapart
    obtain ⟨hvars, hsquash, hnegation⟩ := hbase
    rw [Conj.relabel_eq] at hfree' ⊢
    dsimp only at hfree' ⊢
    generalize hσ' : Labels.ofBinders names k vars ++ σ = σ' at hfree' ⊢
    -- The names below are still to come, also where the binders are in scope.
    have hscope' : ∀ y, scope y ∨ .var y ∈ vars.map σ'.tuple →
        ∀ j, k + vars.length ≤ j → y ≠ names j := by
      intro y hy j hj heq
      rcases hy with hy | hy
      · exact hscope y hy j (by omega) heq
      · obtain ⟨v, hv, hveq⟩ := mem_map.mp hy
        obtain ⟨z, rfl⟩ := hvars v hv
        obtain ⟨i, -, hi, hname⟩ := Labels.exists_name_ofBinders names k hv
        rw [Labels.tuple_var, ← hσ', Labels.name_bound hv, hname] at hveq
        have hij := hnames ((Tuple.var.inj hveq).trans heq)
        omega
    have hbelow : ∀ x, Conj.Inside x ⟨vars, tables, preds, squash, negation⟩ →
        scope (σ'.name x) ∨ .var (σ'.name x) ∈ vars.map σ'.tuple := by
      intro x hx
      rcases Conj.Inside.mem_or_free hx with hmem | hx
      · exact .inr (mem_map.mpr ⟨.var x, hmem, Labels.tuple_var σ' x⟩)
      · rw [← hσ', Labels.name_unbound (Conj.free_iff.mp hx).1]
        exact .inl (hfree x hx)
    refine .intro (fun v hv => ?_) (fun y hy => ?_) fun d hd => ?_
    · obtain ⟨w, hw, rfl⟩ := mem_map.mp hv
      obtain ⟨z, rfl⟩ := hvars w hw
      rw [← hσ'] at hv ⊢
      rw [Labels.tuple_var] at hv ⊢
      obtain ⟨j, hj, hname⟩ := Labels.exists_name_of_mem_map hvars hv
      exact ⟨_, rfl, fun hin => hscope _ hin j hj hname⟩
    · rcases Conj.Inside.mem_or_free hy with hmem | hy
      · exact .inr hmem
      · obtain ⟨x, hx, rfl⟩ := hfree'.mp hy
        exact .inl (hfree x hx)
    · rcases hd with hd | hd
      · exact Disj.scoped_relabelOption hnames squash hsquash hscope'
          (fun x hx => hbelow x (.inr (.inl hx))) hd
      · exact Disj.scoped_relabelOption hnames negation hnegation
          (fun y hy j hj => hscope' y hy j (by omega)) (fun x hx => hbelow x (.inr (.inr hx))) hd

theorem Disj.scoped_relabelOption (hnames : Function.Injective names) :
    (d : Option (List Conj)) → Disj.BaseBindersOption d →
    ∀ {scope : String → Prop} {σ : Labels} {k : Nat}, (∀ x, scope x → ∀ j, k ≤ j → x ≠ names j) →
      (∀ x, Disj.FreeOption x d → scope (σ.name x)) →
        ∀ {e : Disj}, Disj.relabelOption names σ k d = some e → ∀ c ∈ e, c.Scoped scope
  | none, _, _, _, _, _, _, _, h => by cases h
  | some d, hbase, _, _, _, hscope, hfree, _, h => by
    cases h
    exact Disj.scoped_relabel hnames d hbase hscope hfree

/-- New names for the binders keep what is in scope. -/
theorem Disj.scoped_relabel (hnames : Function.Injective names) : (d : List Conj) →
    Disj.BaseBinders d → ∀ {scope : String → Prop} {σ : Labels} {k : Nat},
      (∀ x, scope x → ∀ j, k ≤ j → x ≠ names j) → (∀ x, Disj.Free x d → scope (σ.name x)) →
        ∀ c ∈ Disj.relabel names σ k d, c.Scoped scope
  | [], _, _, _, _, _, _, c, hc => by cases hc
  | c :: cs, hbase, _, _, k, hscope, hfree, c', hc' => by
    rw [Disj.relabel] at hc'
    rcases mem_cons.mp hc' with rfl | hc'
    · exact Conj.scoped_relabel hnames c hbase.1 hscope fun x hx => hfree x (.inl hx)
    · exact Disj.scoped_relabel hnames cs hbase.2 (fun x hx j hj => hscope x hx j (by omega))
        (fun x hx => hfree x (.inr hx)) c' hc'

end

end Relabeled

/-- No name that a reduction brings in begins like a tag. -/
theorem Term.plainNames_spread {t t' : Term} (hbase : t.baseBinders = true)
    (hplain : PlainNames t.uses) (hred : t.reduce = .ok t') :
    PlainNames (Disj.uses t'.spread) := by
  intro x hx
  rcases (names_reduce hbase hred).2 x ((uses_of_spread t' _).1 hx) with hused | ⟨k, rfl⟩
  · exact hplain x hused
  · intro hhead
    rw [String.toList_append] at hhead
    simp at hhead

/-- A normal form is what the reduced term says, with its binders named by their places. -/
theorem Term.exists_relabel_of_normalize {t : Term} {d : Disj} (hbase : t.baseBinders = true)
    (hplain : PlainNames t.uses) (h : t.normalize = .ok d) :
    ∃ t', t.reduce = .ok t' ∧ Disj.BaseBinders t'.spread ∧
      d = Disj.relabel (Disj.canonicalNames t'.spread).nth [] 0 t'.spread := by
  obtain ⟨t', hred, rfl⟩ := exists_reduce_of_normalize h
  have hspread := baseBinders_spread (names_reduce hbase hred).1
  exact ⟨t', hred, hspread,
    Disj.renameBound_eq_relabel hspread (plainNames_spread hbase hplain hred)⟩

/-- **Normal forms are scoped**: their binders differ from the free variables and from all binders
around them. -/
theorem Term.scoped_of_normalize {t : Term} {d : Disj} (hbase : t.baseBinders = true)
    (hplain : PlainNames t.uses) (h : t.normalize = .ok d) :
    ∀ c ∈ d, c.Scoped fun x => Disj.Free x d := by
  obtain ⟨t', -, hspread, rfl⟩ := exists_relabel_of_normalize hbase hplain h
  have hinj := (Disj.canonicalNames t'.spread).nth_injective
  have hapart := Disj.apart_canonicalNames t'.spread
  have hfree : ∀ x, Disj.Free x (Disj.relabel (Disj.canonicalNames t'.spread).nth [] 0 t'.spread) ↔
      Disj.Free x t'.spread := by
    intro x
    rw [Disj.free_relabel hinj _ hspread hapart]
    constructor
    · rintro ⟨y, hy, rfl⟩
      exact hy
    · exact fun hx => ⟨x, hx, rfl⟩
  have hscoped : ∀ c ∈ Disj.relabel (Disj.canonicalNames t'.spread).nth [] 0 t'.spread,
      c.Scoped fun x => Disj.Free x t'.spread :=
    Disj.scoped_relabel hinj _ hspread (fun x hx j hj => hapart x hx j hj) fun x hx => hx
  intro c hc
  exact (hscoped c hc).congr fun x => (hfree x).symm

/-! ## Substitution -/

namespace Conj

variable {source image : Tuple}

theorem subst_eq (c : Conj) (source image : Tuple) : c.subst source image
    = ⟨c.vars.map fun v => if v = source then image else v,
      c.tables.map (TableAtom.subst · source image), c.preds.map (PredAtom.subst source image),
      c.squash.map fun d => Disj.subst d source image,
      c.negation.map fun d => Disj.subst d source image⟩ := by
  obtain ⟨vars, tables, preds, squash, negation⟩ := c
  rw [subst, Disj.substOption_eq_map, Disj.substOption_eq_map]

theorem tuples_subst (c : Conj) (source image : Tuple) :
    (c.subst source image).tuples = c.tuples.map (Tuple.subst · source image) := by
  have hpred : ∀ p : PredAtom, (p.subst source image).tuples
      = p.tuples.map (Tuple.subst · source image) := by
    intro p
    cases p with
    | pred n args => exact Tuple.substAll_eq_map args source image
    | eq l r => rfl
  rw [subst_eq]
  unfold tuples
  simp only [map_map, map_append, flatMap_map, map_flatMap, hpred]
  rfl

theorem vars_subst_of_not_mem {c : Conj} (h : source ∉ c.vars) :
    (c.subst source image).vars = c.vars := by
  rw [subst_eq]
  refine (map_congr_left fun v hv => if_neg ?_).trans (map_id c.vars)
  rintro rfl
  exact h hv

theorem nests_subst {c : Conj} {d : Disj} (h : (c.subst source image).Nests d) :
    ∃ d', c.Nests d' ∧ d = Disj.subst d' source image := by
  rw [subst_eq] at h
  rcases h with h | h
  · obtain ⟨d', hd', rfl⟩ := Option.map_eq_some_iff.mp h
    exact ⟨d', .inl hd', rfl⟩
  · obtain ⟨d', hd', rfl⟩ := Option.map_eq_some_iff.mp h
    exact ⟨d', .inr hd', rfl⟩

theorem depth_eq (c : Conj) :
    c.depth = max (Disj.depthOption c.squash) (Disj.depthOption c.negation) := by
  obtain ⟨vars, tables, preds, squash, negation⟩ := c
  rw [depth]

mutual

/-- Replacing a variable does not nest deeper. -/
theorem depth_subst (source image : Tuple) : (c : Conj) → (c.subst source image).depth = c.depth
  | ⟨vars, tables, preds, squash, negation⟩ => by
    rw [subst, depth, depth, depthOption_substOption source image squash,
      depthOption_substOption source image negation]

theorem depthOption_substOption (source image : Tuple) : (d : Option (List Conj)) →
    Disj.depthOption (Disj.substOption d source image) = Disj.depthOption d
  | none => rfl
  | some d => congrArg (· + 1) (depthList_subst source image d)

theorem depthList_subst (source image : Tuple) : (d : List Conj) →
    Disj.depth (Disj.subst d source image) = Disj.depth d
  | [] => rfl
  | c :: cs => by
    rw [Disj.subst, Disj.depth, Disj.depth, depthList_subst source image cs]
    split
    · rfl
    · rw [depth_subst source image c]

end

namespace Scoped

variable {scope : String → Prop} {c : Conj} {g : String}

/-- Where the variable is in scope, every nested conjunction is reached. -/
theorem subst_nested (h : Scoped scope c) (hg : scope g) {d : Disj} (hd : c.Nests d) :
    Disj.subst d (.var g) image = d.map fun e => e.subst (.var g) image := by
  rw [Disj.subst_eq_map]
  refine map_congr_left fun e he => if_neg ?_
  exact (h.nested hd he).not_mem (.inl hg)

/-- Replacing a variable of the scope by a tuple over other variables in sight removes it from the
scope. Induction on the levels; an image in sight of a level is in the scope of those below. -/
theorem subst (h : Scoped scope c) (hg : scope g) (himage : ∀ x, image.uses (.var x) = true →
      (scope x ∨ .var x ∈ c.vars) ∧ x ≠ g) :
    Scoped (fun x => scope x ∧ x ≠ g) (c.subst (.var g) image) := by
  induction h with
  | @intro scope c binders inside nested ih =>
    have hc : Scoped scope c := .intro binders inside nested
    have hvars : (c.subst (.var g) image).vars = c.vars :=
      vars_subst_of_not_mem (hc.not_mem hg)
    have hother : ∀ x, .var x ∈ c.vars → x ≠ g := by
      rintro x hx rfl
      exact hc.not_mem hg hx
    -- Below, `g` is in scope as well, and no binder captures what replaces it.
    have hbelow : ∀ d, (c.subst (.var g) image).Nests d → ∀ e ∈ d,
        Scoped (fun x => (scope x ∨ .var x ∈ c.vars) ∧ x ≠ g) e := by
      intro d hd e he
      obtain ⟨d', hd', rfl⟩ := nests_subst hd
      rw [hc.subst_nested hg hd'] at he
      obtain ⟨e', he', rfl⟩ := mem_map.mp he
      exact ih d' hd' e' he' (.inl hg) fun x hx => ⟨.inl (himage x hx).1, (himage x hx).2⟩
    refine .intro ?_ (fun x hx => ?_) fun d hd e he => ?_
    · rw [hvars]
      intro v hv
      obtain ⟨x, rfl, hx⟩ := binders v hv
      exact ⟨x, rfl, fun hin => hx hin.1⟩
    · rw [hvars]
      have hin : (scope x ∨ .var x ∈ c.vars) ∧ x ≠ g := by
        rcases inside_iff.mp hx with ⟨t, ht, hu⟩ | ⟨d, hd, e, he, hfree⟩
        · rw [tuples_subst] at ht
          obtain ⟨t', ht', rfl⟩ := mem_map.mp ht
          rcases Tuple.uses_subst t' hu with hu | ⟨hne, hu⟩
          · exact himage x hu
          · exact ⟨inside x (.inl ⟨t', ht', hu⟩), hne⟩
        · exact (hbelow d hd e he).scope_of_free hfree
      tauto
    · rw [hvars]
      refine (hbelow d hd e he).congr fun x => ?_
      have hne := hother x
      tauto

/-- What is in sight of a conjunction stays so if another variable is not bound any more. -/
theorem sees_of_ne {x : String} (h : scope x ∨ .var x ∈ c.vars) (hne : x ≠ g) :
    (scope x ∨ x = g) ∨ .var x ∈ c.vars.filter (· ≠ .var g) := by
  simp only [mem_filter, decide_eq_true_eq]
  rcases h with h | h
  · exact .inl (.inl h)
  · exact .inr ⟨h, fun heq => hne (Tuple.var.inj heq)⟩

/-- Removing a binder and replacing its variable by a tuple over other variables in sight keeps the
scope. -/
theorem eliminate (h : Scoped scope c) (hg : .var g ∈ c.vars) (himage : ∀ x,
      image.uses (.var x) = true → (scope x ∨ .var x ∈ c.vars) ∧ x ≠ g) :
    Scoped scope (c.eliminate (.var g) image) := by
  have hnot : ¬ scope g := fun hin => h.not_mem hin hg
  refine ((h.unbind hg).subst (.inr rfl) fun x hx => ?_).congr fun x => ?_
  · obtain ⟨hin, hne⟩ := himage x hx
    exact ⟨sees_of_ne hin hne, hne⟩
  · constructor
    · exact fun hx => hx.1.resolve_right hx.2
    · intro hx
      refine ⟨.inl hx, ?_⟩
      rintro rfl
      exact hnot hx

end Scoped

end Conj

/-! ## Values after a replacement -/

section Values

variable {D : Type*} [Fintype D] {m : Model D}

/-- A replacement below binders that bind neither the variable nor the image. -/
theorem Env.sumBinders_subst {f f' : Env D → Nat} {g : String} {image : Tuple}
    (hf : ∀ env, f' env = f (env.bind (.var g) (image.value m env))) {vs : List Tuple}
    (hg : .var g ∉ vs) (himage : ∀ x, image.uses (.var x) = true → .var x ∉ vs) (env : Env D) :
    sumBinders vs f' env = sumBinders vs f (env.bind (.var g) (image.value m env)) := by
  induction vs generalizing env with
  | nil => exact hf env
  | cons v vs ih =>
    rw [mem_cons, not_or] at hg
    have hrow : ∀ d, image.value m (env.bind v d) = image.value m env := by
      intro d
      cases v with
      | var y =>
        refine Tuple.value_bind_of_not_uses m ?_ env d
        rw [Bool.eq_false_iff]
        exact fun hy => himage y hy mem_cons_self
      | const c | attr b a | call f args => rfl
    unfold sumBinders
    refine Finset.sum_congr rfl fun d _ => ?_
    rw [ih hg.2 (fun x hx hmem => himage x hx (mem_cons_of_mem _ hmem)), hrow,
      Env.bind_comm env hg.1]

/-- A binder that is listed once may be summed over last. -/
theorem Env.sumBinders_filter {vars : List Tuple} {v : Tuple} (hcount : vars.count v = 1)
    (f : Env D → Nat) (env : Env D) :
    sumBinders (vars.filter (· ≠ v)) (sumBinders [v] f) env = sumBinders vars f env := by
  have hperm : (vars.filter (· ≠ v) ++ [v]).Perm vars := by
    have hsplit := filter_append_perm (fun w => decide (w ≠ v)) vars
    have hself : (fun w => !decide (w ≠ v)) = (· == v) := by
      funext w
      rw [Bool.eq_iff_iff]
      simp
    rw [hself, filter_beq, hcount] at hsplit
    exact hsplit
  rw [← Env.sumBinders_append, Env.sumBinders_perm hperm]

variable [DecidableEq D]

theorem TableAtom.value_subst (env : Env D) (g : String) (image : Tuple) (a : TableAtom) :
    (a.subst (.var g) image).toTerm.value m env
      = a.toTerm.value m (env.bind (.var g) (image.value m env)) := by
  simp only [TableAtom.subst, TableAtom.toTerm, Term.value, Tuple.value_subst]

theorem PredAtom.value_subst (env : Env D) (g : String) (image : Tuple) (p : PredAtom) :
    (p.subst (.var g) image).toTerm.value m env
      = p.toTerm.value m (env.bind (.var g) (image.value m env)) := by
  cases p with
  | pred n args => simp only [PredAtom.subst, PredAtom.toTerm, Term.value, Tuple.values_substAll]
  | eq l r => simp only [PredAtom.subst, PredAtom.toTerm, Term.value, Tuple.value_subst]

namespace Conj

variable {scope : String → Prop} {c : Conj} {g : String} {image : Tuple}

/-- Replacing a variable of the scope below the binders of a conjunction means to evaluate what is
there with the row of the image. Induction on the levels: the binders in between are neither the
variable nor in the image. -/
theorem Scoped.bodyValue_subst (h : Scoped scope c) (hg : scope g)
    (himage : ∀ x, image.uses (.var x) = true → scope x ∨ .var x ∈ c.vars) (env : Env D) :
    (c.subst (.var g) image).bodyValue m env
      = c.bodyValue m (env.bind (.var g) (image.value m env)) := by
  induction h generalizing env with
  | @intro scope c binders inside nested ih =>
    have hc : Scoped scope c := .intro binders inside nested
    have hbelow : ∀ d, c.Nests d → (Disj.toTerm (Disj.subst d (.var g) image)).value m env
        = d.toTerm.value m (env.bind (.var g) (image.value m env)) := by
      intro d hd
      rw [hc.subst_nested hg hd, Disj.value_toTerm, Disj.value_toTerm, map_map]
      refine congrArg List.sum (map_congr_left fun e he => ?_)
      have hscoped := nested d hd e he
      have hvars : (e.subst (.var g) image).vars = e.vars :=
        vars_subst_of_not_mem (hscoped.not_mem (.inl hg))
      show (e.subst (.var g) image).toTerm.value m env = _
      rw [Conj.value_toTerm, Conj.value_toTerm, hvars]
      -- The binders below are neither `g` nor in the image.
      refine Env.sumBinders_subst (fun env => ?_) (hscoped.not_mem (.inl hg))
        (fun x hx => hscoped.not_mem (himage x hx)) env
      exact ih d hd e he (.inl hg) (fun x hx => .inl (himage x hx)) env
    have hnested : ∀ o : Option Disj, (∀ d, o = some d → c.Nests d) →
        (o.map fun d => Disj.subst d (.var g) image).map (fun d => Term.value m (Disj.toTerm d) env)
          = o.map fun d => d.toTerm.value m (env.bind (.var g) (image.value m env)) := by
      intro o ho
      rw [Option.map_map]
      exact Option.map_congr fun d hd => hbelow d (ho d hd)
    rw [subst_eq]
    refine bodyValue_congr ?_ ?_ (hnested c.squash fun d hd => .inl hd)
      (hnested c.negation fun d hd => .inr hd)
    · rw [map_map]
      simp only [Function.comp_def, TableAtom.value_subst]
    · rw [map_map]
      simp only [Function.comp_def, PredAtom.value_subst]

/-- The value after a binder was removed: its variable has the row of the image. -/
theorem Scoped.value_eliminate (h : Scoped scope c) (hg : .var g ∈ c.vars) (himage : ∀ x,
      image.uses (.var x) = true → (scope x ∨ .var x ∈ c.vars) ∧ x ≠ g) (env : Env D) :
    (c.eliminate (.var g) image).toTerm.value m env
      = Env.sumBinders (c.vars.filter (· ≠ .var g))
        (fun e => c.bodyValue m (e.bind (.var g) (image.value m e))) env := by
  have hunbound := h.unbind hg
  have hvars : (c.eliminate (.var g) image).vars = c.vars.filter (· ≠ .var g) :=
    vars_subst_of_not_mem (hunbound.not_mem (.inr rfl))
  rw [Conj.value_toTerm, hvars]
  congr 1
  funext e
  exact hunbound.bodyValue_subst (.inr rfl)
    (fun x hx => Scoped.sees_of_ne (himage x hx).1 (himage x hx).2) e

/-! ## Trivial predicates -/

/-- What is done with the next predicate: it is left out if it is a reflexive equality or was kept
before, else it is kept. -/
theorem keepProper_cons (kept : List PredAtom) (p : PredAtom) (ps : List PredAtom) :
    (((∃ t, p = .eq t t) ∨ p ∈ kept) ∧ keepProper kept (p :: ps) = keepProper kept ps) ∨
      keepProper kept (p :: ps) = keepProper (kept ++ [p]) ps := by
  cases p with
  | pred n args =>
    rw [keepProper]
    split
    · next hmem => exact .inl ⟨.inr hmem, rfl⟩
    · exact .inr rfl
  | eq l r =>
    rw [keepProper]
    split
    · next h => exact .inl ⟨h.imp (fun hlr => ⟨l, by rw [hlr]⟩) id, rfl⟩
    · exact .inr rfl

theorem mem_keepProper {p : PredAtom} (kept : List PredAtom) {ps : List PredAtom}
    (h : p ∈ keepProper kept ps) : p ∈ kept ∨ p ∈ ps := by
  induction ps generalizing kept with
  | nil => exact .inl h
  | cons q qs ih =>
    rw [mem_cons]
    rcases keepProper_cons kept q qs with ⟨-, heq⟩ | heq
    · rw [heq] at h
      exact (ih kept h).imp id .inr
    · rw [heq] at h
      rcases ih _ h with hmem | hmem
      · rw [mem_append, mem_singleton] at hmem
        exact hmem.imp id .inl
      · exact .inr (.inr hmem)

/-- What dropping trivial predicates keeps. -/
theorem dropTrivial_spec (c : Conj) : c.dropTrivial.vars = c.vars ∧
    c.dropTrivial.tables = c.tables ∧ c.dropTrivial.squash = c.squash ∧
      c.dropTrivial.negation = c.negation ∧
      ∀ p ∈ c.dropTrivial.preds, p = .unit ∨ p ∈ c.preds := by
  unfold dropTrivial withPreds
  split
  · exact ⟨rfl, rfl, rfl, rfl, fun p hp => .inl (mem_singleton.mp hp)⟩
  · refine ⟨rfl, rfl, rfl, rfl, fun p hp => .inr ?_⟩
    exact (mem_keepProper [] hp).resolve_left not_mem_nil

/-- Dropping trivial equations keeps what is in scope. -/
theorem Scoped.dropTrivial (h : Scoped scope c) : Scoped scope c.dropTrivial := by
  obtain ⟨hvars, htables, hsquash, hnegation, hpreds⟩ := c.dropTrivial_spec
  refine h.of_atoms hvars hsquash hnegation fun t ht x hx => .inl ?_
  unfold tuples at ht ⊢
  rw [htables] at ht
  rcases mem_append.mp ht with ht | ht
  · exact ⟨t, mem_append_left _ ht, hx⟩
  · obtain ⟨p, hp, htp⟩ := mem_flatMap.mp ht
    rcases hpreds p hp with rfl | hp
    · -- There is no variable in the unit.
      have hconst : t = .const "1" := by
        simpa [PredAtom.unit, PredAtom.tuples] using htp
      rw [hconst] at hx
      cases hx
    · exact ⟨t, mem_append_right _ (mem_flatMap.mpr ⟨p, hp, htp⟩), hx⟩

theorem depth_dropTrivial (c : Conj) : c.dropTrivial.depth = c.depth := by
  obtain ⟨-, -, hsquash, hnegation, -⟩ := c.dropTrivial_spec
  rw [depth_eq, depth_eq, hsquash, hnegation]

/-- A predicate is zero or one, so a second copy of it does not count. -/
theorem prod_mul_of_mem (env : Env D) {p : PredAtom} {ps : List PredAtom} (h : p ∈ ps) :
    (ps.map fun p => p.toTerm.value m env).prod * p.toTerm.value m env
      = (ps.map fun p => p.toTerm.value m env).prod := by
  have hbit : p.toTerm.value m env = 0 ∨ p.toTerm.value m env = 1 := by
    cases p with
    | pred n args | eq l r => exact (ite_eq_or_eq _ 1 0).symm
  rcases hbit with hzero | hone
  · have hmem : 0 ∈ ps.map fun p => p.toTerm.value m env := mem_map.mpr ⟨p, h, hzero⟩
    rw [hzero, Nat.mul_zero, prod_eq_zero hmem]
  · rw [hone, Nat.mul_one]

/-- Dropping trivial equations and doubles keeps the product. -/
theorem prod_keepProper (env : Env D) (kept ps : List PredAtom) :
    ((keepProper kept ps).map fun p => p.toTerm.value m env).prod
      = (kept.map fun p => p.toTerm.value m env).prod
        * (ps.map fun p => p.toTerm.value m env).prod := by
  induction ps generalizing kept with
  | nil => rw [keepProper, map_nil, prod_nil, Nat.mul_one]
  | cons q qs ih =>
    rw [map_cons, prod_cons, ← Nat.mul_assoc]
    rcases keepProper_cons kept q qs with ⟨hskip, heq⟩ | heq
    · rw [heq, ih]
      rcases hskip with ⟨t, rfl⟩ | hmem
      · have hone : (PredAtom.eq t t).toTerm.value m env = 1 := if_pos rfl
        rw [hone, Nat.mul_one]
      · rw [prod_mul_of_mem env hmem]
    · rw [heq, ih, map_append, prod_append, map_singleton, prod_singleton]

/-- Where no factor is left, the unit that is put in is one. -/
theorem prod_withPreds (env : Env D) (c : Conj) (ps : List PredAtom) :
    ((c.withPreds ps).preds.map fun p => p.toTerm.value m env).prod
      = (ps.map fun p => p.toTerm.value m env).prod := by
  unfold withPreds
  split
  · next hempty =>
    have hunit : (PredAtom.unit.toTerm).value m env = 1 := if_pos rfl
    rw [Bool.and_eq_true] at hempty
    rw [List.isEmpty_iff.mp hempty.1, map_singleton, prod_singleton, hunit]
    rfl
  · rfl

theorem bodyValue_dropTrivial (env : Env D) (c : Conj) :
    c.dropTrivial.bodyValue m env = c.bodyValue m env := by
  have hpreds : (c.dropTrivial.preds.map fun p => p.toTerm.value m env).prod
      = (c.preds.map fun p => p.toTerm.value m env).prod := by
    rw [dropTrivial, prod_withPreds, prod_keepProper, map_nil, prod_nil, Nat.one_mul]
  obtain ⟨-, htables, hsquash, hnegation, -⟩ := c.dropTrivial_spec
  exact bodyValue_congr (by rw [htables]) hpreds (by rw [hsquash]) (by rw [hnegation])

theorem value_dropTrivial (env : Env D) (c : Conj) :
    c.dropTrivial.toTerm.value m env = c.toTerm.value m env := by
  have hbody : c.dropTrivial.bodyValue m = c.bodyValue m :=
    funext fun env => bodyValue_dropTrivial env c
  rw [Conj.value_toTerm, Conj.value_toTerm, c.dropTrivial_spec.1, hbody]

end Conj

end Values

end QueryRules
