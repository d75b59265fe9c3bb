import QueryRules.Proofs.Rearrangements

/-!
# QueryRules — canonical names are capture-free and canonical

Naming the bound variables of a well-named disjunction changes nothing else, and what it gives does
not depend on the names that were there before (`Disj.renameBound_canonical`).
-/

namespace QueryRules

open List

/-! ## Names in order -/

namespace FreshNames

/-- Numbers whose names are taken contribute nothing. -/
theorem filter_range_of_taken (s : FreshNames) {n m : Nat} (hnm : n ≤ m)
    (htaken : ∀ j, n ≤ j → j < m → s.name j ∈ s.taken) :
    ((List.range m).map s.name).filter (· ∉ s.taken)
      = ((List.range n).map s.name).filter (· ∉ s.taken) := by
  induction m, hnm using Nat.le_induction with
  | base => rfl
  | succ m hnm ih =>
    have hlast : s.name m ∈ s.taken := htaken m hnm (Nat.lt_succ_self m)
    rw [range_succ, map_append, filter_append,
      ih fun j hj hjm => htaken j hj (Nat.lt_succ_of_lt hjm)]
    simp [hlast]

/-- The next name is the first one that is not taken, from the next number on. -/
theorem exists_next_number (s : FreshNames) (k : Nat) : ∃ m, (s.skip k).next ≤ m ∧
    (s.skip (k + 1)).next = m + 1 ∧ s.nth k = s.name m ∧ s.name m ∉ s.taken ∧
      ∀ j, (s.skip k).next ≤ j → j < m → s.name j ∈ s.taken := by
  have hname : (s.skip k).name = s.name := by
    funext j
    unfold name
    rw [stem_skip]
  refine ⟨(s.skip k).firstFree (s.skip k).taken.length (s.skip k).next,
    (s.skip k).le_firstFree _ _, rfl, ?_, ?_, fun j hj hjm => ?_⟩
  · rw [← hname]
    rfl
  · rw [← hname, ← taken_skip s k]
    exact (s.skip k).firstFree_not_mem _
  · rw [← hname, ← taken_skip s k]
    exact (s.skip k).mem_taken_of_lt_firstFree hj hjm

/-- The first `k` names that are picked are all names up to some number, without the taken ones. -/
theorem map_nth_range (s : FreshNames) (hnext : s.next = 0) (k : Nat) :
    (List.range k).map s.nth
      = ((List.range (s.skip k).next).map s.name).filter (· ∉ s.taken) := by
  induction k with
  | zero =>
    show _ = ((List.range s.next).map s.name).filter _
    rw [hnext]
    rfl
  | succ k ih =>
    -- The numbers that are passed on the way to the next name belong to taken names.
    obtain ⟨m, hle, hskip, hnth, hfree, hpassed⟩ := s.exists_next_number k
    rw [range_succ, map_append, ih, hskip, range_succ, map_append,
      filter_append, s.filter_range_of_taken hle hpassed]
    simp [hnth, hfree]

end FreshNames

/-! ## Binders in the order of binding -/

mutual

/-- The binders of a conjunction: its own ones, then those of its squash and its negation. -/
def Conj.binders : Conj → List Tuple
  | ⟨vars, _, _, squash, negation⟩ =>
    vars ++ Disj.bindersOption squash ++ Disj.bindersOption negation

/-- The binders of an optional disjunction. -/
def Disj.bindersOption : Option (List Conj) → List Tuple
  | none => []
  | some d => Disj.binders d

/-- The binders of a disjunction, conjunction after conjunction. -/
def Disj.binders : List Conj → List Tuple
  | [] => []
  | c :: cs => c.binders ++ Disj.binders cs

end

namespace Labels

variable {names : Nat → String}

/-- In a list without repeats the `i`-th binder has the number `k + i`. -/
theorem name_ofBinders_getElem {vs : List Tuple} (hvs : vs.Nodup) {k i : Nat} (hi : i < vs.length)
    {x : String} (hx : vs[i] = .var x) : (ofBinders names k vs).name x = names (k + i) := by
  induction vs generalizing k i with
  | nil => cases hi
  | cons v vs ih =>
    rw [nodup_cons] at hvs
    unfold name at ih ⊢
    rw [ofBinders, lookup_cons]
    cases i with
    | zero =>
      have hv : v = .var x := hx
      simp [hv]
    | succ i =>
      rw [getElem_cons_succ] at hx
      rw [length_cons] at hi
      have hmem : .var x ∈ vs := hx ▸ getElem_mem _
      have hne : (Tuple.var x == v) = false := by
        rw [beq_eq_false_iff_ne]
        exact fun heq => hvs.1 (heq ▸ hmem)
      rw [hne, ih hvs.2 (Nat.lt_of_succ_lt_succ hi) hx]
      congr 1
      omega

/-- Binders without repeats become the names from the number `k` on. -/
theorem map_tuple_binders {vs : List Tuple} (hbase : ∀ v ∈ vs, ∃ x, v = .var x) (hvs : vs.Nodup)
    (k : Nat) (σ : Labels) : vs.map (tuple (ofBinders names k vs ++ σ))
      = (List.range' k vs.length).map fun j => .var (names j) := by
  refine ext_getElem (by simp) fun i hi _ => ?_
  rw [length_map] at hi
  obtain ⟨x, hx⟩ := hbase vs[i] (getElem_mem hi)
  have hmem : .var x ∈ vs := hx ▸ getElem_mem hi
  rw [getElem_map, getElem_map, hx, tuple_var, name_bound hmem,
    name_ofBinders_getElem hvs hi hx, getElem_range', Nat.one_mul]

end Labels

mutual

/-- After a relabeling the binders are the names from the number `k` on, in the order of binding. -/
theorem Conj.binders_relabel (names : Nat → String) : (c : Conj) → c.BaseBinders → c.Distinct →
    ∀ (σ : Labels) (k : Nat), (c.relabel names σ k).binders
      = (List.range' k c.slots).map fun j => .var (names j)
  | ⟨vars, tables, preds, squash, negation⟩, hbase, .intro hnodup hnested, σ, k => by
    obtain ⟨hvars, hsquash, hnegation⟩ := hbase
    rw [Conj.relabel, Conj.mapParts, Conj.binders, Labels.map_tuple_binders hvars hnodup,
      Disj.bindersOption_relabelOption names squash hsquash fun d hd => hnested d (.inl hd),
      Disj.bindersOption_relabelOption names negation hnegation fun d hd => hnested d (.inr hd),
      ← map_append, ← map_append, Conj.slots, range'_append_1, Nat.add_assoc,
      range'_append_1]

theorem Disj.bindersOption_relabelOption (names : Nat → String) : (d : Option (List Conj)) →
    Disj.BaseBindersOption d → (∀ e, d = some e → ∀ c ∈ e, c.Distinct) → ∀ (σ : Labels) (k : Nat),
      Disj.bindersOption (Disj.relabelOption names σ k d)
        = (List.range' k (Disj.slotsOption d)).map fun j => .var (names j)
  | none, _, _, _, _ => rfl
  | some d, hbase, hdistinct, σ, k => Disj.binders_relabel names d hbase (hdistinct d rfl) σ k

theorem Disj.binders_relabel (names : Nat → String) : (d : List Conj) → Disj.BaseBinders d →
    (∀ c ∈ d, c.Distinct) → ∀ (σ : Labels) (k : Nat), Disj.binders (Disj.relabel names σ k d)
      = (List.range' k (Disj.slots d)).map fun j => .var (names j)
  | [], _, _, _, _ => rfl
  | c :: cs, hbase, hdistinct, σ, k => by
    rw [Disj.relabel, Disj.binders,
      Conj.binders_relabel names c hbase.1 (hdistinct c mem_cons_self),
      Disj.binders_relabel names cs hbase.2 fun e he => hdistinct e (mem_cons_of_mem _ he),
      ← map_append, range'_append_1, Disj.slots]

end

/-! ## A relabeling changes names only -/

namespace Labels

variable {names : Nat → String} {R : Pairing} {σ : Labels}

theorem fold_tuple (σ : Labels) (t : Tuple) : (σ.tuple t).fold = t.rename σ.name := by
  unfold tuple Tuple.fold
  split
  · next hempty =>
    rw [List.isEmpty_iff.mp hempty]
    rfl
  · exact Tuple.rename_rename σ.name id t

/-- An expression is like the one with its new names, if the names correspond. -/
theorem alike_tuple {t : Tuple} (h : ∀ x, t.uses (.var x) = true → R x (σ.name x)) :
    t.Alike R (σ.tuple t) := by
  unfold Tuple.Alike
  rw [fold_tuple]
  exact Tuple.renamed_rename t h

theorem alike_mapTable {a : TableAtom} (h : ∀ x, a.row.uses (.var x) = true → R x (σ.name x)) :
    a.Alike R (a.mapTuple σ.tuple) :=
  ⟨rfl, alike_tuple h⟩

theorem alike_mapPred {p : PredAtom}
    (h : ∀ t ∈ p.tuples, ∀ x, t.uses (.var x) = true → R x (σ.name x)) :
    p.Alike R (p.mapTuple σ.tuple) := by
  cases p with
  | pred n args =>
    refine .pred n (forall₂_map_right_iff.mpr (forall₂_same.mpr fun t ht => ?_))
    exact alike_tuple (h t ht)
  | eq l r =>
    exact .eq (alike_tuple (h l (mem_pair.mpr (.inl rfl))))
      (alike_tuple (h r (mem_pair.mpr (.inr rfl))))

/-- Below binders the old and the new name of a variable correspond: those of a binder by its place,
and the others since no binder gets their name. -/
theorem Apart.bind_name {c : Conj} {k : Nat} (hvars : ∀ v ∈ c.vars, ∃ x, v = .var x)
    (h : Apart (fun x => c.Free x) names k σ) (hR : ∀ x, c.Free x → R x (σ.name x)) {x : String}
    (hx : c.Inside x) :
    R.bind (c.vars.zip (c.vars.map (tuple (ofBinders names k c.vars ++ σ)))) x
      (name (ofBinders names k c.vars ++ σ) x) := by
  rcases hx.mem_or_free with hmem | hfree
  · obtain ⟨i, hi, heq⟩ := getElem_of_mem hmem
    refine .inl (mem_of_getElem (i := i) (h := by simpa using hi) ?_)
    rw [getElem_zip, getElem_map, heq, tuple_var]
  · have hunbound := (Conj.free_iff.mp hfree).1
    rw [name_unbound hunbound]
    refine .inr ⟨?_, ?_, hR x hfree⟩
    · rw [map_fst_zip (by simp)]
      exact hunbound
    · -- A new binder with the name would capture the variable.
      rw [map_snd_zip (by simp)]
      intro hcaptured
      obtain ⟨j, hj, hname⟩ := exists_name_of_mem_map hvars hcaptured
      exact h x hfree j hj hname

end Labels

mutual

/-- A relabeling leads to a conjunction that is alike. -/
theorem Conj.alike_relabel {names : Nat → String} (hnames : Function.Injective names) :
    (c : Conj) → c.BaseBinders → ∀ {R : Pairing} {σ : Labels} {k : Nat},
      Labels.Apart (fun x => c.Free x) names k σ → (∀ x, c.Free x → R x (σ.name x)) →
        c.Alike R (c.relabel names σ k)
  | ⟨vars, tables, preds, squash, negation⟩, hbase, R, σ, k, h, hR => by
    have hname := fun x => h.bind_name (x := x) hbase.1 hR
    have hbelow := (h.bind hnames vars).mono
      (fun x hx => Conj.Inside.mem_or_free (c := ⟨vars, tables, preds, squash, negation⟩) hx)
      (Nat.le_refl _)
    rw [Conj.relabel, Conj.mapParts]
    refine Conj.alike_iff_exists_order.mpr ⟨_, .refl _, by simp, ?_, ?_, ?_, ?_⟩
    · refine rel_of_forall₂ (forall₂_map_right_iff.mpr (forall₂_same.mpr fun a ha => ?_))
      refine Labels.alike_mapTable fun x hx => hname x (.inl ⟨a.row, ?_, hx⟩)
      exact Conj.mem_tuples.mpr (.inl ⟨a, ha, rfl⟩)
    · refine rel_of_forall₂ (forall₂_map_right_iff.mpr (forall₂_same.mpr fun p hp => ?_))
      refine Labels.alike_mapPred fun t ht x hx => hname x (.inl ⟨t, ?_, hx⟩)
      exact Conj.mem_tuples.mpr (.inr ⟨p, hp, ht⟩)
    · exact Disj.alike_relabelOption hnames squash hbase.2.1
        (hbelow.mono (fun x hx => .inr (.inl hx)) (Nat.le_refl _)) fun x hx =>
          hname x (.inr (.inl hx))
    · exact Disj.alike_relabelOption hnames negation hbase.2.2
        (hbelow.mono (fun x hx => .inr (.inr hx)) (Nat.le_add_right _ _)) fun x hx =>
          hname x (.inr (.inr hx))

theorem Disj.alike_relabelOption {names : Nat → String} (hnames : Function.Injective names) :
    (d : Option (List Conj)) → Disj.BaseBindersOption d → ∀ {R : Pairing} {σ : Labels} {k : Nat},
      Labels.Apart (fun x => Disj.FreeOption x d) names k σ →
        (∀ x, Disj.FreeOption x d → R x (σ.name x)) →
          Disj.AlikeOption R d (Disj.relabelOption names σ k d)
  | none, _, _, _, _, _, _ => .none
  | some d, hbase, _, _, _, h, hR => .some (Disj.alike_relabel hnames d hbase h hR)

theorem Disj.alike_relabel {names : Nat → String} (hnames : Function.Injective names) :
    (d : List Conj) → Disj.BaseBinders d → ∀ {R : Pairing} {σ : Labels} {k : Nat},
      Labels.Apart (fun x => Disj.Free x d) names k σ → (∀ x, Disj.Free x d → R x (σ.name x)) →
        Disj.Alike R d (Disj.relabel names σ k d)
  | [], _, _, _, _, _, _ => .nil
  | c :: cs, hbase, _, _, k, h, hR =>
    .cons (.refl _)
      (Conj.alike_relabel hnames c hbase.1 (h.mono (fun _ hx => .inl hx) (Nat.le_refl k))
        fun x hx => hR x (.inl hx))
      (Disj.alike_relabel hnames cs hbase.2 (h.mono (fun _ hx => .inr hx) (Nat.le_add_right k _))
        fun x hx => hR x (.inr hx))

end

/-! ## Names that were there before do not matter -/

mutual

/-- The same expression over equal variables. -/
theorem Tuple.Renamed.eq {t t' : Tuple} : t.Renamed Eq t' → t = t'
  | .var h => congrArg Tuple.var h
  | .const _ => rfl
  | .attr h a => congrArg (Tuple.attr · a) h.eq
  | .call f h => congrArg (Tuple.call f) h.eq

theorem Tuple.RenamedAll.eq {ts ts' : List Tuple} : Tuple.RenamedAll Eq ts ts' → ts = ts'
  | .nil => rfl
  | .cons h hs => by rw [h.eq, hs.eq]

end

namespace Labels

variable {names : Nat → String} {R : Pairing} {σ τ : Labels}

/-- Corresponding variables have the same label. -/
structure Corresponds (R : Pairing) (σ τ : Labels) : Prop where
  empty : σ = [] ↔ τ = []
  name_eq : ∀ x y, R x y → σ.name x = τ.name y

namespace Corresponds

theorem tuple_eq (h : Corresponds R σ τ) {t t' : Tuple} (ht : t.Renamed R t') :
    σ.tuple t = τ.tuple t' := by
  unfold tuple
  by_cases hempty : σ = []
  · -- Without labels only equal variables correspond.
    have hτ := h.empty.mp hempty
    subst hempty hτ
    exact (ht.mono fun x y hxy => h.name_eq x y hxy).eq
  · have hσ : σ.isEmpty = false := by simpa using hempty
    have hτ : τ.isEmpty = false := by simpa using mt h.empty.mpr hempty
    simp only [hσ, hτ, Bool.false_eq_true, if_false]
    exact ht.rename_eq fun x y _ _ hxy => h.name_eq x y hxy

theorem mapTable_eq (h : Corresponds R σ τ) {a b : TableAtom} (hab : a.Renamed R b) :
    a.mapTuple σ.tuple = b.mapTuple τ.tuple := by
  unfold TableAtom.mapTuple
  rw [hab.name, h.tuple_eq hab.row]

theorem mapPred_eq (h : Corresponds R σ τ) {p q : PredAtom} (hpq : p.Renamed R q) :
    p.mapTuple σ.tuple = q.mapTuple τ.tuple := by
  cases hpq with
  | pred n hargs =>
    exact congrArg (PredAtom.pred n) (map_eq_map_of_forall₂ hargs fun _ _ => h.tuple_eq)
  | eq hl hr => rw [PredAtom.mapTuple, PredAtom.mapTuple, h.tuple_eq hl, h.tuple_eq hr]

/-- Binders at the same place have the same number. -/
theorem bind (h : Corresponds R σ τ) (k : Nat) {vs ws : List Tuple} (hlen : vs.length = ws.length)
    (hvs : vs.Nodup) (hws : ws.Nodup) : Corresponds (R.bind (vs.zip ws))
      (ofBinders names k vs ++ σ) (ofBinders names k ws ++ τ) := by
  refine ⟨?_, fun x y hxy => ?_⟩
  · cases vs with
    | nil =>
      obtain rfl : ws = [] := length_eq_zero_iff.mp hlen.symm
      exact h.empty
    | cons v vs =>
      cases ws with
      | nil => cases hlen
      | cons w ws => simp [ofBinders]
  · rcases hxy with hpair | ⟨hx, hy, hxy⟩
    · -- Partners are at one place of the two lists, so they have the same number.
      obtain ⟨i, hi, heq⟩ := getElem_of_mem hpair
      rw [getElem_zip] at heq
      obtain ⟨hxi, hyi⟩ := Prod.mk.inj heq
      rw [name_bound (hxi ▸ getElem_mem _), name_bound (hyi ▸ getElem_mem _),
        name_ofBinders_getElem hvs _ hxi, name_ofBinders_getElem hws _ hyi]
    · rw [map_fst_zip hlen.le] at hx
      rw [map_snd_zip hlen.ge] at hy
      rw [name_unbound hx, name_unbound hy]
      exact h.name_eq x y hxy

end Corresponds

end Labels

mutual

theorem Conj.Renamed.slots_eq {R : Pairing} {c c' : Conj} : c.Renamed R c' → c.slots = c'.slots
  | .intro vars _ _ squash negation => by
    rw [Conj.slots_eq c, Conj.slots_eq c', vars, squash.slots_eq, negation.slots_eq]

theorem Disj.RenamedOption.slots_eq {R : Pairing} {d d' : Option (List Conj)} :
    Disj.RenamedOption R d d' → Disj.slotsOption d = Disj.slotsOption d'
  | .none => rfl
  | .some h => h.slots_eq

theorem Disj.Renamed.slots_eq {R : Pairing} {d d' : List Conj} :
    Disj.Renamed R d d' → Disj.slots d = Disj.slots d'
  | .nil => rfl
  | .cons head tail => by rw [Disj.slots, Disj.slots, head.slots_eq, tail.slots_eq]

end

mutual

/-- Conjunctions that differ in their bound variables only get the same names. -/
theorem Conj.Renamed.relabel_eq (names : Nat → String) {R : Pairing} {c c' : Conj} :
    c.Renamed R c' → c.WellNamed → c'.WellNamed → ∀ {σ τ : Labels} {k : Nat},
      Labels.Corresponds R σ τ → c.relabel names σ k = c'.relabel names τ k
  | .intro vars tables preds squash negation, hc, hc', σ, τ, k, h => by
    -- Nothing moves, so every part is compared with the one at its place.
    have hbelow : Labels.Corresponds (R.bind (c.vars.zip c'.vars))
        (Labels.ofBinders names k c.vars ++ σ) (Labels.ofBinders names k c'.vars ++ τ) :=
      h.bind k vars hc.nodup hc'.nodup
    rw [Conj.relabel_eq names σ, Conj.relabel_eq names τ, Conj.mapParts, Conj.mapParts,
      Labels.map_tuple_binders hc.vars hc.nodup, Labels.map_tuple_binders hc'.vars hc'.nodup, vars,
      map_eq_map_of_forall₂ tables fun _ _ => hbelow.mapTable_eq,
      map_eq_map_of_forall₂ preds fun _ _ => hbelow.mapPred_eq,
      squash.relabel_eq names (fun d hd => hc.nested (.inl hd)) (fun d hd => hc'.nested (.inl hd))
        hbelow,
      negation.relabel_eq names (fun d hd => hc.nested (.inr hd))
        (fun d hd => hc'.nested (.inr hd)) hbelow, squash.slots_eq]

theorem Disj.RenamedOption.relabel_eq (names : Nat → String) {R : Pairing}
    {d d' : Option (List Conj)} : Disj.RenamedOption R d d' →
      (∀ e, d = some e → Disj.WellNamed e) → (∀ e, d' = some e → Disj.WellNamed e) →
        ∀ {σ τ : Labels} {k : Nat}, Labels.Corresponds R σ τ →
          Disj.relabelOption names σ k d = Disj.relabelOption names τ k d'
  | .none, _, _, _, _, _, _ => rfl
  | .some h, hd, hd', _, _, _, hlabels =>
    congrArg some (h.relabel_eq names (hd _ rfl) (hd' _ rfl) hlabels)

theorem Disj.Renamed.relabel_eq (names : Nat → String) {R : Pairing} {d d' : List Conj} :
    Disj.Renamed R d d' → Disj.WellNamed d → Disj.WellNamed d' → ∀ {σ τ : Labels} {k : Nat},
      Labels.Corresponds R σ τ → Disj.relabel names σ k d = Disj.relabel names τ k d'
  | .nil, _, _, _, _, _, _ => rfl
  | .cons head tail, hd, hd', σ, τ, k, h => by
    rw [Disj.relabel, Disj.relabel,
      head.relabel_eq names (hd _ mem_cons_self) (hd' _ mem_cons_self) h,
      head.slots_eq, tail.relabel_eq names (fun e he => hd e (mem_cons_of_mem _ he))
        (fun e he => hd' e (mem_cons_of_mem _ he)) h]

end

/-! ## Canonical names -/

namespace Disj

variable {d e : Disj}

namespace WellNamed

theorem base (h : d.WellNamed) : BaseBinders d :=
  baseBinders_iff.mpr fun c hc => (h c hc).base

theorem plain (h : d.WellNamed) : PlainNames (Disj.uses d) :=
  plainNames_iff.mpr fun c hc => (h c hc).plain

theorem renameBound (h : d.WellNamed) : d.renameBound.WellNamed := by
  intro c hc
  refine ⟨baseBinders_iff.mp (baseBinders_renameBound h.base h.plain) c hc, ?_,
    plainNames_iff.mp (plainNames_renameBound h.base h.plain) c hc⟩
  rw [renameBound_eq_relabel h.base h.plain] at hc
  obtain ⟨e, he, k, rfl⟩ := mem_relabel _ hc
  exact (h e he).distinct.relabel d.canonicalNames.nth_injective (h e he).base _ _

end WellNamed

/-- Canonical naming changes names only. -/
theorem alike_renameBound (h : d.WellNamed) : Disj.Alike Eq d d.renameBound := by
  rw [renameBound_eq_relabel h.base h.plain]
  exact alike_relabel d.canonicalNames.nth_injective d h.base (apart_canonicalNames d)
    fun _ _ => rfl

/-- The binders get the canonical names in the order of binding. -/
theorem binders_renameBound (h : d.WellNamed) : Disj.binders d.renameBound
    = ((List.range (slots d)).map d.canonicalNames.nth).map .var := by
  rw [renameBound_eq_relabel h.base h.plain,
    binders_relabel _ d h.base fun c hc => (h c hc).distinct, ← range_eq_range', map_map]
  rfl

/-- Naming gives the same for disjunctions that differ in their bound variables only. -/
theorem Renamed.renameBound_eq (h : Disj.Renamed Eq d e) (hd : d.WellNamed) (he : e.WellNamed) :
    e.renameBound = d.renameBound := by
  have hfree : ∀ x, x ∈ d.freeNames ↔ x ∈ e.freeNames := by
    intro x
    rw [mem_freeNames, mem_freeNames]
    exact h.alike.free_iff
  -- The same names are free, so the two supplies skip the same names.
  have hnames : d.canonicalNames.nth = e.canonicalNames.nth := FreshNames.nth_congr rfl rfl hfree
  rw [renameBound_eq_relabel hd.base hd.plain, renameBound_eq_relabel he.base he.plain, ← hnames]
  exact (h.relabel_eq d.canonicalNames.nth hd he ⟨Iff.rfl, fun _ _ hxy => congrArg _ hxy⟩).symm

/-- **Canonical renaming is capture-free and canonical.** Let binders be variables without repeats
inside one list, and no name start with `#`; inner binders may hide outer ones. Then the renamed
disjunction is isomorphic to the original one. Its binders are pairwise distinct and different from
the free variables, and in the order of binding they are `x0, x1, …` without the names of free
variables. Disjunctions that differ in the names of bound variables only get the same result. -/
theorem renameBound_canonical (hd : d.WellNamed) :
    d.renameBound.isIsomorphic d = true ∧
      (Disj.binders d.renameBound).Nodup ∧
      (∀ v ∈ Disj.binders d.renameBound,
        v ∉ d.toTerm.freeVars ∧ v ∉ d.renameBound.toTerm.freeVars) ∧
      (∃ n, Disj.binders d.renameBound
        = (((List.range n).map fun i => "x" ++ i.repr).filter (· ∉ d.freeNames)).map .var) ∧
      ∀ e : Disj, e.WellNamed → Disj.Renamed Eq d e → e.renameBound = d.renameBound := by
  have hbinders := binders_renameBound hd
  have halike := alike_renameBound hd
  refine ⟨?_, ?_, fun v hv => ?_, ?_, fun e he h => h.renameBound_eq hd he⟩
  · exact (isIsomorphic_iff hd.renameBound hd).mpr (halike.symm.mono fun _ _ h => h.symm)
  · rw [hbinders]
    refine ((nodup_range).map d.canonicalNames.nth_injective).map ?_
    exact fun _ _ => Tuple.var.inj
  · rw [hbinders] at hv
    obtain ⟨x, hx, rfl⟩ := mem_map.mp hv
    obtain ⟨j, -, rfl⟩ := mem_map.mp hx
    have hfree : ¬ Disj.Free (d.canonicalNames.nth j) d := fun hfree =>
      d.canonicalNames.nth_not_mem_taken j (mem_freeNames.mpr hfree)
    rw [var_mem_freeVars, var_mem_freeVars, ← halike.free_iff]
    exact ⟨hfree, hfree⟩
  · refine ⟨(d.canonicalNames.skip (slots d)).next, ?_⟩
    rw [hbinders, d.canonicalNames.map_nth_range rfl]
    rfl

/-- `Sum{a}(R(a) * p(a, x1) * ||Sum{a}(S(a) * [a = x1])||)`: the inner binder hides the outer one,
and one of the canonical names is free. -/
def hidingBinder : Disj :=
  [⟨[.var "a"], [⟨"R", .var "a"⟩], [.pred "p" [.var "a", .var "x1"]],
    some [⟨[.var "a"], [⟨"S", .var "a"⟩], [.eq (.var "a") (.var "x1")], none, none⟩], none⟩]

/-- `Sum{x2}(R(x2) * p(x2, x1) * ||Sum{b}(S(b) * [b = x1])||)`. -/
def distinctBinder : Disj :=
  [⟨[.var "x2"], [⟨"R", .var "x2"⟩], [.pred "p" [.var "x2", .var "x1"]],
    some [⟨[.var "b"], [⟨"S", .var "b"⟩], [.eq (.var "b") (.var "x1")], none, none⟩], none⟩]

/-- The name of the free variable is skipped, and hiding makes no difference. -/
theorem renameBound_canonical_hiding : hidingBinder.WellNamed ∧ distinctBinder.WellNamed ∧
    Disj.Renamed Eq hidingBinder distinctBinder ∧
      Disj.binders hidingBinder.renameBound = [.var "x0", .var "x2"] ∧
      hidingBinder.renameBound.isIsomorphic hidingBinder = true ∧
      distinctBinder.renameBound = hidingBinder.renameBound := by
  have hd : hidingBinder.WellNamed := by decide
  have he : distinctBinder.WellNamed := by decide
  have hrenamed : Disj.Renamed Eq hidingBinder distinctBinder := by
    refine .cons (.intro rfl ?_ ?_ (.some (.cons (.intro rfl ?_ ?_ .none .none) .nil)) .none) .nil
    · exact .cons ⟨rfl, .var (.inl (by decide))⟩ .nil
    · refine .cons (.pred "p" (.cons (.var (.inl (by decide))) (.cons (.var (.inr ?_)) .nil))) .nil
      exact ⟨by decide, by decide, rfl⟩
    · exact .cons ⟨rfl, .var (.inl (by decide))⟩ .nil
    · refine .cons (.eq (.var (.inl (by decide))) (.var (.inr ⟨by decide, by decide, ?_⟩))) .nil
      exact .inr ⟨by decide, by decide, rfl⟩
  obtain ⟨hiso, -, -, -, hsame⟩ := renameBound_canonical hd
  exact ⟨hd, he, hrenamed, by decide +kernel, hiso, hsame distinctBinder he hrenamed⟩

end Disj

end QueryRules
