import Mathlib.Tactic.Common
import QueryRules.NormalForm.Binders
import QueryRules.Proofs.Freshness

/-!
# QueryRules — naming bound variables by their places

`Disj.renameWith` renames binders one after the other. Here the same is done at once: binders are
numbered in the order in which they are bound, and the binder with the number `k` gets the `k`-th
name, in its own scope only (`Disj.relabel`).
-/

namespace QueryRules

open List

/-! ## Renaming variables -/

namespace Tuple

mutual

/-- Rename every variable. Projections are rebuilt, so they fold as they do under `Tuple.subst`. -/
def rename (f : String → String) : Tuple → Tuple
  | .var x => .var (f x)
  | .const c => .const c
  | .attr base a => (base.rename f).project a
  | .call g args => .call g (renameAll f args)

/-- Rename every variable of a list of tuples. -/
def renameAll (f : String → String) : List Tuple → List Tuple
  | [] => []
  | t :: ts => t.rename f :: renameAll f ts

end

mutual

/-- Substituting a variable for a variable is renaming. -/
theorem subst_var_eq_rename (v n : String) : (t : Tuple) →
    t.subst (.var v) (.var n) = t.rename fun x => if x = v then n else x
  | .var x => by
    by_cases h : x = v
    · simp [subst, rename, h]
    · simp [subst, rename, h]
  | .const c => by simp [subst, rename]
  | .attr base a => by simp [subst, rename, subst_var_eq_rename v n base]
  | .call g args => by simp [subst, rename, substAll_var_eq_renameAll v n args]

theorem substAll_var_eq_renameAll (v n : String) : (ts : List Tuple) →
    substAll ts (.var v) (.var n) = renameAll (fun x => if x = v then n else x) ts
  | [] => rfl
  | t :: ts => by
    rw [substAll, renameAll, subst_var_eq_rename v n t, substAll_var_eq_renameAll v n ts]

end

theorem rename_project (f : String → String) (t : Tuple) (a : String) :
    (t.project a).rename f = (t.rename f).project a := by
  by_cases h : t = null
  · subst h
    rfl
  · rw [project, if_neg h, rename]

mutual

theorem rename_rename (f g : String → String) : (t : Tuple) →
    (t.rename f).rename g = t.rename (g ∘ f)
  | .var x => rfl
  | .const c => rfl
  | .attr base a => by rw [rename, rename_project, rename_rename f g base, rename]
  | .call h args => by rw [rename, rename, renameAll_renameAll f g args, rename]

theorem renameAll_renameAll (f g : String → String) : (ts : List Tuple) →
    renameAll g (renameAll f ts) = renameAll (g ∘ f) ts
  | [] => rfl
  | t :: ts => by
    rw [renameAll, renameAll, rename_rename f g t, renameAll_renameAll f g ts, renameAll]

end

mutual

/-- Only the names of the variables that occur matter. -/
theorem rename_congr {f g : String → String} : (t : Tuple) →
    (∀ x, t.uses (.var x) = true → f x = g x) → t.rename f = t.rename g
  | .var x, h => by rw [rename, rename, h x (by simp [uses])]
  | .const c, _ => rfl
  | .attr base a, h => by
    rw [rename, rename, rename_congr base fun x hx => h x (by simp [uses, hx])]
  | .call k args, h => by
    rw [rename, rename, renameAll_congr args fun x hx => h x (by simp [uses, hx])]

theorem renameAll_congr {f g : String → String} : (ts : List Tuple) →
    (∀ x, anyUses ts (.var x) = true → f x = g x) → renameAll f ts = renameAll g ts
  | [], _ => rfl
  | t :: ts, h => by
    rw [renameAll, renameAll, rename_congr t fun x hx => h x (by simp [anyUses, hx]),
      renameAll_congr ts fun x hx => h x (by simp [anyUses, hx])]

end

theorem uses_project_var (t : Tuple) (a x : String) :
    (t.project a).uses (.var x) = t.uses (.var x) := by
  by_cases h : t = null
  · rw [project, if_pos h]
  · rw [project, if_neg h]
    simp [uses]

mutual

/-- The variables after a renaming are the renamed ones. -/
theorem uses_rename {f : String → String} {y : String} : (t : Tuple) →
    ((t.rename f).uses (.var y) = true ↔ ∃ x, t.uses (.var x) = true ∧ f x = y)
  | .var x => by simp [rename, uses]
  | .const c => by simp [rename, uses]
  | .attr base a => by
    rw [rename, uses_project_var, uses_rename base]
    simp [uses]
  | .call k args => by
    rw [rename]
    simp [uses, anyUses_renameAll args]

theorem anyUses_renameAll {f : String → String} {y : String} : (ts : List Tuple) →
    (anyUses (renameAll f ts) (.var y) = true ↔ ∃ x, anyUses ts (.var x) = true ∧ f x = y)
  | [] => by simp [renameAll, anyUses]
  | t :: ts => by
    rw [renameAll, anyUses, Bool.or_eq_true, uses_rename t, anyUses_renameAll ts]
    simp only [anyUses, Bool.or_eq_true, or_and_right, exists_or]

end

end Tuple

/-! ## Atoms -/

/-- The atom with another row. -/
def TableAtom.mapTuple (f : Tuple → Tuple) (a : TableAtom) : TableAtom :=
  { a with row := f a.row }

namespace PredAtom

/-- The arguments of an atom. -/
def tuples : PredAtom → List Tuple
  | .pred _ args => args
  | .eq l r => [l, r]

/-- The atom with other arguments. -/
def mapTuple (f : Tuple → Tuple) : PredAtom → PredAtom
  | .pred n args => .pred n (args.map f)
  | .eq l r => .eq (f l) (f r)

theorem tuples_mapTuple (f : Tuple → Tuple) (p : PredAtom) :
    (p.mapTuple f).tuples = p.tuples.map f := by
  cases p <;> rfl

theorem mapTuple_mapTuple (f g : Tuple → Tuple) (p : PredAtom) :
    (p.mapTuple f).mapTuple g = p.mapTuple (g ∘ f) := by
  cases p with
  | pred n args => simp [mapTuple]
  | eq l r => rfl

theorem mapTuple_congr {f g : Tuple → Tuple} {p : PredAtom} (h : ∀ t ∈ p.tuples, f t = g t) :
    p.mapTuple f = p.mapTuple g := by
  cases p with
  | pred n args => exact congrArg (PredAtom.pred n) (map_congr_left h)
  | eq l r =>
    rw [mapTuple, mapTuple, h l mem_cons_self, h r (mem_cons_of_mem _ mem_cons_self)]

theorem uses_iff {v : Tuple} {p : PredAtom} :
    p.uses v = true ↔ ∃ t ∈ p.tuples, t.uses v = true := by
  have hany : ∀ ts : List Tuple, Tuple.anyUses ts v = true ↔ ∃ t ∈ ts, t.uses v = true := by
    intro ts
    induction ts with
    | nil => simp [Tuple.anyUses]
    | cons t ts ih => simp [Tuple.anyUses, ih]
  cases p with
  | pred n args => exact hany args
  | eq l r => simp [uses, tuples]

end PredAtom

namespace Conj

/-- The rows and arguments of the atoms of a conjunction. -/
def tuples (c : Conj) : List Tuple :=
  c.tables.map TableAtom.row ++ c.preds.flatMap PredAtom.tuples

/-- The conjunction with other binders, rows and arguments, and other nested disjunctions. -/
def mapParts (f : Tuple → Tuple) (squash negation : Option Disj) (c : Conj) : Conj :=
  ⟨c.vars.map f, c.tables.map (TableAtom.mapTuple f), c.preds.map (PredAtom.mapTuple f), squash,
    negation⟩

theorem tuples_mapParts (f : Tuple → Tuple) (squash negation : Option Disj) (c : Conj) :
    (c.mapParts f squash negation).tuples = c.tuples.map f := by
  simp only [tuples, mapParts, map_map, map_append, flatMap_map, map_flatMap,
    PredAtom.tuples_mapTuple]
  rfl

theorem mapParts_mapParts (f g : Tuple → Tuple) (squash negation squash' negation' : Option Disj)
    (c : Conj) :
    (c.mapParts f squash negation).mapParts g squash' negation'
      = c.mapParts (g ∘ f) squash' negation' := by
  simp only [mapParts, map_map]
  congr 1
  exact map_congr_left fun p _ => PredAtom.mapTuple_mapTuple f g p

theorem mapParts_congr {f g : Tuple → Tuple} {squash negation : Option Disj} {c : Conj}
    (hvars : ∀ v ∈ c.vars, f v = g v) (htuples : ∀ t ∈ c.tuples, f t = g t) :
    c.mapParts f squash negation = c.mapParts g squash negation := by
  have htables : c.tables.map (TableAtom.mapTuple f) = c.tables.map (TableAtom.mapTuple g) := by
    refine map_congr_left fun a ha => ?_
    have hrow := htuples a.row (mem_append_left _ (mem_map_of_mem ha))
    rw [TableAtom.mapTuple, TableAtom.mapTuple, hrow]
  have hpreds : c.preds.map (PredAtom.mapTuple f) = c.preds.map (PredAtom.mapTuple g) := by
    refine map_congr_left fun p hp => PredAtom.mapTuple_congr fun t ht => ?_
    exact htuples t (mem_append_right _ (mem_flatMap.mpr ⟨p, hp, ht⟩))
  rw [mapParts, mapParts, map_congr_left hvars, htables, hpreds]

end Conj

/-! ## Labels -/

/-- Variables in scope with their new names. Of several entries for a variable the first one
counts. -/
abbrev Labels := List (Tuple × String)

variable {x : String}

namespace Labels

/-- The new name of a variable; a variable without an entry keeps its name. -/
def name (σ : Labels) (x : String) : String :=
  (σ.lookup (.var x)).getD x

/-- A tuple with its new names. Without any variable in scope it is left as it is. -/
def tuple (σ : Labels) (t : Tuple) : Tuple :=
  if σ.isEmpty then t else t.rename σ.name

/-- The entries of binders that are numbered from `k` on. -/
def ofBinders (names : Nat → String) : (k : Nat) → List Tuple → Labels
  | _, [] => []
  | k, v :: vs => (v, names k) :: ofBinders names (k + 1) vs

theorem name_cons (a n : String) (σ : Labels) (x : String) :
    name ((.var a, n) :: σ) x = if x = a then n else σ.name x := by
  unfold name
  rw [lookup_cons]
  by_cases h : x = a
  · simp [h]
  · have hne : (Tuple.var x == Tuple.var a) = false := by simpa using h
    rw [hne, if_neg h]

/-- Labels in front hide those behind. -/
theorem name_append (σ τ : Labels) (x : String) :
    name (σ ++ τ) x = if .var x ∈ σ.map Prod.fst then σ.name x else τ.name x := by
  induction σ with
  | nil => simp
  | cons p σ ih =>
    unfold name at ih ⊢
    rw [cons_append, lookup_cons, lookup_cons]
    by_cases h : Tuple.var x = p.1
    · simp [h]
    · have hne : (Tuple.var x == p.1) = false := by simpa using h
      simp only [hne, map_cons, mem_cons, h, false_or]
      exact ih

theorem name_of_not_mem {σ : Labels} (h : .var x ∉ σ.map Prod.fst) :
    σ.name x = x := by
  have hnone := name_append σ [] x
  rw [append_nil, if_neg h] at hnone
  exact hnone

theorem map_fst_ofBinders (names : Nat → String) (k : Nat) (vs : List Tuple) :
    (ofBinders names k vs).map Prod.fst = vs := by
  induction vs generalizing k with
  | nil => rfl
  | cons v vs ih => rw [ofBinders, map_cons, ih]

/-- The name of a binder is one of those from its number on. -/
theorem exists_name_ofBinders (names : Nat → String) (k : Nat) {vs : List Tuple} {x : String}
    (h : .var x ∈ vs) :
    ∃ j, k ≤ j ∧ j < k + vs.length ∧ (ofBinders names k vs).name x = names j := by
  induction vs generalizing k with
  | nil => cases h
  | cons v vs ih =>
    unfold name
    rw [ofBinders, lookup_cons, length_cons]
    by_cases hv : Tuple.var x = v
    · refine ⟨k, by omega, by omega, ?_⟩
      simp [hv]
    · have hne : (Tuple.var x == v) = false := by simpa using hv
      obtain ⟨j, hj, hlt, hname⟩ := ih (k + 1) ((mem_cons.mp h).resolve_left hv)
      refine ⟨j, by omega, by omega, ?_⟩
      rw [hne]
      exact hname

/-- Different binders get different names. -/
theorem name_ofBinders_inj {names : Nat → String} (hnames : Function.Injective names) {k : Nat}
    {vs : List Tuple} {x y : String} (hx : .var x ∈ vs) (hy : .var y ∈ vs)
    (h : (ofBinders names k vs).name x = (ofBinders names k vs).name y) : x = y := by
  induction vs generalizing k with
  | nil => cases hx
  | cons v vs ih =>
    -- A binder that is not the first one has a later name.
    have hlater : ∀ {z}, .var z ∈ v :: vs → .var z ≠ v →
        .var z ∈ vs ∧
          (ofBinders names k (v :: vs)).name z = (ofBinders names (k + 1) vs).name z := by
      intro z hz hne
      refine ⟨(mem_cons.mp hz).resolve_left hne, ?_⟩
      have hneq : (Tuple.var z == v) = false := by simpa using hne
      unfold name
      rw [ofBinders, lookup_cons, hneq]
    have hfirst : ∀ {z}, .var z = v → (ofBinders names k (v :: vs)).name z = names k := by
      intro z hz
      unfold name
      rw [ofBinders, lookup_cons]
      simp [hz]
    have happart : ∀ {z}, .var z ∈ v :: vs → .var z ≠ v →
        (ofBinders names k (v :: vs)).name z ≠ names k := by
      intro z hz hne heq
      obtain ⟨hmem, hname⟩ := hlater hz hne
      obtain ⟨j, hj, -, hname'⟩ := exists_name_ofBinders names (k + 1) hmem
      have hjk : j = k := hnames (hname'.symm.trans (hname.symm.trans heq))
      omega
    by_cases hxv : .var x = v
    · by_cases hyv : .var y = v
      · exact Tuple.var.inj (hxv.trans hyv.symm)
      · rw [hfirst hxv] at h
        exact absurd h.symm (happart hy hyv)
    · by_cases hyv : .var y = v
      · rw [hfirst hyv] at h
        exact absurd h (happart hx hxv)
      · obtain ⟨hxm, hxn⟩ := hlater hx hxv
        obtain ⟨hym, hyn⟩ := hlater hy hyv
        rw [hxn, hyn] at h
        exact ih hxm hym h

end Labels

/-! ## Relabeling -/

mutual

/-- How many binders a conjunction has, at all levels. -/
def Conj.slots : Conj → Nat
  | ⟨vars, _, _, squash, negation⟩ =>
    vars.length + Disj.slotsOption squash + Disj.slotsOption negation

/-- How many binders an optional disjunction has. -/
def Disj.slotsOption : Option (List Conj) → Nat
  | none => 0
  | some d => Disj.slots d

/-- How many binders a disjunction has. -/
def Disj.slots : List Conj → Nat
  | [] => 0
  | c :: cs => c.slots + Disj.slots cs

end

mutual

/-- Name the binders of a conjunction by their numbers, which start with `k`. The variables bound
around it have their names in `σ`. -/
def Conj.relabel (names : Nat → String) : (σ : Labels) → (k : Nat) → Conj → Conj
  | σ, k, ⟨vars, tables, preds, squash, negation⟩ =>
    Conj.mapParts (Labels.tuple (Labels.ofBinders names k vars ++ σ))
      (Disj.relabelOption names (Labels.ofBinders names k vars ++ σ) (k + vars.length) squash)
      (Disj.relabelOption names (Labels.ofBinders names k vars ++ σ)
        (k + vars.length + Disj.slotsOption squash) negation)
      ⟨vars, tables, preds, squash, negation⟩

/-- Name the binders of an optional disjunction by their numbers. -/
def Disj.relabelOption (names : Nat → String) : (σ : Labels) → (k : Nat) →
    Option (List Conj) → Option (List Conj)
  | _, _, none => none
  | σ, k, some d => some (Disj.relabel names σ k d)

/-- Name the binders of a disjunction by their numbers. -/
def Disj.relabel (names : Nat → String) : (σ : Labels) → (k : Nat) → List Conj → List Conj
  | _, _, [] => []
  | σ, k, c :: cs => Conj.relabel names σ k c :: Disj.relabel names σ (k + c.slots) cs

end

mutual

/-- Whether a variable occurs in an atom of a conjunction and is not bound there. -/
def Conj.Free (x : String) : Conj → Prop
  | ⟨vars, tables, preds, squash, negation⟩ =>
    .var x ∉ vars ∧ ((∃ t ∈ Conj.tuples ⟨vars, tables, preds, squash, negation⟩,
      t.uses (.var x) = true) ∨ Disj.FreeOption x squash ∨ Disj.FreeOption x negation)

/-- Whether a variable is free in an optional disjunction. -/
def Disj.FreeOption (x : String) : Option (List Conj) → Prop
  | none => False
  | some d => Disj.Free x d

/-- Whether a variable is free in some conjunction of a disjunction. -/
def Disj.Free (x : String) : List Conj → Prop
  | [] => False
  | c :: cs => c.Free x ∨ Disj.Free x cs

end

/-- Whether a variable occurs below the binders of a conjunction and is not bound there. -/
def Conj.Inside (x : String) (c : Conj) : Prop :=
  (∃ t ∈ c.tuples, t.uses (.var x) = true) ∨ Disj.FreeOption x c.squash ∨
    Disj.FreeOption x c.negation

variable {c : Conj}

theorem Conj.free_iff : c.Free x ↔ .var x ∉ c.vars ∧ c.Inside x := by
  obtain ⟨vars, tables, preds, squash, negation⟩ := c
  exact Iff.rfl

theorem Conj.Inside.mem_or_free (h : c.Inside x) :
    .var x ∈ c.vars ∨ c.Free x := by
  by_cases hmem : .var x ∈ c.vars
  · exact .inl hmem
  · exact .inr (Conj.free_iff.mpr ⟨hmem, h⟩)

mutual

theorem Conj.slots_relabel (names : Nat → String) : (c : Conj) → ∀ (σ : Labels) (k : Nat),
    (c.relabel names σ k).slots = c.slots
  | ⟨vars, tables, preds, squash, negation⟩, σ, k => by
    rw [Conj.relabel, Conj.mapParts, Conj.slots, Conj.slots, length_map,
      Disj.slotsOption_relabelOption names squash, Disj.slotsOption_relabelOption names negation]

theorem Disj.slotsOption_relabelOption (names : Nat → String) : (d : Option (List Conj)) →
    ∀ (σ : Labels) (k : Nat), Disj.slotsOption (Disj.relabelOption names σ k d) = Disj.slotsOption d
  | none, _, _ => rfl
  | some d, σ, k => Disj.slots_relabel names d σ k

theorem Disj.slots_relabel (names : Nat → String) : (d : List Conj) → ∀ (σ : Labels) (k : Nat),
    Disj.slots (Disj.relabel names σ k d) = Disj.slots d
  | [], _, _ => rfl
  | c :: cs, σ, k => by
    rw [Disj.relabel, Disj.slots, Disj.slots, Conj.slots_relabel names c,
      Disj.slots_relabel names cs]

end

mutual

/-- Every binder of a conjunction is a variable, at all levels. -/
def Conj.BaseBinders : Conj → Prop
  | ⟨vars, _, _, squash, negation⟩ =>
    (∀ v ∈ vars, ∃ x, v = .var x) ∧ Disj.BaseBindersOption squash ∧
      Disj.BaseBindersOption negation

/-- Every binder of an optional disjunction is a variable. -/
def Disj.BaseBindersOption : Option (List Conj) → Prop
  | none => True
  | some d => Disj.BaseBinders d

/-- Every binder of a disjunction is a variable. -/
def Disj.BaseBinders : List Conj → Prop
  | [] => True
  | c :: cs => c.BaseBinders ∧ Disj.BaseBinders cs

end

/-! ## Two relabelings in a row -/

variable {vars : List Tuple}

namespace Labels

variable {names names' : Nat → String} {k : Nat} {σ τ ρ : Labels}

theorem tuple_var (σ : Labels) (x : String) : σ.tuple (.var x) = .var (σ.name x) := by
  unfold tuple
  split
  · next hempty =>
    rw [List.isEmpty_iff.mp hempty]
    rfl
  · rfl

/-- Entries for images are found where those for the binders themselves are. -/
theorem name_ofBinders_map {f : Tuple → Tuple} {vs : List Tuple} {x y : String}
    (h : ∀ v ∈ vs, f v = .var y ↔ v = .var x) (hx : .var x ∈ vs) :
    (ofBinders names k (vs.map f)).name y = (ofBinders names k vs).name x := by
  induction vs generalizing k with
  | nil => cases hx
  | cons v vs ih =>
    unfold name at ih ⊢
    rw [map_cons, ofBinders, ofBinders, lookup_cons, lookup_cons]
    by_cases hv : v = .var x
    · have hfv := (h v mem_cons_self).mpr hv
      rw [hfv, hv]
      simp
    · have hfv : f v ≠ .var y := fun heq => hv ((h v mem_cons_self).mp heq)
      have hne : (Tuple.var x == v) = false := by simpa using fun heq => hv heq.symm
      have hne' : (Tuple.var y == f v) = false := by simpa using fun heq => hfv heq.symm
      rw [hne, hne']
      exact ih (fun v hv => h v (mem_cons_of_mem _ hv))
        ((mem_cons.mp hx).resolve_left fun heq => hv heq.symm)

/-- The name of a variable that is bound here. -/
theorem name_bound (h : .var x ∈ vars) (σ : Labels) :
    name (ofBinders names k vars ++ σ) x = (ofBinders names k vars).name x := by
  rw [name_append, map_fst_ofBinders, if_pos h]

/-- The name of a variable that is not bound here. -/
theorem name_unbound (h : .var x ∉ vars) (σ : Labels) :
    name (ofBinders names k vars ++ σ) x = σ.name x := by
  rw [name_append, map_fst_ofBinders, if_neg h]

/-- The variables in `free` have none of the names from the number `k` on. -/
def Apart (free : String → Prop) (names : Nat → String) (k : Nat) (σ : Labels) : Prop :=
  ∀ x, free x → ∀ j, k ≤ j → σ.name x ≠ names j

theorem Apart.mono {free free' : String → Prop} {k' : Nat} (h : Apart free names k σ)
    (hfree : ∀ x, free' x → free x) (hk : k ≤ k') : Apart free' names k' σ :=
  fun x hx j hj => h x (hfree x hx) j (Nat.le_trans hk hj)

/-- Under the binders the labels stay apart, from the next names on. -/
theorem Apart.bind (hnames : Function.Injective names) {free : String → Prop}
    (h : Apart free names k σ) (vars : List Tuple) :
    Apart (fun x => .var x ∈ vars ∨ free x) names (k + vars.length)
      (ofBinders names k vars ++ σ) := by
  intro x hx j hj
  by_cases hmem : .var x ∈ vars
  · obtain ⟨i, -, hlt, hname⟩ := exists_name_ofBinders names k hmem
    rw [name_bound hmem, hname]
    intro heq
    have hij := hnames heq
    omega
  · rw [name_unbound hmem]
    exact h x (hx.resolve_left hmem) j (by omega)

/-- A binder has the new name of a variable only if it is this variable. -/
theorem Apart.name_inj (hnames : Function.Injective names) {free : String → Prop}
    (h : Apart free names k σ) {vars : List Tuple} {x z : String} (hx : .var x ∈ vars ∨ free x)
    (hz : .var z ∈ vars)
    (heq : name (ofBinders names k vars ++ σ) z = name (ofBinders names k vars ++ σ) x) :
    z = x := by
  rw [name_bound hz] at heq
  by_cases hmem : .var x ∈ vars
  · rw [name_bound hmem] at heq
    exact name_ofBinders_inj hnames hz hmem heq
  · obtain ⟨j, hj, -, hzj⟩ := exists_name_ofBinders names k hz
    rw [name_unbound hmem, hzj] at heq
    exact absurd heq.symm (h x (hx.resolve_left hmem) j hj)

/-- `σ` and then `τ` do what `ρ` does to the variables in `free`, and the names from the number `k`
on are not in use for them. -/
structure Composes (free : String → Prop) (names : Nat → String) (k : Nat) (σ τ ρ : Labels) :
    Prop where
  left_empty : σ = [] ↔ ρ = []
  right_empty : τ = [] ↔ ρ = []
  name_name : ∀ x, free x → τ.name (σ.name x) = ρ.name x
  apart : Apart free names k σ

namespace Composes

variable {free : String → Prop}

theorem mono (h : Composes free names k σ τ ρ) {free' : String → Prop} {k' : Nat}
    (hfree : ∀ x, free' x → free x) (hk : k ≤ k') : Composes free' names k' σ τ ρ :=
  ⟨h.left_empty, h.right_empty, fun x hx => h.name_name x (hfree x hx), h.apart.mono hfree hk⟩

/-- Two relabelings of a tuple come to one. -/
theorem tuple_tuple (h : Composes free names k σ τ ρ) {t : Tuple}
    (ht : ∀ x, t.uses (.var x) = true → free x) : τ.tuple (σ.tuple t) = ρ.tuple t := by
  unfold tuple
  by_cases hempty : ρ = []
  · rw [h.left_empty.mpr hempty, h.right_empty.mpr hempty, hempty]
    rfl
  · have hσ : σ.isEmpty = false := by simpa using mt h.left_empty.mp hempty
    have hτ : τ.isEmpty = false := by simpa using mt h.right_empty.mp hempty
    have hρ : ρ.isEmpty = false := by simpa using hempty
    simp only [hσ, hτ, hρ, Bool.false_eq_true, if_false]
    rw [Tuple.rename_rename]
    exact Tuple.rename_congr t fun x hx => h.name_name x (ht x hx)

/-- Going below binders. The binders get new names, which are different from each other and from
those in use around them; so the second labels tell them apart as the binders themselves do. -/
theorem bind (hnames : Function.Injective names) (h : Composes free names k σ τ ρ)
    (names' : Nat → String) {vars : List Tuple} (hvars : ∀ v ∈ vars, ∃ x, v = .var x) :
    Composes (fun x => .var x ∈ vars ∨ free x) names (k + vars.length)
      (ofBinders names k vars ++ σ)
      (ofBinders names' k (vars.map (tuple (ofBinders names k vars ++ σ))) ++ τ)
      (ofBinders names' k vars ++ ρ) := by
  generalize hσ' : ofBinders names k vars ++ σ = σ'
  -- A binder has the image of a variable only if it is this variable.
  have himage : ∀ x, (.var x ∈ vars ∨ free x) →
      ∀ v ∈ vars, σ'.tuple v = .var (σ'.name x) ↔ v = .var x := by
    intro x hx v hv
    obtain ⟨z, rfl⟩ := hvars v hv
    rw [tuple_var]
    constructor
    · intro heq
      have hname := Tuple.var.inj heq
      rw [← hσ'] at hname
      rw [h.apart.name_inj hnames hx hv hname]
    · intro heq
      rw [Tuple.var.inj heq]
  refine ⟨?_, ?_, fun x hx => ?_, hσ' ▸ h.apart.bind hnames vars⟩
  · subst hσ'
    cases vars with
    | nil => exact h.left_empty
    | cons v vs => simp [ofBinders]
  · cases vars with
    | nil => exact h.right_empty
    | cons v vs => simp [ofBinders]
  · by_cases hmem : .var x ∈ vars
    · have himg : .var (σ'.name x) ∈ vars.map σ'.tuple :=
        mem_map.mpr ⟨.var x, hmem, tuple_var σ' x⟩
      rw [name_bound himg, name_bound hmem]
      exact name_ofBinders_map (himage x hx) hmem
    · have himg : .var (σ'.name x) ∉ vars.map σ'.tuple := by
        intro hin
        obtain ⟨v, hv, hveq⟩ := mem_map.mp hin
        exact hmem ((himage x hx v hv).mp hveq ▸ hv)
      rw [name_unbound himg, name_unbound hmem, ← hσ', name_unbound hmem]
      exact h.name_name x (hx.resolve_left hmem)

end Composes

end Labels

section Relabeled

variable {names names' : Nat → String}

/-- What a conjunction becomes, seen from outside. -/
theorem Conj.relabel_eq (names : Nat → String) (σ : Labels) (k : Nat) (c : Conj) :
    c.relabel names σ k = c.mapParts (Labels.tuple (Labels.ofBinders names k c.vars ++ σ))
      (Disj.relabelOption names (Labels.ofBinders names k c.vars ++ σ) (k + c.vars.length) c.squash)
      (Disj.relabelOption names (Labels.ofBinders names k c.vars ++ σ)
        (k + c.vars.length + Disj.slotsOption c.squash) c.negation) := by
  obtain ⟨vars, tables, preds, squash, negation⟩ := c
  rw [Conj.relabel]

mutual

/-- Two relabelings of a conjunction in a row come to one. -/
theorem Conj.relabel_relabel (hnames : Function.Injective names) : (c : Conj) → c.BaseBinders →
    ∀ {σ τ ρ : Labels} {k : Nat}, Labels.Composes (fun x => c.Free x) names k σ τ ρ →
      (c.relabel names σ k).relabel names' τ k = c.relabel names' ρ k
  | ⟨vars, tables, preds, squash, negation⟩, hbase, σ, τ, ρ, k, h => by
    obtain ⟨hvars, hsquash, hnegation⟩ := hbase
    have hbelow := (h.bind hnames names' hvars).mono
      (fun x hx => Conj.Inside.mem_or_free (c := ⟨vars, tables, preds, squash, negation⟩) hx)
      (Nat.le_refl _)
    rw [Conj.relabel, Conj.relabel_eq names', Conj.mapParts_mapParts, Conj.relabel]
    dsimp only [Conj.mapParts]
    rw [length_map, Disj.slotsOption_relabelOption]
    rw [Disj.relabelOption_relabelOption hnames squash hsquash
        (hbelow.mono (fun x hx => .inr (.inl hx)) (Nat.le_refl _)),
      Disj.relabelOption_relabelOption hnames negation hnegation
        (hbelow.mono (fun x hx => .inr (.inr hx)) (Nat.le_add_right _ _))]
    refine Conj.mapParts_congr (c := ⟨vars, tables, preds, squash, negation⟩) (fun v hv => ?_)
      (fun t ht => ?_)
    · refine (h.bind hnames names' hvars).tuple_tuple fun x hx => .inl ?_
      obtain ⟨z, rfl⟩ := hvars v hv
      have hzx : z = x := by simpa [Tuple.uses] using hx
      exact hzx ▸ hv
    · exact hbelow.tuple_tuple fun x hx => .inl ⟨t, ht, hx⟩

theorem Disj.relabelOption_relabelOption (hnames : Function.Injective names) :
    (d : Option (List Conj)) → Disj.BaseBindersOption d →
    ∀ {σ τ ρ : Labels} {k : Nat}, Labels.Composes (fun x => Disj.FreeOption x d) names k σ τ ρ →
      Disj.relabelOption names' τ k (Disj.relabelOption names σ k d)
        = Disj.relabelOption names' ρ k d
  | none, _, _, _, _, _, _ => rfl
  | some d, hbase, _, _, _, _, h => by
    rw [Disj.relabelOption, Disj.relabelOption, Disj.relabelOption]
    exact congrArg some (Disj.relabel_relabel hnames d hbase h)

/-- Of two relabelings in a row only the second one is seen, as long as the first one captures no
free variable. -/
theorem Disj.relabel_relabel (hnames : Function.Injective names) : (d : List Conj) →
    Disj.BaseBinders d →
    ∀ {σ τ ρ : Labels} {k : Nat}, Labels.Composes (fun x => Disj.Free x d) names k σ τ ρ →
      Disj.relabel names' τ k (Disj.relabel names σ k d) = Disj.relabel names' ρ k d
  | [], _, _, _, _, _, _ => rfl
  | c :: cs, hbase, _, _, _, k, h => by
    rw [Disj.relabel, Disj.relabel, Disj.relabel, Conj.slots_relabel]
    rw [Conj.relabel_relabel hnames c hbase.1 (h.mono (fun x hx => .inl hx) (Nat.le_refl k)),
      Disj.relabel_relabel hnames cs hbase.2 (h.mono (fun x hx => .inr hx) (Nat.le_add_right k _))]

end

/-! ## Variables after a relabeling -/

theorem Labels.uses_tuple {σ : Labels} {t : Tuple} {y : String} :
    (σ.tuple t).uses (.var y) = true ↔ ∃ x, t.uses (.var x) = true ∧ σ.name x = y := by
  unfold Labels.tuple
  split
  · next hempty =>
    rw [List.isEmpty_iff.mp hempty]
    simp [Labels.name]
  · exact Tuple.uses_rename t

/-- A binder after a relabeling has one of the names. -/
theorem Labels.exists_name_of_mem_map {σ : Labels} {k : Nat}
    (hvars : ∀ v ∈ vars, ∃ x, v = .var x) {y : String}
    (h : .var y ∈ vars.map (Labels.tuple (Labels.ofBinders names k vars ++ σ))) :
    ∃ j, k ≤ j ∧ y = names j := by
  obtain ⟨v, hv, heq⟩ := mem_map.mp h
  obtain ⟨z, rfl⟩ := hvars v hv
  rw [Labels.tuple_var, Labels.name_bound hv] at heq
  obtain ⟨j, hj, -, hname⟩ := Labels.exists_name_ofBinders names k hv
  exact ⟨j, hj, (Tuple.var.inj heq).symm.trans hname⟩

/-- What is inside of a relabeled conjunction, given what is in the nested disjunctions. -/
theorem Conj.inside_relabel {σ : Labels} {k : Nat} {y : String}
    (hsquash : ∀ {y}, Disj.FreeOption y (Disj.relabelOption names
        (Labels.ofBinders names k c.vars ++ σ) (k + c.vars.length) c.squash) ↔
      ∃ x, Disj.FreeOption x c.squash ∧ Labels.name (Labels.ofBinders names k c.vars ++ σ) x = y)
    (hnegation : ∀ {y}, Disj.FreeOption y (Disj.relabelOption names
        (Labels.ofBinders names k c.vars ++ σ) (k + c.vars.length + Disj.slotsOption c.squash)
        c.negation) ↔
      ∃ x, Disj.FreeOption x c.negation ∧
        Labels.name (Labels.ofBinders names k c.vars ++ σ) x = y) :
    (c.relabel names σ k).Inside y ↔
      ∃ x, c.Inside x ∧ Labels.name (Labels.ofBinders names k c.vars ++ σ) x = y := by
  have htuples : (∃ t ∈ (c.relabel names σ k).tuples, t.uses (.var y) = true) ↔
      ∃ x, (∃ t ∈ c.tuples, t.uses (.var x) = true) ∧
        Labels.name (Labels.ofBinders names k c.vars ++ σ) x = y := by
    rw [Conj.relabel_eq, Conj.tuples_mapParts]
    simp only [mem_map, exists_exists_and_eq_and, Labels.uses_tuple]
    constructor
    · rintro ⟨t, ht, x, hx, hy⟩
      exact ⟨x, ⟨t, ht, hx⟩, hy⟩
    · rintro ⟨x, ⟨t, ht, hx⟩, hy⟩
      exact ⟨t, ht, x, hx, hy⟩
  unfold Conj.Inside
  rw [htuples, Conj.relabel_eq]
  dsimp only [Conj.mapParts]
  rw [hsquash, hnegation]
  simp only [or_and_right, exists_or]

mutual

/-- Relabeling renames free variables as the labels say. -/
theorem Conj.free_relabel (hnames : Function.Injective names) : (c : Conj) → c.BaseBinders →
    ∀ {σ : Labels} {k : Nat}, Labels.Apart (fun x => c.Free x) names k σ → ∀ {y : String},
      ((c.relabel names σ k).Free y ↔ ∃ x, c.Free x ∧ σ.name x = y)
  | ⟨vars, tables, preds, squash, negation⟩, hbase, σ, k, h, y => by
    obtain ⟨hvars, hsquash, hnegation⟩ := hbase
    have hbelow := (h.bind hnames vars).mono
      (fun x hx => Conj.Inside.mem_or_free (c := ⟨vars, tables, preds, squash, negation⟩) hx)
      (Nat.le_refl _)
    -- Below the binders nothing is captured, by induction.
    have hinside := Conj.inside_relabel (c := ⟨vars, tables, preds, squash, negation⟩) (y := y)
      (fun {_} => Disj.freeOption_relabelOption hnames squash hsquash
        (hbelow.mono (fun x hx => .inr (.inl hx)) (Nat.le_refl _)))
      (fun {_} => Disj.freeOption_relabelOption hnames negation hnegation
        (hbelow.mono (fun x hx => .inr (.inr hx)) (Nat.le_add_right _ _)))
    rw [Conj.free_iff, hinside]
    constructor
    · rintro ⟨hnot, x, hx, rfl⟩
      have hmem : .var x ∉ vars := by
        intro hmem
        refine hnot ?_
        rw [Conj.relabel]
        exact mem_map.mpr ⟨.var x, hmem, Labels.tuple_var _ x⟩
      exact ⟨x, Conj.free_iff.mpr ⟨hmem, hx⟩, (Labels.name_unbound hmem σ).symm⟩
    · rintro ⟨x, hx, rfl⟩
      obtain ⟨hmem, hin⟩ := Conj.free_iff.mp hx
      refine ⟨fun hbound => ?_, x, hin, Labels.name_unbound hmem σ⟩
      rw [Conj.relabel] at hbound
      obtain ⟨j, hj, hname⟩ := Labels.exists_name_of_mem_map hvars hbound
      exact h x hx j hj hname

theorem Disj.freeOption_relabelOption (hnames : Function.Injective names) :
    (d : Option (List Conj)) → Disj.BaseBindersOption d →
    ∀ {σ : Labels} {k : Nat}, Labels.Apart (fun x => Disj.FreeOption x d) names k σ →
      ∀ {y : String},
        (Disj.FreeOption y (Disj.relabelOption names σ k d) ↔
          ∃ x, Disj.FreeOption x d ∧ σ.name x = y)
  | none, _, _, _, _, _ => by simp [Disj.relabelOption, Disj.FreeOption]
  | some d, hbase, _, _, h, _ => Disj.free_relabel hnames d hbase h

/-- What is free after a relabeling. -/
theorem Disj.free_relabel (hnames : Function.Injective names) : (d : List Conj) →
    Disj.BaseBinders d →
    ∀ {σ : Labels} {k : Nat}, Labels.Apart (fun x => Disj.Free x d) names k σ → ∀ {y : String},
      (Disj.Free y (Disj.relabel names σ k d) ↔ ∃ x, Disj.Free x d ∧ σ.name x = y)
  | [], _, _, _, _, _ => by simp [Disj.relabel, Disj.Free]
  | c :: cs, hbase, σ, k, h, y => by
    rw [Disj.relabel, Disj.Free,
      Conj.free_relabel hnames c hbase.1 (h.mono (fun x hx => .inl hx) (Nat.le_refl k)),
      Disj.free_relabel hnames cs hbase.2 (h.mono (fun x hx => .inr hx) (Nat.le_add_right k _))]
    simp only [Disj.Free, or_and_right, exists_or]

end

/-- Occurrence in a conjunction, by its parts. -/
theorem Conj.uses_iff {v : Tuple} : c.uses v = true ↔ v ∈ c.vars ∨
    (∃ t ∈ c.tuples, t.uses v = true) ∨ Disj.usesOption c.squash v = true ∨
      Disj.usesOption c.negation v = true := by
  obtain ⟨vars, tables, preds, squash, negation⟩ := c
  have htuples : (∃ t ∈ Conj.tuples ⟨vars, tables, preds, squash, negation⟩, t.uses v = true) ↔
      tables.any (fun a => a.row.uses v) = true ∨ preds.any (PredAtom.uses v) = true := by
    simp only [Conj.tuples, mem_append, mem_map, mem_flatMap, or_and_right,
      exists_or, any_eq_true, PredAtom.uses_iff]
    refine or_congr ?_ ?_
    · constructor
      · rintro ⟨t, ⟨a, ha, rfl⟩, ht⟩
        exact ⟨a, ha, ht⟩
      · rintro ⟨a, ha, ht⟩
        exact ⟨a.row, ⟨a, ha, rfl⟩, ht⟩
    · constructor
      · rintro ⟨t, ⟨p, hp, htp⟩, ht⟩
        exact ⟨p, hp, t, htp, ht⟩
      · rintro ⟨p, hp, t, htp, ht⟩
        exact ⟨t, ⟨p, hp, htp⟩, ht⟩
  rw [htuples, Conj.uses]
  simp only [Bool.or_eq_true, decide_eq_true_eq, or_assoc]

mutual

/-- What occurs after a relabeling: new names and free variables. -/
theorem Conj.uses_relabel (names : Nat → String) : (c : Conj) → c.BaseBinders →
    ∀ {σ : Labels} {k : Nat} {y : String}, (c.relabel names σ k).uses (.var y) = true →
      (∃ j, y = names j) ∨ ∃ x, c.Free x ∧ σ.name x = y
  | ⟨vars, tables, preds, squash, negation⟩, hbase, σ, k, y, h => by
    obtain ⟨hvars, hsquash, hnegation⟩ := hbase
    -- A variable inside is bound here, or free.
    have hinside : (∃ x, Conj.Inside x ⟨vars, tables, preds, squash, negation⟩ ∧
        Labels.name (Labels.ofBinders names k vars ++ σ) x = y) →
        (∃ j, y = names j) ∨
          ∃ x, Conj.Free x ⟨vars, tables, preds, squash, negation⟩ ∧ σ.name x = y := by
      rintro ⟨x, hx, rfl⟩
      by_cases hmem : .var x ∈ vars
      · obtain ⟨j, -, -, hname⟩ := Labels.exists_name_ofBinders names k hmem
        exact .inl ⟨j, (Labels.name_bound hmem σ).trans hname⟩
      · exact .inr ⟨x, Conj.free_iff.mpr ⟨hmem, hx⟩, (Labels.name_unbound hmem σ).symm⟩
    rw [Conj.uses_iff, Conj.relabel, Conj.tuples_mapParts] at h
    dsimp only [Conj.mapParts] at h
    rcases h with h | ⟨t, ht, hty⟩ | h | h
    · obtain ⟨j, -, hname⟩ := Labels.exists_name_of_mem_map hvars h
      exact .inl ⟨j, hname⟩
    · obtain ⟨t, htc, rfl⟩ := mem_map.mp ht
      obtain ⟨x, hx, hname⟩ := Labels.uses_tuple.mp hty
      exact hinside ⟨x, .inl ⟨t, htc, hx⟩, hname⟩
    · rcases Disj.usesOption_relabelOption names squash hsquash h with hnew | ⟨x, hx, hname⟩
      · exact .inl hnew
      · exact hinside ⟨x, .inr (.inl hx), hname⟩
    · rcases Disj.usesOption_relabelOption names negation hnegation h with hnew | ⟨x, hx, hname⟩
      · exact .inl hnew
      · exact hinside ⟨x, .inr (.inr hx), hname⟩

theorem Disj.usesOption_relabelOption (names : Nat → String) : (d : Option (List Conj)) →
    Disj.BaseBindersOption d → ∀ {σ : Labels} {k : Nat} {y : String},
      Disj.usesOption (Disj.relabelOption names σ k d) (.var y) = true →
        (∃ j, y = names j) ∨ ∃ x, Disj.FreeOption x d ∧ σ.name x = y
  | none, _, _, _, _, h => absurd h Bool.false_ne_true
  | some d, hbase, _, _, _, h => Disj.uses_relabel names d hbase h

/-- What occurs after a relabeling. -/
theorem Disj.uses_relabel (names : Nat → String) : (d : List Conj) → Disj.BaseBinders d →
    ∀ {σ : Labels} {k : Nat} {y : String},
      Disj.uses (Disj.relabel names σ k d) (.var y) = true →
        (∃ j, y = names j) ∨ ∃ x, Disj.Free x d ∧ σ.name x = y
  | [], _, _, _, _, h => absurd h Bool.false_ne_true
  | c :: cs, hbase, σ, k, y, h => by
    rw [Disj.relabel, Disj.uses, Bool.or_eq_true] at h
    rcases h with h | h
    · refine (Conj.uses_relabel names c hbase.1 h).imp id ?_
      rintro ⟨x, hx, hname⟩
      exact ⟨x, .inl hx, hname⟩
    · refine (Disj.uses_relabel names cs hbase.2 h).imp id ?_
      rintro ⟨x, hx, hname⟩
      exact ⟨x, .inr hx, hname⟩

end

mutual

theorem Conj.baseBinders_relabel (names : Nat → String) : (c : Conj) → c.BaseBinders →
    ∀ (σ : Labels) (k : Nat), (c.relabel names σ k).BaseBinders
  | ⟨vars, tables, preds, squash, negation⟩, hbase, σ, k => by
    obtain ⟨hvars, hsquash, hnegation⟩ := hbase
    rw [Conj.relabel]
    refine ⟨fun v hv => ?_, Disj.baseBindersOption_relabelOption names squash hsquash _ _,
      Disj.baseBindersOption_relabelOption names negation hnegation _ _⟩
    obtain ⟨w, hw, rfl⟩ := mem_map.mp hv
    obtain ⟨x, rfl⟩ := hvars w hw
    exact ⟨_, Labels.tuple_var _ x⟩

theorem Disj.baseBindersOption_relabelOption (names : Nat → String) : (d : Option (List Conj)) →
    Disj.BaseBindersOption d → ∀ (σ : Labels) (k : Nat),
      Disj.BaseBindersOption (Disj.relabelOption names σ k d)
  | none, _, _, _ => trivial
  | some d, hbase, σ, k => Disj.baseBinders_relabel names d hbase σ k

theorem Disj.baseBinders_relabel (names : Nat → String) : (d : List Conj) → Disj.BaseBinders d →
    ∀ (σ : Labels) (k : Nat), Disj.BaseBinders (Disj.relabel names σ k d)
  | [], _, _, _ => trivial
  | c :: cs, hbase, σ, k =>
    ⟨Conj.baseBinders_relabel names c hbase.1 σ k, Disj.baseBinders_relabel names cs hbase.2 σ _⟩

end

end Relabeled

end QueryRules
