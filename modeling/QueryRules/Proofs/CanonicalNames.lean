import QueryRules.Proofs.IsomorphismSoundness
import QueryRules.Proofs.Relabeling

/-!
# QueryRules — canonical names are stable

`Disj.renameBound` renames binders one after the other, level by level, first to tags and then to
`x0, x1, …`. On a disjunction in which no variable has the name of a tag it is a single relabeling,
and a second one changes nothing.
-/

variable {names : Nat → String}

namespace QueryRules

open List

/-! ## Names in the order in which they are picked -/

namespace FreshNames

/-- The supply after `k` names were picked. -/
def skip (s : FreshNames) : Nat → FreshNames
  | 0 => s
  | k + 1 => (s.skip k).pick.2

/-- The name that is picked after `k` others. -/
def nth (s : FreshNames) (k : Nat) : String :=
  (s.skip k).pick.1

theorem stem_skip (s : FreshNames) (k : Nat) : (s.skip k).stem = s.stem := by
  induction k with
  | zero => rfl
  | succ k ih => exact ih

theorem taken_skip (s : FreshNames) (k : Nat) : (s.skip k).taken = s.taken := by
  induction k with
  | zero => rfl
  | succ k ih => exact ih

/-- A picked name is the stem with a number. -/
theorem exists_nth_eq (s : FreshNames) (k : Nat) : ∃ n, s.nth k = s.stem ++ Nat.repr n := by
  refine ⟨(s.skip k).firstFree (s.skip k).taken.length (s.skip k).next, ?_⟩
  rw [← s.stem_skip k]
  rfl

theorem nth_not_mem_taken (s : FreshNames) (k : Nat) : s.nth k ∉ s.taken := by
  intro h
  rw [← s.taken_skip k] at h
  exact (s.skip k).pick_not_reserved (.inl h)

/-- Two places have two names. -/
theorem nth_injective (s : FreshNames) : Function.Injective s.nth := by
  -- A name stays reserved once it was picked.
  have hkept : ∀ j d, (s.skip (j + 1 + d)).Reserved (s.nth j) := by
    intro j d
    induction d with
    | zero => exact (s.skip j).reserved_pick
    | succ d ih => exact ih.pick
  have hlt : ∀ {j k}, j < k → s.nth j ≠ s.nth k := by
    intro j k hjk heq
    obtain ⟨d, rfl⟩ : ∃ d, k = j + 1 + d := ⟨k - (j + 1), by omega⟩
    have hres := hkept j d
    rw [heq] at hres
    exact (s.skip (j + 1 + d)).pick_not_reserved hres
  intro j k heq
  rcases Nat.lt_trichotomy j k with h | h | h
  · exact absurd heq (hlt h)
  · exact h
  · exact absurd heq.symm (hlt h)

/-- The numbers that a search passes belong to taken names. -/
theorem mem_taken_of_lt_firstFree (s : FreshNames) {tries n k : Nat} (hn : n ≤ k)
    (hk : k < s.firstFree tries n) : s.name k ∈ s.taken := by
  induction tries generalizing n with
  | zero =>
    rw [firstFree] at hk
    omega
  | succ tries ih =>
    rw [firstFree] at hk
    split at hk
    · next hmem =>
      rcases Nat.eq_or_lt_of_le hn with rfl | hlt
      · exact hmem
      · exact ih hlt hk
    · omega

/-- Two supplies that avoid the same names pick the same number. -/
theorem firstFree_congr {s s' : FreshNames} (hstem : s.stem = s'.stem)
    (htaken : ∀ x, x ∈ s.taken ↔ x ∈ s'.taken) (n : Nat) :
    s.firstFree s.taken.length n = s'.firstFree s'.taken.length n := by
  have hname : ∀ j, s.name j = s'.name j := by
    intro j
    unfold name
    rw [hstem]
  refine Nat.le_antisymm ?_ ?_
  · by_contra hlt
    refine s'.firstFree_not_mem n ((htaken _).mp ?_)
    rw [← hname]
    exact s.mem_taken_of_lt_firstFree (s'.le_firstFree _ n) (Nat.lt_of_not_le hlt)
  · by_contra hlt
    refine s.firstFree_not_mem n ((htaken _).mpr ?_)
    rw [hname]
    exact s'.mem_taken_of_lt_firstFree (s.le_firstFree _ n) (Nat.lt_of_not_le hlt)

/-- Two supplies that avoid the same names give the same names. -/
theorem nth_congr {s s' : FreshNames} (hstem : s.stem = s'.stem) (hnext : s.next = s'.next)
    (htaken : ∀ x, x ∈ s.taken ↔ x ∈ s'.taken) : s.nth = s'.nth := by
  have hnumber : ∀ k, (s.skip k).next = (s'.skip k).next → (s.skip k).firstFree
      (s.skip k).taken.length (s.skip k).next
        = (s'.skip k).firstFree (s'.skip k).taken.length (s'.skip k).next := by
    intro k heq
    rw [heq]
    refine firstFree_congr ?_ (fun x => ?_) _
    · rw [stem_skip, stem_skip, hstem]
    · rw [taken_skip, taken_skip]
      exact htaken x
  have hskip : ∀ k, (s.skip k).next = (s'.skip k).next := by
    intro k
    induction k with
    | zero => exact hnext
    | succ k ih => exact congrArg (· + 1) (hnumber k ih)
  funext k
  show (s.skip k).stem ++ Nat.repr _ = (s'.skip k).stem ++ Nat.repr _
  rw [stem_skip, stem_skip, hstem, hnumber k (hskip k)]

end FreshNames

/-! ## One binder after the other -/

namespace Labels

/-- Replace the variables of a tuple one after the other. -/
def substTuple (σ : Labels) (t : Tuple) : Tuple :=
  σ.foldl (fun t p => t.subst p.1 (.var p.2)) t

/-- Variables that are none of the new names, with new names. -/
def Serial (names : Nat → String) (σ : Labels) : Prop :=
  ∀ p ∈ σ, (∃ x, p.1 = .var x ∧ ∀ j, x ≠ names j) ∧ ∃ j, p.2 = names j

/-- Replacing one after the other is renaming at once: no new name is replaced again. -/
theorem substTuple_eq_tuple {σ : Labels} (h : σ.Serial names) (t : Tuple) :
    σ.substTuple t = σ.tuple t := by
  induction σ generalizing t with
  | nil => rfl
  | cons p σ ih =>
    obtain ⟨a, n⟩ := p
    have hσ : Serial names σ := fun q hq => h q (mem_cons_of_mem _ hq)
    obtain ⟨⟨x, rfl, -⟩, i, hi⟩ := h _ mem_cons_self
    -- A new name is no variable that is replaced, so it does not matter that the rest comes later.
    have hkept : name σ n = n := by
      refine name_of_not_mem fun hmem => ?_
      obtain ⟨q, hq, hqn⟩ := mem_map.mp hmem
      obtain ⟨⟨y, hy, hnew⟩, -⟩ := hσ q hq
      rw [hqn] at hy
      exact hnew i ((Tuple.var.inj hy).symm.trans hi)
    show substTuple σ (t.subst (.var x) (.var n)) = _
    rw [ih hσ, Tuple.subst_var_eq_rename]
    unfold tuple
    rw [if_neg (by simp : ¬ List.isEmpty ((Tuple.var x, n) :: σ) = true)]
    split
    · next hempty =>
      rw [List.isEmpty_iff.mp hempty]
      refine Tuple.rename_congr t fun y _ => ?_
      rw [name_cons]
      rfl
    · rw [Tuple.rename_rename]
      refine Tuple.rename_congr t fun y _ => ?_
      rw [name_cons]
      show name σ (if y = x then n else y) = _
      by_cases hyx : y = x
      · rw [if_pos hyx, if_pos hyx, hkept]
      · rw [if_neg hyx, if_neg hyx]

/-- The same names for all variables. -/
structure Agree (σ τ : Labels) : Prop where
  empty : σ = [] ↔ τ = []
  name_eq : ∀ x, σ.name x = τ.name x

theorem Agree.tuple_eq {σ τ : Labels} (h : Agree σ τ) (t : Tuple) : σ.tuple t = τ.tuple t := by
  unfold tuple
  by_cases hempty : τ = []
  · rw [h.empty.mpr hempty, hempty]
  · have hσ : σ.isEmpty = false := by simpa using mt h.empty.mp hempty
    have hτ : τ.isEmpty = false := by simpa using hempty
    simp only [hσ, hτ, Bool.false_eq_true, if_false]
    exact Tuple.rename_congr t fun x _ => h.name_eq x

/-- Labels of other variables do not matter for a name. -/
theorem name_filter {vars : List Tuple} {x : String} (hx : .var x ∉ vars) (σ : Labels) :
    name (σ.filter fun p => p.1 ∉ vars) x = name σ x := by
  induction σ with
  | nil => rfl
  | cons p σ ih =>
    unfold name at ih ⊢
    by_cases hp : p.1 ∈ vars
    · have hne : (Tuple.var x == p.1) = false := by
        rw [beq_eq_false_iff_ne]
        exact fun heq => hx (heq ▸ hp)
      rw [filter_cons_of_neg (by simpa using hp), ih, lookup_cons, hne]
    · rw [filter_cons_of_pos (by simpa using hp), lookup_cons, lookup_cons]
      split
      · rfl
      · exact ih

/-- The replacements that reach the inside of a conjunction with the binders `vars`: those from
around it, except for variables that are bound anew, and then those of the binders. -/
def enter (σ : Labels) (names : Nat → String) (k : Nat) (vars : List Tuple) : Labels :=
  σ.filter (fun p => p.1 ∉ vars) ++ ofBinders names k vars

/-- Dropping the entries of the variables that are bound anew and adding those of the binders at the
end does what adding the latter in front does. -/
theorem Agree.bind {σ τ : Labels} (h : Agree σ τ) (names : Nat → String) (k : Nat)
    (vars : List Tuple) : Agree (σ.enter names k vars) (ofBinders names k vars ++ τ) := by
  unfold enter
  refine ⟨?_, fun x => ?_⟩
  · cases vars with
    | nil => simpa [ofBinders] using h.empty
    | cons v vs => simp [ofBinders]
  · rw [name_append]
    by_cases hmem : .var x ∈ vars
    · have hnot : .var x ∉ (σ.filter fun p => p.1 ∉ vars).map Prod.fst := by
        intro hin
        obtain ⟨p, hp, hpx⟩ := mem_map.mp hin
        have hpv := of_decide_eq_true (mem_filter.mp hp).2
        rw [hpx] at hpv
        exact hpv hmem
      rw [if_neg hnot, name_bound hmem]
    · rw [name_unbound hmem, ← h.name_eq x, ← name_filter hmem σ]
      by_cases hin : .var x ∈ (σ.filter fun p => p.1 ∉ vars).map Prod.fst
      · rw [if_pos hin]
      · rw [if_neg hin, name_of_not_mem hin, name_of_not_mem]
        rw [map_fst_ofBinders]
        exact hmem

end Labels

/-! ## Replacing variables -/

theorem Disj.subst_eq_map (d : Disj) (source image : Tuple) : Disj.subst d source image
    = d.map fun c => if source ∈ c.vars then c else c.subst source image := by
  induction d with
  | nil => rfl
  | cons c cs ih => rw [Disj.subst, ih, map_cons]

theorem Disj.substOption_eq_map (d : Option Disj) (source image : Tuple) :
    Disj.substOption d source image = d.map fun e => Disj.subst e source image := by
  cases d with
  | none | some e => rfl

variable {c : Conj}

namespace Conj

/-- Replace a variable in a conjunction, unless it is bound there. -/
def substFree (c : Conj) (p : Tuple × String) : Conj :=
  if p.1 ∈ c.vars then c else c.subst p.1 (.var p.2)

/-- Replace variables in an optional disjunction one after the other. -/
def substNested (σ : Labels) (d : Option Disj) : Option Disj :=
  d.map (List.map fun c => σ.foldl substFree c)

theorem substOption_eq (d : Option Disj) (p : Tuple × String) :
    Disj.substOption d p.1 (.var p.2) = substNested [p] d := by
  rw [Disj.substOption_eq_map]
  simp only [Disj.subst_eq_map]
  rfl

theorem substNested_substNested (σ τ : Labels) (d : Option Disj) :
    substNested τ (substNested σ d) = substNested (σ ++ τ) d := by
  cases d with
  | none => rfl
  | some d => simp [substNested, foldl_append]

/-- One replacement, below binders that are variables. -/
theorem subst_eq_mapParts (hvars : ∀ v ∈ c.vars, ∃ x, v = .var x)
    (p : Tuple × String) : c.subst p.1 (.var p.2)
      = c.mapParts (Tuple.subst · p.1 (.var p.2)) (substNested [p] c.squash)
        (substNested [p] c.negation) := by
  obtain ⟨vars, tables, preds, squash, negation⟩ := c
  have hbinders : vars.map (fun v => if v = p.1 then .var p.2 else v)
      = vars.map (Tuple.subst · p.1 (.var p.2)) := by
    refine map_congr_left fun v hv => ?_
    obtain ⟨x, rfl⟩ := hvars v hv
    rw [Tuple.subst]
  have hpreds : preds.map (PredAtom.subst p.1 (.var p.2))
      = preds.map (PredAtom.mapTuple (Tuple.subst · p.1 (.var p.2))) := by
    refine map_congr_left fun q _ => ?_
    cases q with
    | pred n args => rw [PredAtom.subst, Tuple.substAll_eq_map, PredAtom.mapTuple]
    | eq l r => rfl
  rw [subst, substOption_eq, substOption_eq, hbinders, hpreds]
  rfl

theorem mapParts_nil (c : Conj) :
    c.mapParts (Labels.substTuple []) (substNested [] c.squash) (substNested [] c.negation) =
      c := by
  obtain ⟨vars, tables, preds, squash, negation⟩ := c
  have hnested : ∀ d : Option Disj, substNested [] d = d := by
    intro d
    cases d with
    | none => rfl
    | some d => exact congrArg some (map_id d)
  have hpreds : preds.map (PredAtom.mapTuple (Labels.substTuple [])) = preds := by
    refine (map_congr_left fun q _ => ?_).trans (map_id preds)
    cases q with
    | pred n args => exact congrArg (PredAtom.pred n) (map_id args)
    | eq l r => rfl
  have hvars : vars.map (Labels.substTuple []) = vars := map_id vars
  have htables : tables.map (TableAtom.mapTuple (Labels.substTuple [])) = tables :=
    map_id tables
  rw [mapParts, hnested, hnested, hpreds, hvars, htables]

/-- Replacements one after the other, below binders that are variables. -/
theorem foldl_subst {σ : Labels} (hvars : ∀ v ∈ c.vars, ∃ x, v = .var x) :
    σ.foldl (fun c p => c.subst p.1 (.var p.2)) c
      = c.mapParts σ.substTuple (substNested σ c.squash) (substNested σ c.negation) := by
  induction σ generalizing c with
  | nil => exact (mapParts_nil c).symm
  | cons p σ ih =>
    have hvars' : ∀ v ∈ (c.subst p.1 (.var p.2)).vars, ∃ x, v = .var x := by
      intro v hv
      rw [subst_eq_mapParts hvars] at hv
      obtain ⟨w, hw, rfl⟩ := mem_map.mp hv
      obtain ⟨x, rfl⟩ := hvars w hw
      rw [Tuple.subst]
      split
      · exact ⟨_, rfl⟩
      · exact ⟨_, rfl⟩
    rw [foldl_cons, ih hvars', subst_eq_mapParts hvars, mapParts_mapParts]
    dsimp only [mapParts]
    rw [substNested_substNested, substNested_substNested]
    rfl

theorem vars_substFree (c : Conj) (p : Tuple × String) : (c.substFree p).vars = c.vars := by
  obtain ⟨vars, tables, preds, squash, negation⟩ := c
  rw [substFree]
  split
  · rfl
  · next hp =>
    refine (map_congr_left fun v hv => ?_).trans (map_id vars)
    have hne : v ≠ p.1 := by
      rintro rfl
      exact hp hv
    exact if_neg hne

/-- Replacements that stop at binders leave out those of the bound variables. -/
theorem foldl_substFree (σ : Labels) (c : Conj) : σ.foldl substFree c
    = (σ.filter fun p => p.1 ∉ c.vars).foldl (fun c p => c.subst p.1 (.var p.2)) c := by
  induction σ generalizing c with
  | nil => rfl
  | cons p σ ih =>
    have hvars := vars_substFree c p
    rw [foldl_cons, ih, hvars, substFree]
    by_cases hp : p.1 ∈ c.vars
    · rw [filter_cons_of_neg (by simpa using hp), if_pos hp]
    · rw [filter_cons_of_pos (by simpa using hp), if_neg hp, foldl_cons]

theorem vars_foldl_substFree (σ : Labels) (c : Conj) : (σ.foldl substFree c).vars = c.vars := by
  induction σ generalizing c with
  | nil => rfl
  | cons p σ ih => rw [foldl_cons, ih, vars_substFree]

/-- Renaming binders is replacing them one after the other, by the next names. -/
theorem run_renameBinders (s : FreshNames) (olds : List Tuple) (k : Nat) (c : Conj) :
    (c.renameBinders olds).run (s.skip k)
      = ((Labels.ofBinders s.nth k olds).foldl (fun c p => c.subst p.1 (.var p.2)) c,
        s.skip (k + olds.length)) := by
  induction olds generalizing k c with
  | nil => rfl
  | cons old olds ih =>
    have hstep : (c.renameBinders (old :: olds)).run (s.skip k)
        = ((c.subst old (.var (s.nth k))).renameBinders olds).run (s.skip (k + 1)) := rfl
    rw [hstep, ih, length_cons, Labels.ofBinders, foldl_cons, Nat.add_right_comm,
      Nat.add_assoc]

end Conj

/-! ## All levels -/

mutual

/-- Rename the binders of a conjunction, which are numbered from `k` on, one after the other and
after the replacements `σ` from around it. -/
def Conj.renameInTurn (names : Nat → String) : (σ : Labels) → (k : Nat) → Conj → Conj
  | σ, k, ⟨vars, tables, preds, squash, negation⟩ =>
    Conj.mapParts (Labels.substTuple (σ.enter names k vars))
      (Disj.renameInTurnOption names (σ.enter names k vars) (k + vars.length) squash)
      (Disj.renameInTurnOption names (σ.enter names k vars)
        (k + vars.length + Disj.slotsOption squash) negation)
      ⟨vars, tables, preds, squash, negation⟩

/-- Rename the binders of an optional disjunction one after the other. -/
def Disj.renameInTurnOption (names : Nat → String) : (σ : Labels) → (k : Nat) →
    Option (List Conj) → Option (List Conj)
  | _, _, none => none
  | σ, k, some d => some (Disj.renameInTurn names σ k d)

/-- Rename the binders of a disjunction one after the other. -/
def Disj.renameInTurn (names : Nat → String) : (σ : Labels) → (k : Nat) → List Conj → List Conj
  | _, _, [] => []
  | σ, k, c :: cs =>
    Conj.renameInTurn names σ k c :: Disj.renameInTurn names σ (k + c.slots) cs

end

/-- What a conjunction becomes, seen from outside. -/
theorem Conj.renameInTurn_eq (names : Nat → String) (σ : Labels) (k : Nat) (c : Conj) :
    c.renameInTurn names σ k = c.mapParts (Labels.substTuple (σ.enter names k c.vars))
      (Disj.renameInTurnOption names (σ.enter names k c.vars) (k + c.vars.length) c.squash)
      (Disj.renameInTurnOption names (σ.enter names k c.vars)
        (k + c.vars.length + Disj.slotsOption c.squash) c.negation) := by
  obtain ⟨vars, tables, preds, squash, negation⟩ := c
  rw [Conj.renameInTurn]

variable {s : FreshNames} {step : Conj → StateM FreshNames Conj}

/-- Working through a list of conjunctions numbers their binders one after the other. -/
theorem Disj.run_mapM {g : Conj → Conj}
    {σ : Labels} {d : Disj} (h : ∀ c ∈ d, ∀ k, (step (g c)).run (s.skip k)
      = (c.renameInTurn s.nth σ k, s.skip (k + c.slots))) (k : Nat) :
    ((d.map g).mapM step).run (s.skip k)
      = (Disj.renameInTurn s.nth σ k d, s.skip (k + Disj.slots d)) := by
  induction d generalizing k with
  | nil => rfl
  | cons c cs ih =>
    rw [map_cons, mapM_cons, StateT.run_bind, h c mem_cons_self k]
    have hrest := ih (fun c hc => h c (mem_cons_of_mem _ hc)) (k + c.slots)
    show StateT.run (do let cs ← (cs.map g).mapM step; pure (_ :: cs)) _ = _
    rw [StateT.run_bind, hrest, Disj.renameInTurn, Disj.slots, ← Nat.add_assoc]
    rfl

/-- What is nested takes the names that come next, part by part. -/
theorem Disj.run_mapM_option
    {g : Conj → Conj} {σ : Labels} {d : Option Disj}
    (h : ∀ e, d = some e → ∀ c ∈ e, ∀ k, (step (g c)).run (s.skip k)
      = (c.renameInTurn s.nth σ k, s.skip (k + c.slots))) (k : Nat) :
    ((d.map (List.map g)).mapM (List.mapM step)).run (s.skip k)
      = (Disj.renameInTurnOption s.nth σ k d, s.skip (k + Disj.slotsOption d)) := by
  cases d with
  | none => rfl
  | some d =>
    have hlist := Disj.run_mapM (h d rfl) k
    show StateT.run (some <$> (d.map g).mapM step) _ = _
    rw [StateT.run_map, hlist]
    rfl

theorem Disj.baseBinders_iff {d : Disj} : Disj.BaseBinders d ↔ ∀ c ∈ d, c.BaseBinders := by
  induction d with
  | nil => simp [Disj.BaseBinders]
  | cons c cs ih => rw [Disj.BaseBinders, ih, forall_mem_cons]

theorem Disj.uses_iff {d : Disj} {v : Tuple} :
    Disj.uses d v = true ↔ ∃ c ∈ d, c.uses v = true := by
  induction d with
  | nil => simp [Disj.uses]
  | cons c cs ih => simp [Disj.uses, ih]

/-- Nested conjunctions are less deep. -/
theorem Conj.depth_lt {c e : Conj} {d : Disj} (hd : c.squash = some d ∨ c.negation = some d)
    (he : e ∈ d) : e.depth < c.depth := by
  have hlist : ∀ d : Disj, e ∈ d → e.depth ≤ Disj.depth d := by
    intro d
    induction d with
    | nil => exact fun he => absurd he not_mem_nil
    | cons c cs ih =>
      intro he
      rw [Disj.depth]
      rcases mem_cons.mp he with rfl | he
      · exact Nat.le_max_left _ _
      · exact Nat.le_trans (ih he) (Nat.le_max_right _ _)
  have hdepth := hlist d he
  obtain ⟨vars, tables, preds, squash, negation⟩ := c
  rw [Conj.depth]
  rcases hd with rfl | rfl
  · exact Nat.lt_of_lt_of_le (Nat.lt_succ_of_le hdepth) (Nat.le_max_left _ _)
  · exact Nat.lt_of_lt_of_le (Nat.lt_succ_of_le hdepth) (Nat.le_max_right _ _)

theorem Conj.BaseBinders.vars (h : c.BaseBinders) : ∀ v ∈ c.vars, ∃ x, v = .var x := by
  obtain ⟨vars, tables, preds, squash, negation⟩ := c
  exact h.1

theorem Conj.BaseBinders.nested (h : c.BaseBinders) {d : Disj}
    (hd : c.squash = some d ∨ c.negation = some d) : ∀ e ∈ d, e.BaseBinders := by
  obtain ⟨vars, tables, preds, squash, negation⟩ := c
  rcases hd with rfl | rfl
  · exact Disj.baseBinders_iff.mp h.2.1
  · exact Disj.baseBinders_iff.mp h.2.2

/-- The binders of one conjunction, after those around it. -/
theorem Conj.run_step (hvars : ∀ v ∈ c.vars, ∃ x, v = .var x)
    (σ : Labels) (k : Nat) :
    ((σ.foldl substFree c).renameBinders (σ.foldl substFree c).vars).run (s.skip k)
      = (c.mapParts (Labels.substTuple (σ.enter s.nth k c.vars))
          (substNested (σ.enter s.nth k c.vars) c.squash)
          (substNested (σ.enter s.nth k c.vars) c.negation),
        s.skip (k + c.vars.length)) := by
  rw [vars_foldl_substFree, run_renameBinders, foldl_substFree, ← foldl_append,
    foldl_subst hvars]
  rfl

/-- A descent runs its step, then what is nested, in this order. -/
theorem Conj.run_descend_succ {levels : Nat}
    {c c₁ : Conj} {s s₁ s₂ s₃ : FreshNames} {squash negation : Option Disj}
    (hstep : (step c).run s = (c₁, s₁))
    (hsquash : (c₁.squash.mapM (List.mapM (Conj.descend step levels))).run s₁ = (squash, s₂))
    (hnegation : (c₁.negation.mapM (List.mapM (Conj.descend step levels))).run s₂
      = (negation, s₃)) :
    (c.descend step (levels + 1)).run s
      = (⟨c₁.vars, c₁.tables, c₁.preds, squash, negation⟩, s₃) := by
  rw [Conj.descend, StateT.run_bind, hstep]
  refine (StateT.run_bind _ _ _).trans ?_
  rw [hsquash]
  refine (StateT.run_bind _ _ _).trans ?_
  rw [hnegation]
  rfl

theorem Conj.slots_eq (c : Conj) :
    c.slots = c.vars.length + Disj.slotsOption c.squash + Disj.slotsOption c.negation := by
  obtain ⟨vars, tables, preds, squash, negation⟩ := c
  rfl

/-- The renaming of a conjunction, after that of the binders around it. Induction on the levels
below; each level finds the replacements of the outer binders made already. -/
theorem Conj.run_descend (levels : Nat) : ∀ (c : Conj), c.BaseBinders →
    c.depth ≤ levels → ∀ (σ : Labels) (k : Nat),
      ((σ.foldl Conj.substFree c).descend (fun c => c.renameBinders c.vars) levels).run (s.skip k)
        = (c.renameInTurn s.nth σ k, s.skip (k + c.slots)) := by
  induction levels with
  | zero =>
    intro c hc hdepth σ k
    rw [Conj.descend, Conj.run_step hc.vars, Conj.renameInTurn_eq]
    -- Nothing is nested.
    obtain ⟨vars, tables, preds, squash, negation⟩ := c
    rw [Conj.depth, Nat.max_le] at hdepth
    cases squash with
    | some d => exact absurd hdepth.1 (Nat.not_succ_le_zero _)
    | none =>
      cases negation with
      | some d => exact absurd hdepth.2 (Nat.not_succ_le_zero _)
      | none => rfl
  | succ levels ih =>
    intro c hc hdepth σ k
    have hbelow : ∀ {d}, c.squash = some d ∨ c.negation = some d → ∀ e ∈ d, e.depth ≤ levels := by
      intro d hd e he
      have hlt := Conj.depth_lt hd he
      omega
    have hsquash := Disj.run_mapM_option (d := c.squash) (fun d hd e he =>
      ih e (hc.nested (.inl hd) e he) (hbelow (.inl hd) e he) (σ.enter s.nth k c.vars))
      (k + c.vars.length)
    have hnegation := Disj.run_mapM_option (d := c.negation) (fun d hd e he =>
      ih e (hc.nested (.inr hd) e he) (hbelow (.inr hd) e he) (σ.enter s.nth k c.vars))
      (k + c.vars.length + Disj.slotsOption c.squash)
    rw [Conj.run_descend_succ (Conj.run_step hc.vars σ k) hsquash hnegation, Conj.renameInTurn_eq,
      Conj.slots_eq, ← Nat.add_assoc, ← Nat.add_assoc]
    rfl

/-- **Renaming one binder after the other** goes through the levels in one recursion. -/
theorem Disj.renameWith_eq_renameInTurn {d : Disj} (hd : Disj.BaseBinders d) :
    Disj.renameWith s d = Disj.renameInTurn s.nth [] 0 d := by
  have hrun : StateT.run ((d.map id).mapM fun c : Conj =>
      c.descend (fun c => c.renameBinders c.vars) c.depth) (s.skip 0)
        = (Disj.renameInTurn s.nth [] 0 d, s.skip (0 + Disj.slots d)) := by
    refine Disj.run_mapM (fun c hc k => ?_) 0
    exact Conj.run_descend c.depth c (Disj.baseBinders_iff.mp hd c hc) (Nat.le_refl _) [] k
  rw [map_id] at hrun
  exact congrArg Prod.fst hrun

/-! ## Names that do not occur before -/

/-- What holds of a conjunction and is handed on to the nested ones for a renaming. -/
structure Conj.Nameable (names : Nat → String) (c : Conj) : Prop where
  base : c.BaseBinders
  unused : ∀ x, c.uses (.var x) = true → ∀ j, x ≠ names j

theorem Conj.Nameable.vars {c : Conj} (h : c.Nameable names) :
    ∀ v ∈ c.vars, ∃ x, v = .var x := by
  obtain ⟨vars, tables, preds, squash, negation⟩ := c
  exact h.base.1

theorem Conj.Nameable.squash {c : Conj} (h : c.Nameable names) {d : Disj}
    (hd : c.squash = some d) : ∀ e ∈ d, e.Nameable names := by
  obtain ⟨vars, tables, preds, squash, negation⟩ := c
  subst hd
  intro e he
  refine ⟨Disj.baseBinders_iff.mp h.base.2.1 e he, fun x hx => h.unused x ?_⟩
  exact Conj.uses_iff.mpr (.inr (.inr (.inl (Disj.uses_iff.mpr ⟨e, he, hx⟩))))

theorem Conj.Nameable.negation {c : Conj} (h : c.Nameable names) {d : Disj}
    (hd : c.negation = some d) : ∀ e ∈ d, e.Nameable names := by
  obtain ⟨vars, tables, preds, squash, negation⟩ := c
  subst hd
  intro e he
  refine ⟨Disj.baseBinders_iff.mp h.base.2.2 e he, fun x hx => h.unused x ?_⟩
  exact Conj.uses_iff.mpr (.inr (.inr (.inr (Disj.uses_iff.mpr ⟨e, he, hx⟩))))

/-- Entering the binders keeps the labels in order. -/
theorem Labels.Serial.bind {σ : Labels} (h : σ.Serial names) {c : Conj}
    (hc : c.Nameable names) (k : Nat) :
    Labels.Serial names (σ.enter names k c.vars) := by
  have hbinders : ∀ (vs : List Tuple) (k : Nat), (∀ v ∈ vs, v ∈ c.vars) →
      Labels.Serial names (Labels.ofBinders names k vs) := by
    intro vs
    induction vs with
    | nil => exact fun _ _ p hp => absurd hp not_mem_nil
    | cons v vs ih =>
      intro k hvs p hp
      rcases mem_cons.mp hp with rfl | hp
      · have hv := hvs v mem_cons_self
        obtain ⟨x, rfl⟩ := hc.vars v hv
        exact ⟨⟨x, rfl, hc.unused x (Conj.uses_iff.mpr (.inl hv))⟩, k, rfl⟩
      · exact ih (k + 1) (fun w hw => hvs w (mem_cons_of_mem _ hw)) p hp
  intro p hp
  rcases mem_append.mp hp with hp | hp
  · exact h p (mem_of_mem_filter hp)
  · exact hbinders c.vars k (fun _ hv => hv) p hp

mutual

/-- If no new name occurs before, what is replaced in turn is replaced at once. -/
theorem Conj.renameInTurn_eq_relabel : (c : Conj) → c.Nameable names →
    ∀ {σ τ : Labels}, σ.Serial names → Labels.Agree σ τ → ∀ k,
      c.renameInTurn names σ k = c.relabel names τ k
  | ⟨vars, tables, preds, squash, negation⟩, hc, σ, τ, hσ, hστ, k => by
    have hserial : Labels.Serial names (σ.enter names k vars) := hσ.bind hc k
    have hagree := hστ.bind names k vars
    have hfun : Labels.substTuple (σ.enter names k vars)
        = Labels.tuple (Labels.ofBinders names k vars ++ τ) :=
      funext fun t => (Labels.substTuple_eq_tuple hserial t).trans (hagree.tuple_eq t)
    rw [Conj.renameInTurn, Conj.relabel, hfun,
      Disj.renameInTurnOption_eq_relabelOption squash (fun d hd => hc.squash hd) hserial hagree,
      Disj.renameInTurnOption_eq_relabelOption negation (fun d hd => hc.negation hd) hserial hagree]

theorem Disj.renameInTurnOption_eq_relabelOption :
    (d : Option (List Conj)) → (∀ e, d = some e → ∀ c ∈ e, c.Nameable names) →
    ∀ {σ τ : Labels}, σ.Serial names → Labels.Agree σ τ → ∀ k,
      Disj.renameInTurnOption names σ k d = Disj.relabelOption names τ k d
  | none, _, _, _, _, _, _ => rfl
  | some d, hd, _, _, hσ, hστ, k =>
    congrArg some (Disj.renameInTurn_eq_relabel d (hd d rfl) hσ hστ k)

theorem Disj.renameInTurn_eq_relabel : (d : List Conj) →
    (∀ c ∈ d, c.Nameable names) → ∀ {σ τ : Labels}, σ.Serial names → Labels.Agree σ τ → ∀ k,
      Disj.renameInTurn names σ k d = Disj.relabel names τ k d
  | [], _, _, _, _, _, _ => rfl
  | c :: cs, hd, _, _, hσ, hστ, k => by
    rw [Disj.renameInTurn, Disj.relabel,
      Conj.renameInTurn_eq_relabel c (hd c mem_cons_self) hσ hστ,
      Disj.renameInTurn_eq_relabel cs (fun e he => hd e (mem_cons_of_mem _ he)) hσ hστ]

end

/-- **Renaming one binder after the other is relabeling**, as long as no new name occurs before. -/
theorem Disj.renameWith_eq_relabel {d : Disj}
    (hd : ∀ c ∈ d, c.Nameable s.nth) : Disj.renameWith s d = Disj.relabel s.nth [] 0 d := by
  rw [Disj.renameWith_eq_renameInTurn (Disj.baseBinders_iff.mpr fun c hc => (hd c hc).base)]
  refine Disj.renameInTurn_eq_relabel d hd ?_ ⟨Iff.rfl, fun _ => rfl⟩ 0
  exact fun p hp => absurd hp not_mem_nil

/-! ## Free variables -/

mutual

/-- Tuples that compare as equal are equal. -/
theorem Tuple.eq_of_compare : (a b : Tuple) → Tuple.compare a b = .eq → a = b
  | .var m, .var n, h => by rw [Std.LawfulEqOrd.eq_of_compare (a := m) (b := n) h]
  | .var _, .const _, h => by cases h
  | .var _, .attr _ _, h => by cases h
  | .var _, .call _ _, h => by cases h
  | .const _, .var _, h => by cases h
  | .const m, .const n, h => by rw [Std.LawfulEqOrd.eq_of_compare (a := m) (b := n) h]
  | .const _, .attr _ _, h => by cases h
  | .const _, .call _ _, h => by cases h
  | .attr _ _, .var _, h => by cases h
  | .attr _ _, .const _, h => by cases h
  | .attr a m, .attr b n, h => by
    obtain ⟨hab, hmn⟩ := Ordering.then_eq_eq.mp h
    rw [Tuple.eq_of_compare a b hab, Std.LawfulEqOrd.eq_of_compare (a := m) (b := n) hmn]
  | .attr _ _, .call _ _, h => by cases h
  | .call _ _, .var _, h => by cases h
  | .call _ _, .const _, h => by cases h
  | .call _ _, .attr _ _, h => by cases h
  | .call m as, .call n bs, h => by
    obtain ⟨hmn, hab⟩ := Ordering.then_eq_eq.mp h
    rw [Tuple.eq_of_compareList as bs hab, Std.LawfulEqOrd.eq_of_compare (a := m) (b := n) hmn]

theorem Tuple.eq_of_compareList : (as bs : List Tuple) → Tuple.compareList as bs = .eq → as = bs
  | [], [], _ => rfl
  | [], _ :: _, h => by cases h
  | _ :: _, [], h => by cases h
  | a :: as, b :: bs, h => by
    obtain ⟨hab, hrest⟩ := Ordering.then_eq_eq.mp h
    rw [Tuple.eq_of_compare a b hab, Tuple.eq_of_compareList as bs hrest]

end

mutual

theorem Tuple.compare_self : (a : Tuple) → Tuple.compare a a = .eq
  | .var _ => Std.ReflOrd.compare_self
  | .const _ => Std.ReflOrd.compare_self
  | .attr a _ => Ordering.then_eq_eq.mpr ⟨Tuple.compare_self a, Std.ReflOrd.compare_self⟩
  | .call _ as => Ordering.then_eq_eq.mpr ⟨Std.ReflOrd.compare_self, Tuple.compareList_self as⟩

theorem Tuple.compareList_self : (as : List Tuple) → Tuple.compareList as as = .eq
  | [] => rfl
  | a :: as => Ordering.then_eq_eq.mpr ⟨Tuple.compare_self a, Tuple.compareList_self as⟩

end

instance : Std.LawfulEqOrd Tuple where
  compare_self := Tuple.compare_self _
  eq_of_compare := Tuple.eq_of_compare _ _

/-- Whether a variable occurs in an atom of a term and is not bound around it. -/
def Term.Free (x : String) : Term → Prop
  | .table _ row => row.uses (.var x) = true
  | .pred _ args => Tuple.anyUses args (.var x) = true
  | .eq l r => l.uses (.var x) = true ∨ r.uses (.var x) = true
  | .add l r | .mul l r => l.Free x ∨ r.Free x
  | .not t | .squash t => t.Free x
  | .sum vars body => .var x ∉ vars ∧ body.Free x

namespace Term

variable {x : String}

variable {t : Term}

/-- The variables that are collected are the free ones. -/
theorem mem_collectFreeVars {bound : List Tuple} {seen : OrderedSet Tuple} :
    .var x ∈ t.collectFreeVars bound seen ↔ .var x ∈ seen ∨ (.var x ∉ bound ∧ t.Free x) := by
  induction t generalizing bound seen with
  | table n row =>
    simp [collectFreeVars, OrderedSet.mem_insertAll, atomVars, collectAtomVars,
      Tuple.mem_collectVars, Tuple.isVar, Free, and_comm]
  | pred n args =>
    simp [collectFreeVars, OrderedSet.mem_insertAll, atomVars, collectAtomVars,
      Tuple.mem_collectVarsAll, Tuple.isVar, Free, and_comm]
  | eq l r =>
    simp [collectFreeVars, OrderedSet.mem_insertAll, atomVars, collectAtomVars,
      Tuple.mem_collectVars, Tuple.isVar, Free, and_comm]
  | add l r ihl ihr | mul l r ihl ihr =>
    rw [collectFreeVars, ihr, ihl, Free]
    tauto
  | not t ih | squash t ih => exact ih
  | sum vars body ih =>
    rw [collectFreeVars, ih, Free, mem_append]
    tauto

/-- The free variables of a term are row variables. -/
theorem isVar_of_mem_collectFreeVars {v : Tuple} {bound : List Tuple}
    {seen : OrderedSet Tuple} (h : v ∈ t.collectFreeVars bound seen) :
    v ∈ seen ∨ v.isVar = true := by
  induction t generalizing bound seen with
  | table name row =>
    rw [collectFreeVars, OrderedSet.mem_insertAll, mem_filter, atomVars, collectAtomVars,
      Tuple.mem_collectVars] at h
    simp only [not_mem_nil, false_or] at h
    exact h.imp_right fun h => h.1.1
  | pred name args =>
    rw [collectFreeVars, OrderedSet.mem_insertAll, mem_filter, atomVars, collectAtomVars,
      Tuple.mem_collectVarsAll] at h
    simp only [not_mem_nil, false_or] at h
    exact h.imp_right fun h => h.1.1
  | eq l r =>
    rw [collectFreeVars, OrderedSet.mem_insertAll, mem_filter, atomVars, collectAtomVars,
      Tuple.mem_collectVars, Tuple.mem_collectVars] at h
    simp only [not_mem_nil, false_or] at h
    exact h.imp_right fun h => h.1.elim And.left And.left
  | add l r ihl ihr | mul l r ihl ihr => exact (ihr h).elim ihl .inr
  | not t ih | squash t ih | sum vars body ih => exact ih h

/-- The free variables of a term, as a list. -/
theorem mem_freeVars {v : Tuple} :
    v ∈ t.freeVars ↔ ∃ x, v = .var x ∧ t.Free x := by
  constructor
  · intro h
    have hvar := (isVar_of_mem_collectFreeVars h).resolve_left (not_mem_nil)
    obtain ⟨x, rfl⟩ := Tuple.exists_eq_var hvar
    exact ⟨x, rfl, ((mem_collectFreeVars.mp h).resolve_left not_mem_nil).2⟩
  · intro h
    obtain ⟨x, rfl, hx⟩ := h
    exact mem_collectFreeVars.mpr (.inr ⟨not_mem_nil, hx⟩)

theorem var_mem_freeVars : .var x ∈ t.freeVars ↔ t.Free x := by
  rw [mem_freeVars]
  simp

theorem uses_of_free (h : t.Free x) : t.uses (.var x) = true := by
  induction t with
  | table name row | pred name args => exact h
  | eq l r => simpa [uses, Free] using h
  | add l r ihl ihr | mul l r ihl ihr => exact Bool.or_eq_true_iff.mpr (h.imp ihl ihr)
  | not t ih | squash t ih => exact ih h
  | sum vars body ih => exact Bool.or_eq_true_iff.mpr (.inr (ih h.2))

/-- A variable that is free after the substitution is the new one, or was free before and is not the
replaced one. -/
theorem free_subst_var {v n : String}
    (h : (t.subst (.var v) (.var n)).Free x) : x = n ∨ (x ≠ v ∧ t.Free x) := by
  induction t with
  | table name row => exact Tuple.uses_subst_var row h
  | pred name args => exact Tuple.anyUses_substAll_var args h
  | eq l r =>
    rcases h with hl | hr
    · exact (Tuple.uses_subst_var l hl).imp_right fun h => ⟨h.1, .inl h.2⟩
    · exact (Tuple.uses_subst_var r hr).imp_right fun h => ⟨h.1, .inr h.2⟩
  | add l r ihl ihr | mul l r ihl ihr =>
    rcases h with hl | hr
    · exact (ihl hl).imp_right fun h => ⟨h.1, .inl h.2⟩
    · exact (ihr hr).imp_right fun h => ⟨h.1, .inr h.2⟩
  | not t ih | squash t ih => exact ih h
  | sum vars body ih =>
    obtain ⟨hvars, hbody⟩ := h
    refine (ih hbody).imp_right fun h => ⟨h.1, fun hmem => hvars ?_, h.2⟩
    -- The substitution reaches the binders too, but only the replaced one changes.
    rw [Tuple.substAll_eq_map]
    refine mem_map.mpr ⟨.var x, hmem, ?_⟩
    rw [Tuple.subst, if_neg]
    intro heq
    exact h.1 (Tuple.var.inj heq)

theorem free_sumOver {vars : List Tuple} {body : Term} :
    (sumOver vars body).Free x ↔ .var x ∉ vars ∧ body.Free x := by
  unfold sumOver
  split
  · next hempty => simp [List.isEmpty_iff.mp hempty]
  · exact Iff.rfl

variable {ts : List Term}

theorem free_foldl_mul :
    (ts.foldl .mul t).Free x ↔ ∃ u ∈ t :: ts, u.Free x := by
  induction ts generalizing t with
  | nil => simp
  | cons u us ih =>
    rw [foldl_cons, ih]
    simp [Free, or_assoc]

theorem free_foldl_add :
    (ts.foldl .add t).Free x ↔ ∃ u ∈ t :: ts, u.Free x := by
  induction ts generalizing t with
  | nil => simp
  | cons u us ih =>
    rw [foldl_cons, ih]
    simp [Free, or_assoc]

theorem free_product : (product ts).Free x ↔ ∃ t ∈ ts, t.Free x := by
  cases ts with
  | nil => simp [product, product?, unit, Free, Tuple.uses]
  | cons t ts => exact free_foldl_mul

theorem free_total : ((total? ts).getD zero).Free x ↔ ∃ t ∈ ts, t.Free x := by
  cases ts with
  | nil => simp [total?, zero, unit, Free, Tuple.uses]
  | cons t ts => exact free_foldl_add

end Term

theorem Conj.free_atoms {x : String} :
    ((∃ t, t ∈ c.tables.map TableAtom.toTerm ∧ t.Free x) ∨
      ∃ t, t ∈ c.preds.map PredAtom.toTerm ∧ t.Free x) ↔
        ∃ t ∈ c.tuples, t.uses (.var x) = true := by
  have hpred : ∀ p : PredAtom, p.toTerm.Free x ↔ ∃ t ∈ p.tuples, t.uses (.var x) = true := by
    intro p
    rw [← PredAtom.uses_iff]
    cases p with
    | pred n args => exact Iff.rfl
    | eq l r => simp [PredAtom.toTerm, PredAtom.uses, Term.Free]
  simp only [Conj.tuples, mem_append, or_and_right, exists_or, mem_map,
    mem_flatMap, exists_exists_and_eq_and]
  refine or_congr Iff.rfl ?_
  simp only [hpred]
  constructor
  · rintro ⟨p, hp, t, ht, hx⟩
    exact ⟨t, ⟨p, hp, ht⟩, hx⟩
  · rintro ⟨t, ⟨p, hp, ht⟩, hx⟩
    exact ⟨p, hp, t, ht, hx⟩

mutual

/-- The term of a conjunction has its free variables. -/
theorem Conj.free_toTerm {x : String} : (c : Conj) → (c.toTerm.Free x ↔ c.Free x)
  | ⟨vars, tables, preds, squash, negation⟩ => by
    rw [Conj.toTerm, Term.free_sumOver, Term.free_product, Conj.Free]
    refine and_congr_right fun _ => ?_
    have hnested : ∀ (wrap : Term → Term), (∀ t, (wrap t).Free x ↔ t.Free x) →
        ∀ d, ((∃ t ∈ (Disj.toTerm? d).toList.map wrap, t.Free x) ↔
          ∃ t ∈ Disj.toTerm? d, t.Free x) := by
      intro wrap hwrap d
      simp [hwrap]
    simp only [mem_append, or_and_right, exists_or]
    have hatoms := Conj.free_atoms (x := x) (c := ⟨vars, tables, preds, squash, negation⟩)
    refine or_assoc.trans (or_congr hatoms (or_congr ?_ ?_))
    · exact (hnested .squash (fun _ => Iff.rfl) squash).trans (Disj.free_toTerm? squash)
    · exact (hnested .not (fun _ => Iff.rfl) negation).trans (Disj.free_toTerm? negation)

theorem Disj.free_toTerm? {x : String} : (d : Option (List Conj)) →
    ((∃ t ∈ Disj.toTerm? d, t.Free x) ↔ Disj.FreeOption x d)
  | none => by simp [Disj.toTerm?, Disj.FreeOption]
  | some d => by
    rw [Disj.toTerm?, Disj.FreeOption, ← Disj.free_toTerms d, ← Term.free_total]
    simp

theorem Disj.free_toTerms {x : String} : (d : List Conj) →
    ((∃ t ∈ Disj.toTerms d, t.Free x) ↔ Disj.Free x d)
  | [] => by simp [Disj.toTerms, Disj.Free]
  | c :: cs => by
    rw [Disj.toTerms, Disj.Free, ← Conj.free_toTerm c, ← Disj.free_toTerms cs]
    simp

end

theorem Disj.free_toTerm {x : String} {d : Disj} : d.toTerm.Free x ↔ Disj.Free x d := by
  unfold Disj.toTerm
  rw [Term.free_total, Disj.free_toTerms]

theorem Disj.var_mem_freeVars {x : String} {d : Disj} :
    .var x ∈ d.toTerm.freeVars ↔ Disj.Free x d :=
  Term.var_mem_freeVars.trans Disj.free_toTerm

/-- The free names of a disjunction, as a list. -/
theorem Disj.mem_freeNames {x : String} {d : Disj} : x ∈ d.freeNames ↔ Disj.Free x d := by
  rw [← Disj.var_mem_freeVars]
  unfold Disj.freeNames
  rw [mem_filterMap]
  constructor
  · rintro ⟨v, hv, hname⟩
    cases v with
    | var y =>
      cases hname
      exact hv
    | const c | attr b a | call f args => cases hname
  · exact fun h => ⟨.var x, h, rfl⟩

mutual

theorem Conj.uses_of_free {x : String} : (c : Conj) → c.Free x → c.uses (.var x) = true
  | ⟨vars, tables, preds, squash, negation⟩, h => by
    refine Conj.uses_iff.mpr (.inr ?_)
    rcases h.2 with h | h | h
    · exact .inl h
    · exact .inr (.inl (Disj.usesOption_of_freeOption squash h))
    · exact .inr (.inr (Disj.usesOption_of_freeOption negation h))

theorem Disj.usesOption_of_freeOption {x : String} : (d : Option (List Conj)) →
    Disj.FreeOption x d → Disj.usesOption d (.var x) = true
  | none, h => absurd h id
  | some d, h => Disj.uses_of_free d h

theorem Disj.uses_of_free {x : String} : (d : List Conj) → Disj.Free x d →
    Disj.uses d (.var x) = true
  | [], h => absurd h id
  | c :: cs, h => by
    rw [Disj.uses, Bool.or_eq_true]
    exact h.imp (Conj.uses_of_free c) (Disj.uses_of_free cs)

end

/-! ## Canonical names -/

namespace Disj

/-- The supply of names that keep old and new names apart. -/
def tagNames : FreshNames :=
  ⟨"#", [], 1⟩

/-- The supply of canonical names for a disjunction. -/
def canonicalNames (d : Disj) : FreshNames :=
  ⟨"x", d.freeNames, 0⟩

theorem not_isPlain_nth_tagNames (j : Nat) : ¬ IsPlain (tagNames.nth j) := by
  obtain ⟨n, hn⟩ := tagNames.exists_nth_eq j
  rw [hn]
  exact Tags.not_isPlain_tagName n

theorem isPlain_nth_canonicalNames (d : Disj) (j : Nat) : IsPlain (d.canonicalNames.nth j) := by
  obtain ⟨n, hn⟩ := d.canonicalNames.exists_nth_eq j
  rw [hn]
  intro hhead
  unfold canonicalNames at hhead
  rw [String.toList_append] at hhead
  simp at hhead

theorem nameable_iff {d : Disj} : (∀ c ∈ d, c.Nameable names) ↔
    BaseBinders d ∧ ∀ x, Disj.uses d (.var x) = true → ∀ j, x ≠ names j := by
  rw [baseBinders_iff]
  constructor
  · intro h
    refine ⟨fun c hc => (h c hc).base, fun x hx => ?_⟩
    obtain ⟨c, hc, hcx⟩ := uses_iff.mp hx
    exact (h c hc).unused x hcx
  · rintro ⟨hbase, hunused⟩ c hc
    exact ⟨hbase c hc, fun x hx => hunused x (uses_iff.mpr ⟨c, hc, hx⟩)⟩

/-- A free variable of a disjunction has none of the canonical names. -/
theorem apart_canonicalNames (d : Disj) :
    Labels.Apart (fun x => Disj.Free x d) d.canonicalNames.nth 0 [] := by
  intro x hx j _ heq
  refine d.canonicalNames.nth_not_mem_taken j ?_
  rw [← heq]
  exact mem_freeNames.mpr hx

variable {d : Disj}

/-- Without tags among its names, a disjunction gets its canonical names in one relabeling. -/
theorem renameBound_eq_relabel (hbase : BaseBinders d) (hplain : PlainNames (Disj.uses d)) :
    d.renameBound = relabel d.canonicalNames.nth [] 0 d := by
  have htags : ∀ x, Disj.uses d (.var x) = true → ∀ j, x ≠ tagNames.nth j := by
    rintro x hx j rfl
    exact not_isPlain_nth_tagNames j (hplain _ hx)
  have hfirst : renameWith tagNames d = relabel tagNames.nth [] 0 d :=
    renameWith_eq_relabel (nameable_iff.mpr ⟨hbase, htags⟩)
  -- In between there are tags and free variables only.
  have hbetween : ∀ x, Disj.uses (relabel tagNames.nth [] 0 d) (.var x) = true →
      ∀ j, x ≠ d.canonicalNames.nth j := by
    rintro x hx j rfl
    rcases uses_relabel tagNames.nth d hbase hx with ⟨i, hi⟩ | ⟨y, hy, heq⟩
    · exact not_isPlain_nth_tagNames i (hi ▸ isPlain_nth_canonicalNames d j)
    · exact apart_canonicalNames d y hy j (Nat.zero_le j) heq
  have hsecond := renameWith_eq_relabel (s := d.canonicalNames)
    (nameable_iff.mpr ⟨baseBinders_relabel tagNames.nth d hbase [] 0, hbetween⟩)
  show renameWith d.canonicalNames (renameWith tagNames d) = _
  rw [hfirst, hsecond]
  refine relabel_relabel tagNames.nth_injective d hbase ⟨Iff.rfl, Iff.rfl, fun _ _ => rfl, ?_⟩
  exact fun x hx j _ => htags x (uses_of_free d hx) j

theorem baseBinders_renameBound (hbase : BaseBinders d) (hplain : PlainNames (Disj.uses d)) :
    BaseBinders d.renameBound := by
  rw [renameBound_eq_relabel hbase hplain]
  exact baseBinders_relabel _ d hbase [] 0

theorem plainNames_renameBound (hbase : BaseBinders d) (hplain : PlainNames (Disj.uses d)) :
    PlainNames (Disj.uses d.renameBound) := by
  intro x hx
  rw [renameBound_eq_relabel hbase hplain] at hx
  rcases uses_relabel _ d hbase hx with ⟨j, rfl⟩ | ⟨y, hy, rfl⟩
  · exact isPlain_nth_canonicalNames d j
  · exact hplain y (uses_of_free d hy)

/-- **Canonical names are stable**: naming the bound variables a second time changes nothing. -/
theorem renameBound_renameBound (hbase : BaseBinders d) (hplain : PlainNames (Disj.uses d)) :
    d.renameBound.renameBound = d.renameBound := by
  -- The second run skips the same names and meets the binders in the same order.
  have heq := renameBound_eq_relabel hbase hplain
  -- The same variables are free, so the same names are skipped.
  have hfree : ∀ x, x ∈ d.renameBound.freeNames ↔ x ∈ d.freeNames := by
    intro x
    rw [mem_freeNames, mem_freeNames, heq, free_relabel d.canonicalNames.nth_injective d hbase
      (apart_canonicalNames d)]
    constructor
    · rintro ⟨y, hy, rfl⟩
      exact hy
    · exact fun hx => ⟨x, hx, rfl⟩
  have hnames : d.renameBound.canonicalNames.nth = d.canonicalNames.nth :=
    FreshNames.nth_congr rfl rfl hfree
  rw [renameBound_eq_relabel (baseBinders_renameBound hbase hplain)
    (plainNames_renameBound hbase hplain), hnames, heq]
  exact relabel_relabel d.canonicalNames.nth_injective d hbase
    ⟨Iff.rfl, Iff.rfl, fun _ _ => rfl, apart_canonicalNames d⟩

end Disj

end QueryRules
