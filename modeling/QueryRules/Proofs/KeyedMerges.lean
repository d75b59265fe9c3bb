import Mathlib.Logic.Relation
import QueryRules.Proofs.NestedSteps
import QueryRules.Proofs.TupleCongruences

/-!
# QueryRules — merging atoms by unique keys

Two atoms of a table whose rows agree on a unique key are one atom. `Conj.mergeKeyed` drops one of
them and replaces its variable, again and again and at every level. This keeps the value wherever
the keys hold, as long as the two atoms have different variables and the one that goes is listed
once among the binders (`Disj.mergeKeyed_sound`). Constants play no part in it.
-/

namespace QueryRules

open List

/-- The unique keys hold in a model: a row is in a keyed table at most once, and two rows of it
that agree on the columns of a key are one row. -/
structure Model.Keyed {D : Type*} (m : Model D) (facts : Facts) : Prop where
  once : ∀ uk ∈ facts.uniqueKeys, ∀ d, m.table uk.table d ≤ 1
  unique : ∀ uk ∈ facts.uniqueKeys, ∀ d e, m.table uk.table d ≠ 0 → m.table uk.table e ≠ 0 →
    (∀ col ∈ uk.columns, m.attr col d = m.attr col e) → d = e

/-! ## Redundant atoms -/

namespace Conj

variable {facts : Facts} {c s : Conj} {r : Redundant} {name k g : String}

/-- What makes an atom redundant: its variable `g` is bound, and there is another atom of the same
table over a variable `k` that agrees with `g` on a unique key. -/
structure Superfluous (facts : Facts) (c : Conj) (r : Redundant) (name k g : String) : Prop where
  keep : r.keep = .var k
  gone : r.gone = .var g
  bound : .var g ∈ c.vars
  lost : c.tables[r.index]? = some ⟨name, .var g⟩
  kept : ⟨name, .var k⟩ ∈ c.tables.eraseIdx r.index
  agree : ∃ uk ∈ facts.uniqueKeysOf name, ∀ col ∈ uk.columns,
    (Congruence.ofPreds c.preds).agreeOn (.var k) (.var g) col = true

/-- The twin of an atom has an equal key, and one of the two rows is bound. -/
theorem findTwin?_eq_some {e : Congruence Tuple} {vars : List Tuple} {i j : Nat} {a : TableAtom}
    {rest : List TableAtom} (h : findTwin? e facts vars i a j rest = some r) :
    ∃ n b, rest[n]? = some b ∧ sameByKey e facts a b = true ∧
      ((b.row ∈ vars ∧ r = ⟨a.row, j + n, b.row⟩) ∨ (a.row ∈ vars ∧ r = ⟨b.row, i, a.row⟩)) := by
  induction rest generalizing j with
  | nil => cases h
  | cons b rest ih =>
    have hlater : findTwin? e facts vars i a (j + 1) rest = some r →
        ∃ n b', (b :: rest)[n]? = some b' ∧ sameByKey e facts a b' = true ∧
          ((b'.row ∈ vars ∧ r = ⟨a.row, j + n, b'.row⟩) ∨
            (a.row ∈ vars ∧ r = ⟨b'.row, i, a.row⟩)) := by
      intro h
      obtain ⟨n, b', hget, hsame, hcases⟩ := ih h
      refine ⟨n + 1, b', hget, hsame, ?_⟩
      rw [← Nat.add_assoc, Nat.add_right_comm]
      exact hcases
    rw [findTwin?] at h
    split at h
    · next hsame =>
      split at h
      · next hb =>
        cases h
        exact ⟨0, b, rfl, hsame, .inl ⟨hb, rfl⟩⟩
      · split at h
        · next ha =>
          cases h
          exact ⟨0, b, rfl, hsame, .inr ⟨ha, rfl⟩⟩
        · exact hlater h
    · exact hlater h

theorem findRedundantFrom?_eq_some {e : Congruence Tuple} {vars : List Tuple} {i : Nat}
    {tables : List TableAtom} (h : findRedundantFrom? e facts vars i tables = some r) :
    ∃ p q a b, p ≠ q ∧ tables[p]? = some a ∧ tables[q]? = some b ∧ sameByKey e facts a b = true ∧
      ((b.row ∈ vars ∧ r = ⟨a.row, i + q, b.row⟩) ∨
        (a.row ∈ vars ∧ r = ⟨b.row, i + p, a.row⟩)) := by
  induction tables generalizing i with
  | nil => cases h
  | cons a rest ih =>
    rw [findRedundantFrom?] at h
    cases htwin : findTwin? e facts vars i a (i + 1) rest with
    | some r' =>
      rw [htwin] at h
      cases h
      obtain ⟨n, b, hget, hsame, hcases⟩ := findTwin?_eq_some htwin
      refine ⟨0, n + 1, a, b, by omega, rfl, hget, hsame, ?_⟩
      rw [← Nat.add_assoc, Nat.add_right_comm]
      exact hcases
    | none =>
      rw [htwin] at h
      obtain ⟨p, q, a', b, hne, hp, hq, hsame, hcases⟩ := ih h
      refine ⟨p + 1, q + 1, a', b, by omega, hp, hq, hsame, ?_⟩
      rw [← Nat.add_assoc, ← Nat.add_assoc, Nat.add_right_comm i q, Nat.add_right_comm i p]
      exact hcases

/-- Two rows agree on a column in either order. -/
theorem agreeOn_comm {e : Congruence Tuple} {x y : Tuple} {col : String}
    (h : e.agreeOn x y col = true) : e.agreeOn y x col = true := by
  unfold Congruence.agreeOn at h ⊢
  rw [Bool.or_eq_true] at h ⊢
  have hsymm := e.same_equivalence
  exact h.imp hsymm.symm hsymm.symm

/-- A merge that is found is one by a unique key. -/
theorem exists_superfluous (h : c.findRedundant? facts = some r) :
    ∃ name k g, c.Superfluous facts r name k g := by
  obtain ⟨p, q, ⟨name, x⟩, ⟨name', y⟩, hne, hp, hq, hsame, hcases⟩ := findRedundantFrom?_eq_some h
  unfold sameByKey at hsame
  simp only [Bool.and_eq_true, decide_eq_true_eq, any_eq_true, all_eq_true] at hsame
  obtain ⟨⟨⟨rfl, hx⟩, hy⟩, uk, huk, -, hagree⟩ := hsame
  obtain ⟨x, rfl⟩ := Tuple.exists_eq_var hx
  obtain ⟨y, rfl⟩ := Tuple.exists_eq_var hy
  rw [Nat.zero_add, Nat.zero_add] at hcases
  rcases hcases with ⟨hbound, rfl⟩ | ⟨hbound, rfl⟩
  · exact ⟨name, x, y, rfl, rfl, hbound, hq, mem_eraseIdx_iff_getElem?.mpr ⟨p, hne, hp⟩,
      uk, huk, hagree⟩
  · exact ⟨name, y, x, rfl, rfl, hbound, hp,
      mem_eraseIdx_iff_getElem?.mpr ⟨q, hne.symm, hq⟩, uk, huk,
      fun col hcol => agreeOn_comm (hagree col hcol)⟩

namespace Superfluous

/-! ## One merge -/

theorem dropRedundant_eq (h : c.Superfluous facts r name k g) : c.dropRedundant r
    = ({ c with tables := c.tables.eraseIdx r.index }.eliminate (.var g) (.var k)).dropTrivial := by
  rw [dropRedundant, h.keep, h.gone]

theorem vars_dropRedundant (h : c.Superfluous facts r name k g) :
    (c.dropRedundant r).vars = c.vars.filter (· ≠ .var g) := by
  rw [h.dropRedundant_eq, (dropTrivial_spec _).1, eliminate, vars_subst_of_not_mem]
  simp [mem_filter]

theorem tables_dropRedundant (h : c.Superfluous facts r name k g) : (c.dropRedundant r).tables
    = (c.tables.eraseIdx r.index).map (TableAtom.subst · (.var g) (.var k)) := by
  rw [h.dropRedundant_eq, (dropTrivial_spec _).2.1, eliminate, subst_eq]

theorem depth_dropRedundant (h : c.Superfluous facts r name k g) :
    (c.dropRedundant r).depth = c.depth := by
  rw [h.dropRedundant_eq, depth_dropTrivial, eliminate, depth_subst, depth_eq, depth_eq]

variable {scope : String → Prop}

/-- The conjunction without the atom is scoped as before. -/
theorem scoped_erase (hc : Scoped scope c) (i : Nat) :
    Scoped scope { c with tables := c.tables.eraseIdx i } := by
  refine hc.of_atoms rfl rfl rfl fun t ht x hx => .inl ⟨t, ?_, hx⟩
  rcases mem_append.mp ht with ht | ht
  · obtain ⟨a, ha, rfl⟩ := mem_map.mp ht
    exact mem_append_left _ (mem_map_of_mem (mem_of_mem_eraseIdx ha))
  · exact mem_append_right _ ht

/-- The variable that stays is in sight. -/
theorem sees_keep (h : c.Superfluous facts r name k g) (hc : Scoped scope c) :
    scope k ∨ .var k ∈ c.vars := by
  refine hc.inside (.inl ⟨.var k, mem_append_left _ ?_, by simp [Tuple.uses]⟩)
  exact mem_map.mpr ⟨_, mem_of_mem_eraseIdx h.kept, rfl⟩

theorem image_sees (h : c.Superfluous facts r name k g) (hc : Scoped scope c) (hkg : k ≠ g) :
    ∀ x, (Tuple.var k).uses (.var x) = true → (scope x ∨ .var x ∈ c.vars) ∧ x ≠ g := by
  intro x hx
  have hkx : k = x := by simpa [Tuple.uses] using hx
  subst hkx
  exact ⟨h.sees_keep hc, hkg⟩

/-- A merge of two variables keeps the scope. -/
theorem scoped_dropRedundant (h : c.Superfluous facts r name k g) (hc : Scoped scope c)
    (hkg : k ≠ g) : Scoped scope (c.dropRedundant r) := by
  rw [h.dropRedundant_eq]
  exact ((scoped_erase hc r.index).eliminate h.bound (h.image_sees hc hkg)).dropTrivial

/-! ## The value after a merge -/

section Value

variable {D : Type*} [Fintype D] [DecidableEq D] {m : Model D}

/-- The atom is a factor of its own. -/
theorem bodyValue_eq (h : c.Superfluous facts r name k g) (env : Env D) :
    c.bodyValue m env = m.table name (env g)
      * bodyValue m { c with tables := c.tables.eraseIdx r.index } env := by
  obtain ⟨hlt, hget⟩ := List.getElem?_eq_some_iff.mp h.lost
  have hperm := getElem_cons_eraseIdx_perm hlt
  rw [hget] at hperm
  have hprod := (hperm.map fun a => a.toTerm.value m env).prod_eq
  rw [map_cons, prod_cons] at hprod
  unfold bodyValue factorsValue
  rw [← hprod]
  simp only [Nat.mul_assoc]
  rfl

/-- Where the rest of the product is not zero, the row of the kept atom is in its table once, and
the row of the lost atom is no other one. -/
theorem row_unique (h : c.Superfluous facts r name k g) (hm : m.Keyed facts) {env : Env D}
    (hne : bodyValue m { c with tables := c.tables.eraseIdx r.index } env ≠ 0) :
    m.table name (env k) = 1 ∧ (m.table name (env g) ≠ 0 → env g = env k) := by
  obtain ⟨htables, hpreds⟩ := factors_ne_zero hne
  have hkept : m.table name (env k) ≠ 0 := htables _ h.kept
  obtain ⟨uk, hof, hagree⟩ := h.agree
  obtain ⟨huk, htable⟩ := mem_filter.mp hof
  have hname : uk.table = name := of_decide_eq_true htable
  have hcols : ∀ col ∈ uk.columns, m.attr col (env g) = m.attr col (env k) := by
    intro col hcol
    have hcol := hagree col hcol
    unfold Congruence.agreeOn at hcol
    rw [Bool.or_eq_true] at hcol
    rcases hcol with hsame | hsame
    · exact congrArg (m.attr col) (Congruence.value_eq_of_same hpreds hsame).symm
    · have hproj := Congruence.value_eq_of_same hpreds hsame
      rw [Tuple.value_project, Tuple.value_project] at hproj
      exact hproj.symm
  subst hname
  have honce := hm.once uk huk (env k)
  exact ⟨by omega, fun hlost => hm.unique uk huk (env g) (env k) hlost hkept hcols⟩

/-- The sum over the rows of the lost variable has one term, that of the row of the kept one. -/
theorem sum_bodyValue (h : c.Superfluous facts r name k g) (hm : m.Keyed facts) (hkg : k ≠ g)
    (env : Env D) : ∑ d, c.bodyValue m (env.bind (.var g) d)
      = bodyValue m { c with tables := c.tables.eraseIdx r.index }
        (env.bind (.var g) (env k)) := by
  have hrows : ∀ d, env.bind (.var g) d g = d ∧ env.bind (.var g) d k = env k := fun d =>
    ⟨by simp [Env.bind], Env.bind_var_of_ne env hkg d⟩
  rw [Finset.sum_eq_single (env k)]
  · rw [h.bodyValue_eq, (hrows _).1]
    by_cases hzero : bodyValue m { c with tables := c.tables.eraseIdx r.index }
        (env.bind (.var g) (env k)) = 0
    · rw [hzero, Nat.mul_zero]
    · have hone := (h.row_unique hm hzero).1
      rw [(hrows _).2] at hone
      rw [hone, Nat.one_mul]
  · intro d _ hd
    rw [h.bodyValue_eq, (hrows d).1]
    by_contra hne
    obtain ⟨hlost, hrest⟩ := Nat.mul_ne_zero_iff.mp hne
    have hrow := (h.row_unique hm hrest).2
    rw [(hrows d).1, (hrows d).2] at hrow
    exact hd (hrow hlost)
  · exact fun hnot => absurd (Finset.mem_univ _) hnot

/-- **A merge keeps the value**, if it merges two variables and the one that goes is listed once. -/
theorem value_dropRedundant (h : c.Superfluous facts r name k g) (hc : Scoped scope c)
    (hm : m.Keyed facts) (hkg : k ≠ g) (hcount : c.vars.count (.var g) = 1) (env : Env D) :
    (c.dropRedundant r).toTerm.value m env = c.toTerm.value m env := by
  calc (c.dropRedundant r).toTerm.value m env
      = Env.sumBinders (c.vars.filter (· ≠ .var g)) (fun e =>
          bodyValue m { c with tables := c.tables.eraseIdx r.index }
            (e.bind (.var g) (e k))) env := by
        rw [h.dropRedundant_eq, value_dropTrivial]
        exact (scoped_erase hc r.index).value_eliminate h.bound (h.image_sees hc hkg) env
    _ = Env.sumBinders (c.vars.filter (· ≠ .var g)) (Env.sumBinders [.var g] (c.bodyValue m))
          env := by
        congr 1
        funext e
        exact (h.sum_bodyValue hm hkg e).symm
    _ = Env.sumBinders c.vars (c.bodyValue m) env := Env.sumBinders_filter hcount _ env
    _ = c.toTerm.value m env := (Conj.value_toTerm m env c).symm

end Value

end Superfluous

/-! ## Variables that escape -/

/-- A variable is the row of a table and not bound. So is one that was merged with itself, and no
later merge drops its atom. -/
def Exposes (x : String) (c : Conj) : Prop :=
  .var x ∉ c.vars ∧ ∃ name, ⟨name, .var x⟩ ∈ c.tables

theorem Exposes.free {x : String} (h : c.Exposes x) : c.Free x := by
  obtain ⟨hx, name, hmem⟩ := h
  refine free_iff.mpr ⟨hx, .inl ⟨.var x, mem_append_left _ ?_, by simp [Tuple.uses]⟩⟩
  exact mem_map.mpr ⟨_, hmem, rfl⟩

namespace Superfluous

/-- An atom that is not the lost one, over another variable than the lost one, stays. -/
theorem exposes_of_mem {x : String} (h : c.Superfluous facts r name k g)
    (hx : .var x ∉ c.vars.filter (· ≠ .var g)) {name' : String} {row : Tuple}
    (hmem : ⟨name', row⟩ ∈ c.tables.eraseIdx r.index)
    (hrow : row.subst (.var g) (.var k) = .var x) : (c.dropRedundant r).Exposes x := by
  refine ⟨h.vars_dropRedundant ▸ hx, name', ?_⟩
  rw [h.tables_dropRedundant]
  refine mem_map.mpr ⟨_, hmem, ?_⟩
  rw [TableAtom.subst, hrow]

theorem keep_eq_gone_iff (h : c.Superfluous facts r name k g) : r.keep = r.gone ↔ k = g := by
  rw [h.keep, h.gone, Tuple.var.injEq]

/-- A variable that is merged with itself loses its binder, but not all of its atoms. -/
theorem exposes_self (h : c.Superfluous facts r name k g) (hself : r.keep = r.gone) :
    (c.dropRedundant r).Exposes g := by
  obtain rfl := h.keep_eq_gone_iff.mp hself
  refine h.exposes_of_mem ?_ h.kept ?_
  · simp [mem_filter]
  · simp [Tuple.subst]

/-- Merging never drops an atom whose variable is not bound, and never binds the variable. -/
theorem exposes_dropRedundant {x : String} (h : c.Superfluous facts r name k g)
    (hx : c.Exposes x) : (c.dropRedundant r).Exposes x := by
  obtain ⟨hnot, name', hmem⟩ := hx
  have hxg : x ≠ g := by
    rintro rfl
    exact hnot h.bound
  have hkept : ⟨name', .var x⟩ ∈ c.tables.eraseIdx r.index := by
    obtain ⟨i, hi⟩ := mem_iff_getElem?.mp hmem
    refine mem_eraseIdx_iff_getElem?.mpr ⟨i, ?_, hi⟩
    rintro rfl
    rw [h.lost] at hi
    cases hi
    exact hxg rfl
  exact h.exposes_of_mem (fun hin => hnot (mem_of_mem_filter hin)) hkept
    (by simp [Tuple.subst, hxg])

end Superfluous

/-! ## Runs of merges -/

variable {c' e : Conj} {d : Disj} {scope : String → Prop} {levels : Nat}

/-- One merge. Every conjunction has at most one next merge. -/
def MergesTo (facts : Facts) (c c' : Conj) : Prop :=
  ∃ r, c.findRedundant? facts = some r ∧ c' = c.dropRedundant r

theorem mergesTo_rightUnique (facts : Facts) : Relator.RightUnique (MergesTo facts) := by
  intro c c₁ c₂ h₁ h₂
  obtain ⟨r, hr, rfl⟩ := h₁
  obtain ⟨r', hr', rfl⟩ := h₂
  cases hr.symm.trans hr'
  rfl

/-- What a merge drops. -/
theorem MergesTo.exists_superfluous (h : MergesTo facts c c') :
    ∃ r name k g, c.findRedundant? facts = some r ∧ c.Superfluous facts r name k g ∧
      c' = c.dropRedundant r := by
  obtain ⟨r, hr, rfl⟩ := h
  obtain ⟨name, k, g, hsup⟩ := Conj.exists_superfluous hr
  exact ⟨r, name, k, g, hr, hsup, rfl⟩

/-- Without a redundant atom a run is at its end. -/
theorem eq_of_merges (h : Relation.ReflTransGen (MergesTo facts) c s)
    (hdone : c.findRedundant? facts = none) : s = c := by
  rcases Relation.ReflTransGen.cases_head h with rfl | ⟨t, ⟨r, hr, -⟩, -⟩
  · rfl
  · rw [hdone] at hr
    cases hr

/-- The rounds end where nothing is left to merge. -/
theorem merges_of_mergeKeyedIn {rounds : Nat} (h : mergeKeyedIn facts rounds c = .ok c') :
    Relation.ReflTransGen (MergesTo facts) c c' ∧ c'.findRedundant? facts = none := by
  induction rounds generalizing c with
  | zero => cases h
  | succ rounds ih =>
    rw [mergeKeyedIn] at h
    cases hr : c.findRedundant? facts with
    | none =>
      rw [hr] at h
      cases h
      exact ⟨.refl, hr⟩
    | some r =>
      rw [hr] at h
      obtain ⟨hmerges, hdone⟩ := ih h
      exact ⟨.head ⟨r, hr, rfl⟩ hmerges, hdone⟩

/-- Whatever is met on the way leads to the end of the run. -/
theorem merges_to_end (hs : Relation.ReflTransGen (MergesTo facts) c s)
    (hc' : Relation.ReflTransGen (MergesTo facts) c c') (hdone : c'.findRedundant? facts = none) :
    Relation.ReflTransGen (MergesTo facts) s c' := by
  rcases Relation.ReflTransGen.total_of_right_unique (mergesTo_rightUnique facts) hs hc' with
    hto | hback
  · exact hto
  · rw [eq_of_merges hback hdone]

theorem depth_of_merges (h : Relation.ReflTransGen (MergesTo facts) c c') : c'.depth = c.depth := by
  induction h with
  | refl => rfl
  | tail _ hstep ih =>
    obtain ⟨r, name, k, g, hr, hsup, rfl⟩ := hstep.exists_superfluous
    rw [hsup.depth_dropRedundant, ih]

/-- **A run of merges keeps the scope, unless a variable is merged with itself**; then one that is
not in scope is exposed. The first such merge exposes its variable, which stays exposed. -/
theorem scoped_or_exposes (h : Relation.ReflTransGen (MergesTo facts) c s) (hc : Scoped scope c) :
    Scoped scope s ∨ (∃ t r, Relation.ReflTransGen (MergesTo facts) c t ∧
      t.findRedundant? facts = some r ∧ r.keep = r.gone) ∧ ∃ x, ¬ scope x ∧ s.Exposes x := by
  induction h with
  | refl => exact .inl hc
  | @tail t _ hmerges hstep ih =>
    obtain ⟨r, name, k, g, hr, hsup, rfl⟩ := hstep.exists_superfluous
    rcases ih with hscoped | ⟨hself, x, hx, hexposed⟩
    · by_cases hkg : r.keep = r.gone
      · have hg : ¬ scope g := fun hin => hscoped.not_mem hin hsup.bound
        exact .inr ⟨⟨t, r, hmerges, hr, hkg⟩, g, hg, hsup.exposes_self hkg⟩
      · exact .inl (hsup.scoped_dropRedundant hscoped (mt hsup.keep_eq_gone_iff.mpr hkg))
    · exact .inr ⟨hself, x, hx, hsup.exposes_dropRedundant hexposed⟩

theorem exposes_of_merges {x : String} (h : Relation.ReflTransGen (MergesTo facts) c s)
    (hx : c.Exposes x) : s.Exposes x := by
  induction h with
  | refl => exact hx
  | tail _ hstep ih =>
    obtain ⟨r, name, k, g, hr, hsup, rfl⟩ := hstep.exists_superfluous
    exact hsup.exposes_dropRedundant ih

theorem scoped_of_merges (h : Relation.ReflTransGen (MergesTo facts) c s) (hc : Scoped scope c)
    (hproper : ∀ t r, Relation.ReflTransGen (MergesTo facts) c t →
      t.findRedundant? facts = some r → r.keep ≠ r.gone) : Scoped scope s := by
  rcases scoped_or_exposes h hc with hscoped | ⟨⟨t, r, ht, hr, hself⟩, -⟩
  · exact hscoped
  · exact absurd hself (hproper t r ht hr)

theorem value_of_merges {D : Type*} [Fintype D] [DecidableEq D] {m : Model D}
    (h : Relation.ReflTransGen (MergesTo facts) c s) (hc : Scoped scope c) (hm : m.Keyed facts)
    (hproper : ∀ t r, Relation.ReflTransGen (MergesTo facts) c t →
      t.findRedundant? facts = some r → r.keep ≠ r.gone ∧ t.vars.count r.gone = 1) (env : Env D) :
    s.toTerm.value m env = c.toTerm.value m env := by
  induction h with
  | refl => rfl
  | tail hmerges hstep ih =>
    have hscoped := scoped_of_merges hmerges hc fun t r ht hr => (hproper t r ht hr).1
    obtain ⟨r, name, k, g, hr, hsup, rfl⟩ := hstep.exists_superfluous
    obtain ⟨hne, hcount⟩ := hproper _ r hmerges hr
    rw [hsup.gone] at hcount
    rw [hsup.value_dropRedundant hscoped hm (mt hsup.keep_eq_gone_iff.mpr hne) hcount, ih]

/-! ## All levels -/

/-- The conjunctions that merging meets: those on the way to the end of the run of merges, and those
that it meets in what is nested there. -/
inductive Meets (facts : Facts) : Conj → Conj → Prop
  | here {c s : Conj} (h : Relation.ReflTransGen (MergesTo facts) c s) : Meets facts c s
  | nested {c c' e s : Conj} {d : Disj} (hmerges : Relation.ReflTransGen (MergesTo facts) c c')
      (hdone : c'.findRedundant? facts = none) (hd : c'.Nests d) (he : e ∈ d)
      (h : Meets facts e s) : Meets facts c s

/-- Where there is a redundant atom, merging goes on without it. -/
theorem Meets.of_some (h : Meets facts c s) (hr : c.findRedundant? facts = some r) :
    s = c ∨ Meets facts (c.dropRedundant r) s := by
  -- The first merge of a run is the one of `r`.
  have hfirst : ∀ {t}, Relation.ReflTransGen (MergesTo facts) c t →
      t = c ∨ Relation.ReflTransGen (MergesTo facts) (c.dropRedundant r) t := by
    intro t ht
    rcases Relation.ReflTransGen.cases_head ht with rfl | ⟨u, ⟨r', hr', rfl⟩, hu⟩
    · exact .inl rfl
    · cases hr.symm.trans hr'
      exact .inr hu
  cases h with
  | here hs => exact (hfirst hs).imp id .here
  | nested hmerges hdone hd he h =>
    rcases hfirst hmerges with rfl | hmerges
    · rw [hdone] at hr
      cases hr
    · exact .inr (.nested hmerges hdone hd he h)

/-- Where there is no redundant atom, merging goes on with what is nested. -/
theorem Meets.of_none (h : Meets facts c s) (hdone : c.findRedundant? facts = none) :
    s = c ∨ ∃ d, c.Nests d ∧ ∃ e ∈ d, Meets facts e s := by
  cases h with
  | here hs => exact .inl (eq_of_merges hs hdone)
  | nested hmerges _ hd he h =>
    obtain rfl := eq_of_merges hmerges hdone
    exact .inr ⟨_, hd, _, he, h⟩

/-- One level of merging: a run of merges to its end, then what is nested there. -/
theorem exists_merged (h : c.descend (·.mergeKeyed facts) levels = .ok c')
    (hdepth : c.depth ≤ levels) :
    ∃ c₁, Relation.ReflTransGen (MergesTo facts) c c₁ ∧ c₁.findRedundant? facts = none ∧
      Reworked (fun e e' => ∃ fewer < levels, e.depth ≤ fewer ∧
        e.descend (·.mergeKeyed facts) fewer = .ok e') c₁ c' := by
  obtain ⟨c₁, hstep, hreworked⟩ := descend_inv h fun c₁ hc₁ => by
    rw [depth_of_merges (merges_of_mergeKeyedIn hc₁).1]
    exact hdepth
  obtain ⟨hmerges, hdone⟩ := merges_of_mergeKeyedIn hstep
  exact ⟨c₁, hmerges, hdone, hreworked⟩

/-- **Merging at all levels keeps the scope**, if no variable is merged with itself. -/
theorem scoped_of_descend (levels : Nat) : ∀ {c c' : Conj} {scope : String → Prop},
    c.descend (·.mergeKeyed facts) levels = .ok c' → c.depth ≤ levels → Scoped scope c →
      (∀ s r, Meets facts c s → s.findRedundant? facts = some r → r.keep ≠ r.gone) →
        Scoped scope c' := by
  induction levels using Nat.strong_induction_on with
  | _ levels ih =>
    intro c c' scope h hdepth hc hproper
    obtain ⟨c₁, hmerges, hdone, hreworked⟩ := exists_merged h hdepth
    have hc₁ := scoped_of_merges hmerges hc fun t r ht => hproper t r (.here ht)
    refine hreworked.keeps_scope hc₁ fun d hd e he e' hwork => ?_
    obtain ⟨fewer, hlt, hedepth, hwork⟩ := hwork
    exact ih fewer hlt hwork hedepth (hc₁.nested hd he) fun s r hs =>
      hproper s r (.nested hmerges hdone hd he hs)

/-- **A variable that is merged with itself escapes** from all levels. -/
theorem exists_free_of_descend (levels : Nat) : ∀ {c c' s : Conj} {scope : String → Prop}
    {r : Redundant}, c.descend (·.mergeKeyed facts) levels = .ok c' → c.depth ≤ levels →
      Scoped scope c → Meets facts c s → s.findRedundant? facts = some r → r.keep = r.gone →
        ∃ x, ¬ scope x ∧ c'.Free x := by
  induction levels using Nat.strong_induction_on with
  | _ levels ih =>
    intro c c' s scope r h hdepth hc hmeets hr hself
    obtain ⟨c₁, hmerges, hdone, hreworked⟩ := exists_merged h hdepth
    -- What is exposed at the end of the run stays free.
    have hfree : ∀ {x}, c₁.Exposes x → c'.Free x := by
      intro x hx
      refine Exposes.free ⟨?_, ?_⟩
      · rw [hreworked.vars]
        exact hx.1
      · rw [hreworked.tables]
        exact hx.2
    cases hmeets with
    | here hs =>
      have hafter : Relation.ReflTransGen (MergesTo facts) c (s.dropRedundant r) :=
        hs.tail ⟨r, hr, rfl⟩
      obtain ⟨name, k, g, hsup⟩ := exists_superfluous hr
      have hexposed : ∃ x, ¬ scope x ∧ (s.dropRedundant r).Exposes x := by
        rcases scoped_or_exposes hs hc with hscoped | ⟨-, x, hx, hexposed⟩
        · exact ⟨g, fun hin => hscoped.not_mem hin hsup.bound, hsup.exposes_self hself⟩
        · exact ⟨x, hx, hsup.exposes_dropRedundant hexposed⟩
      obtain ⟨x, hx, hexposed⟩ := hexposed
      exact ⟨x, hx, hfree (exposes_of_merges (merges_to_end hafter hmerges hdone) hexposed)⟩
    | nested hmerges' hdone' hd he hs =>
      -- The run has one end only.
      obtain rfl := eq_of_merges (merges_to_end hmerges' hmerges hdone) hdone'
      rcases scoped_or_exposes hmerges hc with hscoped | ⟨-, x, hx, hexposed⟩
      · obtain ⟨d', hd', e', he', fewer, hlt, hedepth, hwork⟩ := hreworked.exists_image hd he
        obtain ⟨x, hx, hfree'⟩ := ih fewer hlt hwork hedepth (hscoped.nested hd he) hs hr hself
        rw [not_or] at hx
        refine ⟨x, hx.1, free_iff.mpr ⟨?_, inside_iff.mpr (.inr ⟨d', hd', e', he', hfree'⟩)⟩⟩
        rw [hreworked.vars]
        exact hx.2
      · exact ⟨x, hx, hfree hexposed⟩

/-- **Merging at all levels keeps the value**, if every merge is of two variables and the one that
goes is listed once. -/
theorem value_of_descend {D : Type*} [Fintype D] [DecidableEq D] {m : Model D}
    (hm : m.Keyed facts) (levels : Nat) : ∀ {c c' : Conj} {scope : String → Prop},
      c.descend (·.mergeKeyed facts) levels = .ok c' → c.depth ≤ levels → Scoped scope c →
        (∀ s r, Meets facts c s → s.findRedundant? facts = some r →
          r.keep ≠ r.gone ∧ s.vars.count r.gone = 1) →
          ∀ env, c'.toTerm.value m env = c.toTerm.value m env := by
  induction levels using Nat.strong_induction_on with
  | _ levels ih =>
    intro c c' scope h hdepth hc hproper env
    obtain ⟨c₁, hmerges, hdone, hreworked⟩ := exists_merged h hdepth
    have hrun : ∀ t r, Relation.ReflTransGen (MergesTo facts) c t →
        t.findRedundant? facts = some r → r.keep ≠ r.gone ∧ t.vars.count r.gone = 1 :=
      fun t r ht => hproper t r (.here ht)
    have hc₁ := scoped_of_merges hmerges hc fun t r ht hr => (hrun t r ht hr).1
    rw [← value_of_merges hmerges hc hm hrun env]
    refine hreworked.keeps_value (fun d hd e he e' hwork => ?_) env
    obtain ⟨fewer, hlt, hedepth, hwork⟩ := hwork
    exact ih fewer hlt hwork hedepth (hc₁.nested hd he) fun s r hs =>
      hproper s r (.nested hmerges hdone hd he hs)

end Conj

/-! ## Disjunctions -/

namespace Disj

/-- While atoms are merged at all levels of a disjunction, the redundant atom `r` of the conjunction
`s` is dropped. -/
def Merges (facts : Facts) (d : Disj) (s : Conj) (r : Redundant) : Prop :=
  (∃ c ∈ d, c.Meets facts s) ∧ s.findRedundant? facts = some r

/-- **Merging by unique keys.** Let a disjunction be the normal form of a term over row variables,
none of which has the name of a tag, and let its atoms be merged at all levels. No variable becomes
free exactly if no variable is merged with itself. If, moreover, every variable that goes is listed
once among the binders, the value stays the same wherever the unique keys hold. -/
theorem mergeKeyed_sound {t : Term} {d e : Disj} {facts : Facts} (hbase : t.baseBinders = true)
    (hplain : PlainNames t.uses) (hd : t.normalize = .ok d)
    (he : d.descend (·.mergeKeyed facts) = .ok e) :
    ((∀ x ∈ e.freeNames, x ∈ d.freeNames) ↔
        ∀ s r, d.Merges facts s r → r.keep ≠ r.gone) ∧
      ((∀ s r, d.Merges facts s r → r.keep ≠ r.gone ∧ s.vars.count r.gone = 1) →
        ∀ (D : Type*) [Fintype D] [DecidableEq D] (m : Model D), m.Keyed facts →
          ∀ env, e.toTerm.value m env = d.toTerm.value m env) := by
  have hscoped := Term.scoped_of_normalize hbase hplain hd
  have hrel : List.Forall₂ (fun c c' : Conj => c.descend (·.mergeKeyed facts) c.depth = .ok c')
      d e := Conj.forall₂_of_mapM he fun _ _ _ h => h
  simp only [mem_freeNames]
  refine ⟨⟨fun hfree s r hmerges hself => ?_, fun hproper x hx => ?_⟩, ?_⟩
  -- A row that is merged with itself gets free.
  · obtain ⟨⟨c, hc, hmeets⟩, hr⟩ := hmerges
    obtain ⟨c', hc', hwork⟩ := Conj.exists_of_forall₂ hrel.flip hc
    obtain ⟨x, hx, hcx⟩ := Conj.exists_free_of_descend c.depth hwork (Nat.le_refl _)
      (hscoped c hc) hmeets hr hself
    exact hx (hfree x (free_iff.mpr ⟨c', hc', hcx⟩))
  · obtain ⟨c', hc', hx⟩ := free_iff.mp hx
    obtain ⟨c, hc, hwork⟩ := Conj.exists_of_forall₂ hrel hc'
    have hkept := Conj.scoped_of_descend c.depth hwork (Nat.le_refl _) (hscoped c hc)
      fun s r hs hr => hproper s r ⟨⟨c, hc, hs⟩, hr⟩
    exact hkept.scope_of_free hx
  · intro hproper D _ _ m hm env
    refine Conj.value_of_forall₂ hrel fun c hc c' hwork => ?_
    exact Conj.value_of_descend hm c.depth hwork (Nat.le_refl _) (hscoped c hc)
      (fun s r hs hr => hproper s r ⟨⟨c, hc, hs⟩, hr⟩) env

/-- The column `k` is a unique key of `R`. -/
def keyedByK : Facts :=
  ⟨[⟨"R", ["k"]⟩], [], []⟩

/-- `Sum{x, y}(R(x) * R(y) * [x.k = f.k] * [y.k = f.k] * R(f) * not(n))` with
`Sum{u, v}(R(u) * R(v) * [u.k = v.k] * P(v.a, y.b))` for `n`. -/
def linkedRows : Term :=
  .sum [.var "x", .var "y"] (.mul (.table "R" (.var "x")) (.mul (.table "R" (.var "y"))
    (.mul (.eq (.attr (.var "x") "k") (.attr (.var "f") "k"))
      (.mul (.eq (.attr (.var "y") "k") (.attr (.var "f") "k"))
        (.mul (.table "R" (.var "f"))
          (.not (.sum [.var "u", .var "v"] (.mul (.table "R" (.var "u"))
            (.mul (.table "R" (.var "v")) (.mul (.eq (.attr (.var "u") "k") (.attr (.var "v") "k"))
              (.pred "P" [.attr (.var "v") "a", .attr (.var "y") "b"])))))))))))

/-- Its normal form, with `x0` and `x1` for `x` and `y`, and `x2` and `x3` for `u` and `v`. -/
def linked : Conj :=
  ⟨[.var "x0", .var "x1"], [⟨"R", .var "x0"⟩, ⟨"R", .var "x1"⟩, ⟨"R", .var "f"⟩],
    [.eq (.attr (.var "x0") "k") (.attr (.var "f") "k"),
      .eq (.attr (.var "x1") "k") (.attr (.var "f") "k")], none,
    some [⟨[.var "x2", .var "x3"], [⟨"R", .var "x2"⟩, ⟨"R", .var "x3"⟩],
      [.eq (.attr (.var "x2") "k") (.attr (.var "x3") "k"),
        .pred "P" [.attr (.var "x3") "a", .attr (.var "x1") "b"]], none, none⟩]⟩

/-- What is negated after the merges at the top. -/
def linkedInner : Conj :=
  ⟨[.var "x2", .var "x3"], [⟨"R", .var "x2"⟩, ⟨"R", .var "x3"⟩],
    [.eq (.attr (.var "x2") "k") (.attr (.var "x3") "k"),
      .pred "P" [.attr (.var "x3") "a", .attr (.var "f") "b"]], none, none⟩

/-- `R(f) * not(Sum{x2}(R(x2) * P(x2.a, f.b)))`. -/
def linkedMerged : Conj :=
  ⟨[], [⟨"R", .var "f"⟩], [], none, some [⟨[.var "x2"], [⟨"R", .var "x2"⟩],
    [.pred "P" [.attr (.var "x2") "a", .attr (.var "f") "b"]], none, none⟩]⟩

/-- Merges at two levels. The one at the top goes on until a free variable is left, which then
stands in the negation too. -/
theorem mergeKeyed_sound_linked :
    (linkedRows.baseBinders = true ∧ PlainNames linkedRows.uses ∧
      linkedRows.normalize = .ok [linked] ∧
      Disj.descend (·.mergeKeyed keyedByK) [linked] = .ok [linkedMerged]) ∧
    (∀ s r, Merges keyedByK [linked] s r → r.keep ≠ r.gone ∧ s.vars.count r.gone = 1) ∧
    ∀ (D : Type) [Fintype D] [DecidableEq D] (m : Model D), m.Keyed keyedByK → ∀ env,
      Term.value m (Disj.toTerm [linkedMerged]) env = Term.value m (Disj.toTerm [linked]) env := by
  have hplain : PlainNames linkedRows.uses := by decide +kernel
  have hnormal : linkedRows.normalize = .ok [linked] := by decide +kernel
  have hmerged : Disj.descend (·.mergeKeyed keyedByK) [linked] = .ok [linkedMerged] := by
    decide +kernel
  -- The three merges, and the two ends.
  have hfirst : linked.findRedundant? keyedByK = some ⟨.var "x0", 1, .var "x1"⟩ := by
    decide +kernel
  have hsecond : (linked.dropRedundant ⟨.var "x0", 1, .var "x1"⟩).findRedundant? keyedByK
      = some ⟨.var "f", 0, .var "x0"⟩ := by
    decide +kernel
  have htop : ((linked.dropRedundant ⟨.var "x0", 1, .var "x1"⟩).dropRedundant
      ⟨.var "f", 0, .var "x0"⟩) = ⟨[], [⟨"R", .var "f"⟩], [], none, some [linkedInner]⟩ := by
    decide +kernel
  have hthird : linkedInner.findRedundant? keyedByK = some ⟨.var "x2", 1, .var "x3"⟩ := by
    decide +kernel
  have hinner : linkedInner.dropRedundant ⟨.var "x2", 1, .var "x3"⟩
      = ⟨[.var "x2"], [⟨"R", .var "x2"⟩],
        [.pred "P" [.attr (.var "x2") "a", .attr (.var "f") "b"]], none, none⟩ := by
    decide +kernel
  have hproper : ∀ s r, Merges keyedByK [linked] s r →
      r.keep ≠ r.gone ∧ s.vars.count r.gone = 1 := by
    rintro s r ⟨⟨c, hc, hmeets⟩, hr⟩
    obtain rfl := mem_singleton.mp hc
    rcases hmeets.of_some hfirst with rfl | hmeets
    · cases hfirst.symm.trans hr
      decide
    rcases hmeets.of_some hsecond with rfl | hmeets
    · cases hsecond.symm.trans hr
      decide +kernel
    rw [htop] at hmeets
    rcases hmeets.of_none (by decide) with rfl | ⟨d, hd, e, he, hmeets⟩
    · cases hr
    obtain rfl : d = [linkedInner] := by
      rcases hd with hd | hd
      · cases hd
      · cases hd
        rfl
    obtain rfl := mem_singleton.mp he
    rcases hmeets.of_some hthird with rfl | hmeets
    · cases hthird.symm.trans hr
      decide
    rw [hinner] at hmeets
    rcases hmeets.of_none (by decide) with rfl | ⟨d, hd, -⟩
    · cases hr
    · rcases hd with hd | hd
      · cases hd
      · cases hd
  exact ⟨⟨by decide, hplain, hnormal, hmerged⟩, hproper,
    (mergeKeyed_sound (by decide) hplain hnormal hmerged).2 hproper⟩

/-- `Sum{x}(R(x) * R(x))`. -/
def doubledRow : Term :=
  .sum [.var "x"] (.mul (.table "R" (.var "x")) (.table "R" (.var "x")))

/-- `Sum{x, y, y}(R(x) * R(y) * [x.k = y.k])`. -/
def relistedRow : Term :=
  .sum [.var "x", .var "y", .var "y"] (.mul (.table "R" (.var "x"))
    (.mul (.table "R" (.var "y")) (.eq (.attr (.var "x") "k") (.attr (.var "y") "k"))))

/-- Two rows, of which `true` is in every table once and which are their own columns. -/
def twoRows : Model Bool :=
  ⟨fun _ => false, fun _ d => d, fun _ _ => false, fun _ d => d.toNat, fun _ _ => false,
    fun _ => rfl⟩

/-- Without the two conditions merging changes values, and without the first one a variable
escapes: of `Sum{x0}(R(x0) * R(x0))` it leaves `R(x0)`, and of
`Sum{x0, x1, x1}(R(x0) * R(x1) * [x0.k = x1.k])` it leaves `Sum{x0}(R(x0))`. -/
theorem mergeKeyed_not_sound : twoRows.Keyed keyedByK ∧
    (∃ d e, doubledRow.normalize = .ok d ∧ d.descend (·.mergeKeyed keyedByK) = .ok e ∧
      "x0" ∈ e.freeNames ∧ "x0" ∉ d.freeNames ∧
      e.toTerm.value twoRows (fun _ => false) ≠ d.toTerm.value twoRows fun _ => false) ∧
    ∃ d e, relistedRow.normalize = .ok d ∧ d.descend (·.mergeKeyed keyedByK) = .ok e ∧
      (∀ x ∈ e.freeNames, x ∈ d.freeNames) ∧
      e.toTerm.value twoRows (fun _ => false) ≠ d.toTerm.value twoRows fun _ => false := by
  refine ⟨⟨by decide, by decide⟩, ?_, ?_⟩
  · exact ⟨[⟨[.var "x0"], [⟨"R", .var "x0"⟩, ⟨"R", .var "x0"⟩], [], none, none⟩],
      [⟨[], [⟨"R", .var "x0"⟩], [], none, none⟩], by decide +kernel⟩
  · exact ⟨[⟨[.var "x0", .var "x1", .var "x1"], [⟨"R", .var "x0"⟩, ⟨"R", .var "x1"⟩],
        [.eq (.attr (.var "x0") "k") (.attr (.var "x1") "k")], none, none⟩],
      [⟨[.var "x0"], [⟨"R", .var "x0"⟩], [], none, none⟩], by decide +kernel⟩

end Disj

end QueryRules
