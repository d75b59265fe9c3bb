import QueryRules.Proofs.CanonicalNames
import QueryRules.Proofs.PlanWalks

/-!
# QueryRules — what the terms of a plan read

A term of a plan mentions rows because a column reference was resolved to them, because a projection
is tied to joints, or because a left join pads with null. This module gives the free variables of
every factor that `Denote` writes.
-/

variable {c : Condition} {t : Term}

namespace QueryRules

open List

/-! ## What expressions read -/

namespace Denote

variable {owners : List (String × Tuple)} {x : String}

/-- One of the column references is resolved to the row variable `x`. -/
def Reads (owners : List (String × Tuple)) (refs : List (String × String)) (x : String) : Prop :=
  ∃ ref ∈ refs, ∃ row, owners.lookup ref.1 = some row ∧ row.uses (.var x) = true

theorem not_reads_nil : ¬ Reads owners [] x := by
  intro h
  obtain ⟨ref, href, -⟩ := h
  cases href

theorem reads_append {refs refs' : List (String × String)} :
    Reads owners (refs ++ refs') x ↔ Reads owners refs x ∨ Reads owners refs' x := by
  unfold Reads
  simp only [mem_append, or_and_right, exists_or]

mutual

/-- The tuple of an expression has the variables that its column references are resolved to. -/
theorem uses_tupleOf : (s : Scalar) → {t : Tuple} → tupleOf owners s = .ok t →
    (t.uses (.var x) = true ↔ Reads owners s.columns x)
  | .column q c, t, h => by
    rw [tupleOf] at h
    cases hrow : owners.lookup q with
    | none =>
      rw [hrow] at h
      cases h
    | some row =>
      rw [hrow] at h
      cases h
      rw [Tuple.uses_project_var, Scalar.columns, Reads]
      simp [hrow]
  | .literal text, t, h => by
    cases h
    simp [Tuple.uses, Scalar.columns, not_reads_nil]
  | .call f args, t, h => by
    rw [tupleOf] at h
    cases hargs : tuplesOf owners args with
    | error e =>
      rw [hargs] at h
      cases h
    | ok ts =>
      rw [hargs] at h
      cases h
      rw [Scalar.columns, ← anyUses_tuplesOf args hargs]
      simp [Tuple.uses]

theorem anyUses_tuplesOf : (ss : List Scalar) → {ts : List Tuple} → tuplesOf owners ss = .ok ts →
    (Tuple.anyUses ts (.var x) = true ↔ Reads owners (Scalar.columnsAll ss) x)
  | [], ts, h => by
    cases h
    simp [Tuple.anyUses, Scalar.columnsAll, not_reads_nil]
  | s :: ss, ts, h => by
    rw [tuplesOf, bind_eq_ok] at h
    obtain ⟨t, ht, h⟩ := h
    obtain ⟨rest, hrest, h⟩ := bind_eq_ok.mp h
    cases h
    rw [Tuple.anyUses, Bool.or_eq_true, Scalar.columnsAll, reads_append, uses_tupleOf s ht,
      anyUses_tuplesOf ss hrest]

end

theorem anyUses_iff {ts : List Tuple} {v : Tuple} :
    Tuple.anyUses ts v = true ↔ ∃ t ∈ ts, t.uses v = true := by
  induction ts with
  | nil => simp [Tuple.anyUses]
  | cons t ts ih => rw [Tuple.anyUses, Bool.or_eq_true, ih, exists_mem_cons_iff]

theorem columnsAll_map_column (refs : List (String × String)) :
    Scalar.columnsAll (refs.map fun (q, col) => .column q col) = refs := by
  induction refs with
  | nil => rfl
  | cons ref refs ih =>
    rw [map_cons, Scalar.columnsAll, ih, Scalar.columns, singleton_append]

theorem free_uninterpreted (h : uninterpreted owners c = .ok t) :
    t.Free x ↔ Reads owners c.columns x := by
  rw [uninterpreted, bind_eq_ok] at h
  obtain ⟨args, hargs, h⟩ := h
  cases h
  rw [Term.Free, anyUses_tuplesOf _ hargs, columnsAll_map_column]

theorem free_nullSafeEq {l r : Scalar} {t u : Tuple} (ht : tupleOf owners l = .ok t)
    (hu : tupleOf owners r = .ok u) :
    (nullSafeEq t u).Free x ↔ Reads owners (l.columns ++ r.columns) x := by
  rw [reads_append, ← uses_tupleOf l ht, ← uses_tupleOf r hu]
  simp only [nullSafeEq, Term.notNull, Term.Free, Tuple.anyUses, Bool.or_false]
  tauto

/-- A conjunct has the variables that its columns read. -/
theorem free_conjunctTerm (h : conjunctTerm owners c = .ok t) :
    t.Free x ↔ Reads owners c.columns x := by
  unfold conjunctTerm at h
  split at h
  · obtain ⟨l, hl, h⟩ := bind_eq_ok.mp h
    obtain ⟨r, hr, h⟩ := bind_eq_ok.mp h
    cases h
    exact free_nullSafeEq hl hr
  · -- a column and a literal
    obtain ⟨l, hl, h⟩ := bind_eq_ok.mp h
    cases h
    rw [Condition.columns, reads_append, ← uses_tupleOf _ hl]
    simp [Term.Free, Tuple.uses, Scalar.columns, not_reads_nil]
  · obtain ⟨r, hr, h⟩ := bind_eq_ok.mp h
    cases h
    rw [Condition.columns, reads_append, ← uses_tupleOf _ hr]
    simp [Term.Free, Tuple.uses, Scalar.columns, not_reads_nil]
  · split at h
    · obtain ⟨args, hargs, h⟩ := bind_eq_ok.mp h
      cases h
      exact anyUses_tuplesOf _ hargs
    · exact free_uninterpreted h
  · exact free_uninterpreted h

mutual

theorem reads_conjuncts : (c : Condition) →
    (Reads owners (c.conjuncts.flatMap Condition.columns) x ↔ Reads owners c.columns x)
  | .eq l r => by simp [Condition.conjuncts]
  | .call f args => by simp [Condition.conjuncts]
  | .all parts => by
    rw [Condition.conjuncts, Condition.columns]
    exact reads_conjunctsAll parts

theorem reads_conjunctsAll : (cs : List Condition) →
    (Reads owners ((Condition.conjunctsAll cs).flatMap Condition.columns) x ↔
      Reads owners (Condition.columnsAll cs) x)
  | [] => Iff.rfl
  | c :: cs => by
    rw [Condition.conjunctsAll, Condition.columnsAll, flatMap_append, reads_append,
      reads_append, reads_conjuncts c, reads_conjunctsAll cs]

end

/-- The factors of a list of conditions read what the conditions read. -/
theorem exists_free_mapM {α : Type} {as : List α} {f : α → Except DenoteError Term}
    {refs : α → List (String × String)} {ts : List Term}
    (hf : ∀ a ∈ as, ∀ t, f a = .ok t → (t.Free x ↔ Reads owners (refs a) x))
    (h : as.mapM f = .ok ts) : (∃ t ∈ ts, t.Free x) ↔ Reads owners (as.flatMap refs) x := by
  induction as generalizing ts with
  | nil =>
    cases h
    simp [not_reads_nil]
  | cons a as ih =>
    rw [mapM_cons, bind_eq_ok] at h
    obtain ⟨t, ht, h⟩ := h
    obtain ⟨rest, hrest, h⟩ := bind_eq_ok.mp h
    cases h
    rw [exists_mem_cons_iff, hf a mem_cons_self t ht,
      ih (fun b hb => hf b (mem_cons_of_mem a hb)) hrest, flatMap_cons, reads_append]

theorem free_filterTerm (h : filterTerm owners c = .ok t) :
    t.Free x ↔ Reads owners c.columns x := by
  rw [filterTerm, bind_eq_ok] at h
  obtain ⟨factors, hfactors, h⟩ := h
  cases h
  rw [Term.free_product, exists_free_mapM (fun c _ t ht => free_conjunctTerm ht) hfactors,
    reads_conjuncts]

/-- The pairs of an equality of columns have its columns. -/
theorem columns_of_columnEquality {cs : List Condition} {pairs : List (Scalar × Scalar)}
    (h : cs.mapM columnEquality? = some pairs) :
    (pairs.flatMap fun pair => pair.1.columns ++ pair.2.columns)
      = cs.flatMap Condition.columns := by
  induction cs generalizing pairs with
  | nil =>
    cases h
    rfl
  | cons c cs ih =>
    rw [mapM_cons] at h
    obtain ⟨pair, hpair, h⟩ := Option.bind_eq_some_iff.mp h
    obtain ⟨rest, hrest, h⟩ := Option.bind_eq_some_iff.mp h
    cases h
    have hc : pair.1.columns ++ pair.2.columns = c.columns := by
      unfold columnEquality? at hpair
      split at hpair
      · split at hpair
        · cases hpair
          rfl
        · cases hpair
      · cases hpair
    rw [flatMap_cons, flatMap_cons, ih hrest, hc]

/-- A join condition has the variables that its columns read. -/
theorem free_joinTerm (h : joinTerm owners c = .ok t) :
    t.Free x ↔ Reads owners c.columns x := by
  unfold joinTerm at h
  split at h
  · exact free_uninterpreted h
  · next pairs hpairs =>
    obtain ⟨factors, hfactors, h⟩ := bind_eq_ok.mp h
    cases h
    rw [Term.free_product, exists_free_mapM (fun pair _ t ht => ?_) hfactors,
      columns_of_columnEquality hpairs, reads_conjuncts]
    obtain ⟨l, hl, ht⟩ := bind_eq_ok.mp ht
    obtain ⟨r, hr, ht⟩ := bind_eq_ok.mp ht
    cases ht
    exact free_nullSafeEq hl hr

/-- The equalities of a projection read its joints and its items. -/
theorem free_itemTerms {joints : List Tuple} {items : List Item} {eqs : List Term}
    (hlength : joints.length = items.length)
    (h : itemTerms owners (joints.zip items) = .ok eqs) :
    (∃ t ∈ eqs, t.Free x) ↔ Tuple.anyUses joints (.var x) = true ∨
      Reads owners (items.flatMap fun i => i.expr.columns) x := by
  induction joints generalizing items eqs with
  | nil =>
    obtain rfl : items = [] := eq_nil_of_length_eq_zero hlength.symm
    cases h
    simp [Tuple.anyUses, not_reads_nil]
  | cons joint joints ih =>
    cases items with
    | nil => cases hlength
    | cons item items =>
      rw [zip_cons_cons, itemTerms, bind_eq_ok] at h
      obtain ⟨t, ht, h⟩ := h
      obtain ⟨rest, hrest, h⟩ := bind_eq_ok.mp h
      cases h
      rw [exists_mem_cons_iff, ih (Nat.succ.inj hlength) hrest, Term.Free,
        uses_tupleOf item.expr ht, Tuple.anyUses, Bool.or_eq_true, flatMap_cons, reads_append]
      tauto

/-- The rows of a list of owners are variables, so what is read is met. -/
theorem Reads.mem {refs : List (String × String)} (hvars : ∀ o ∈ owners, o.2.isVar = true)
    (h : Reads owners refs x) : .var x ∈ owners.map Prod.snd := by
  obtain ⟨ref, -, row, hlookup, huses⟩ := h
  obtain ⟨before, after, rfl, -⟩ := lookup_eq_some_iff.mp hlookup
  obtain ⟨y, rfl⟩ := Tuple.exists_eq_var (hvars (ref.1, row) (by simp))
  have hyx : y = x := by simpa [Tuple.uses] using huses
  simp [hyx]

end Denote

/-! ## The rows of a left join -/

namespace Denote

variable {w w' : Walk} {x : String}

variable {olds : List Tuple}

/-- What copying the rows of the right side does: the copies have the numbers that come next, there
is one null equality for each row, and what is free in the copied condition or right side is a copy
or was free before. -/
theorem copyRows_spec {cond rhs : Term}
    {r : List Tuple × List Term × Term × Term} (holds : ∀ old ∈ olds, old.isVar = true)
    (h : Runs (copyRows olds cond rhs) w r w') :
    w' = { w with next := w.next + olds.length } ∧
      r.2.1 = olds.map (fun old => .eq old .null) ∧
      (r.2.2.1.Free x → .var x ∈ r.1 ∨ cond.Free x) ∧
      (r.2.2.2.Free x → .var x ∈ r.1 ∨ rhs.Free x) := by
  induction olds generalizing cond rhs w r with
  | nil =>
    obtain ⟨rfl, rfl⟩ := runs_pure.mp h
    exact ⟨rfl, rfl, .inr, .inr⟩
  | cons old olds ih =>
    obtain ⟨v, rfl⟩ := Tuple.exists_eq_var (holds old mem_cons_self)
    obtain ⟨new, w₁, hnew, h⟩ := runs_bind.mp h
    obtain ⟨s, w₂, hrest, h⟩ := runs_bind.mp h
    obtain ⟨rfl, rfl⟩ := runs_pure.mp h
    cases hnew
    obtain ⟨rfl, hnulls, hcond, hrhs⟩ := ih (fun o ho => holds o (mem_cons_of_mem _ ho)) hrest
    -- A variable of the copy is new, or it was there before.
    have hback : ∀ {t : Term}, .var x ∈ s.1 ∨ (t.subst (.var v) (numberedRow w.next)).Free x →
        .var x ∈ numberedRow w.next :: s.1 ∨ t.Free x := by
      rintro t (hmem | hfree)
      · exact .inl (mem_cons_of_mem _ hmem)
      · rcases Term.free_subst_var hfree with rfl | hfree
        · exact .inl mem_cons_self
        · exact .inr hfree.2
    refine ⟨?_, ?_, fun hx => hback (hcond hx), fun hx => hback (hrhs hx)⟩
    · simp only [length_cons, Walk.mk.injEq, true_and]
      omega
    · rw [map_cons, ← hnulls]

theorem free_null_iff (holds : ∀ old ∈ olds, old.isVar = true) :
    (∃ u ∈ olds.map fun old => Term.eq old .null, u.Free x) ↔ .var x ∈ olds := by
  have hnull : ∀ old ∈ olds, (Term.eq old .null).Free x ↔ old = .var x := by
    intro old hold
    obtain ⟨v, rfl⟩ := Tuple.exists_eq_var (holds old hold)
    simp [Term.Free, Tuple.null, Tuple.uses]
  constructor
  · intro h
    obtain ⟨u, hu, hfree⟩ := h
    obtain ⟨old, hold, rfl⟩ := mem_map.mp hu
    rw [hnull old hold] at hfree
    exact hfree ▸ hold
  · intro hmem
    exact ⟨_, mem_map.mpr ⟨_, hmem, rfl⟩, (hnull _ hmem).mpr rfl⟩

/-- A left join has the free variables of its parts and the rows of its right side. Only the number
of the next row changes. -/
theorem leftJoinTerm_spec {cond lhs rhs t : Term}
    (holds : ∀ old ∈ olds, old.isVar = true) (h : Runs (leftJoinTerm cond lhs rhs olds) w t w') :
    w' = { w with next := w.next + olds.length } ∧
      (∃ padded, t = .add (.mul (.mul cond lhs) rhs) padded) ∧
      ∀ x, t.Free x ↔ ((cond.Free x ∨ lhs.Free x) ∨ rhs.Free x) ∨ .var x ∈ olds := by
  unfold leftJoinTerm at h
  obtain ⟨r, w₁, hcopy, h⟩ := runs_bind.mp h
  obtain ⟨rfl, rfl⟩ := runs_pure.mp h
  refine ⟨(copyRows_spec (x := "") holds hcopy).1, ⟨_, rfl⟩, fun x => ?_⟩
  obtain ⟨-, hnulls, hcond, hrhs⟩ := copyRows_spec (x := x) holds hcopy
  -- The copies are bound, so below the negation nothing new is free.
  have hunmatched : (Term.not (.sumOver r.1 (.mul r.2.2.1 r.2.2.2))).Free x →
      cond.Free x ∨ rhs.Free x := by
    intro hfree
    obtain ⟨hbound, hfree⟩ := Term.free_sumOver.mp hfree
    rcases hfree with hfree | hfree
    · exact .inl ((hcond hfree).resolve_left hbound)
    · exact .inr ((hrhs hfree).resolve_left hbound)
  have hnull := free_null_iff (x := x) holds
  rw [← hnulls] at hnull
  cases hn : r.2.1 with
  | nil =>
    rw [hn] at hnull
    constructor
    · intro hfree
      rcases hfree with hfree | hfree | hfree
      · exact .inl hfree
      · exact .inl (.inl (.inr hfree))
      · exact .inl ((hunmatched hfree).imp_left .inl)
    · intro hfree
      rcases hfree with hfree | hmem
      · exact .inl hfree
      · obtain ⟨u, hu, -⟩ := hnull.mpr hmem
        cases hu
  | cons u us =>
    rw [hn, ← Term.free_foldl_mul] at hnull
    constructor
    · intro hfree
      rcases hfree with hfree | hfree | hfree | hfree
      · exact .inl hfree
      · exact .inl (.inl (.inr hfree))
      · exact .inr (hnull.mp hfree)
      · exact .inl ((hunmatched hfree).imp_left .inl)
    · intro hfree
      exact hfree.imp_right fun hmem => .inr (.inl (hnull.mpr hmem))

end Denote

end QueryRules
