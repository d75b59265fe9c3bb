import Mathlib.Data.List.Nodup
import Mathlib.Data.List.Perm.Subperm
import QueryRules.Reduction.Law

/-!
# QueryRules — fresh names are fresh

A supply of names never hands out a name that is taken or that it handed out before. What it must
avoid is `FreshNames.Reserved`: the taken names and the numbers below the running one. The supply
that a reduction starts with reserves every variable of the term, binders included
(`Law.freshFor_reserves`).
-/

namespace QueryRules

open List OrderedSet

/-! ## The supply -/

namespace FreshNames

/-- A name that the supply will not hand out: it is taken, or its number has been passed. -/
def Reserved (s : FreshNames) (x : String) : Prop :=
  x ∈ s.taken ∨ ∃ k, k < s.next ∧ x = s.name k

/-- Names with one stem differ in their numbers. -/
theorem append_repr_inj {stem : String} {j k : Nat} (h : stem ++ j.repr = stem ++ k.repr) :
    j = k := by
  have hlist : stem.toList ++ j.repr.toList = stem.toList ++ k.repr.toList := by
    rw [← String.toList_append, ← String.toList_append, h]
  have hdigits : Nat.toDigits 10 j = Nat.toDigits 10 k := by
    simpa using append_cancel_left hlist
  have hread := congrArg (fun ds => Nat.ofDigitChars 10 ds 0) hdigits
  simpa using hread

theorem name_inj (s : FreshNames) {j k : Nat} (h : s.name j = s.name k) : j = k :=
  append_repr_inj h

theorem le_firstFree (s : FreshNames) (tries n : Nat) : n ≤ s.firstFree tries n := by
  induction tries generalizing n with
  | zero => exact Nat.le_refl n
  | succ tries ih =>
    unfold firstFree
    split
    · exact Nat.le_of_succ_le (ih (n + 1))
    · exact Nat.le_refl n

/-- A search that ends at a taken name has seen taken names only. -/
theorem mem_taken_of_firstFree (s : FreshNames) {tries n : Nat}
    (h : s.name (s.firstFree tries n) ∈ s.taken) :
    ∀ k, n ≤ k → k ≤ n + tries → s.name k ∈ s.taken := by
  induction tries generalizing n with
  | zero =>
    intro k hk hk'
    have hkn : k = n := by omega
    rw [hkn]
    exact h
  | succ tries ih =>
    intro k hk hk'
    unfold firstFree at h
    by_cases hn : s.name n ∈ s.taken
    · rw [if_pos hn] at h
      rcases Nat.eq_or_lt_of_le hk with hkn | hkn
      · rw [← hkn]
        exact hn
      · exact ih h k hkn (by omega)
    · rw [if_neg hn] at h
      exact absurd h hn

/-- As many tries as there are taken names are enough: one more name is looked at than can be
taken. -/
theorem firstFree_not_mem (s : FreshNames) (n : Nat) :
    s.name (s.firstFree s.taken.length n) ∉ s.taken := by
  intro h
  have hall := s.mem_taken_of_firstFree h
  let seen := (List.range' n (s.taken.length + 1)).map s.name
  have hnodup : seen.Nodup :=
    List.Nodup.map (fun _ _ hjk => s.name_inj hjk) (nodup_range' 1)
  have hsub : seen ⊆ s.taken := by
    intro x hx
    obtain ⟨k, hk, rfl⟩ := mem_map.mp hx
    rw [mem_range'_1] at hk
    exact hall k hk.1 (by omega)
  have hlen : seen.length ≤ s.taken.length := (hnodup.subperm hsub).length_le
  simp only [seen, length_map, length_range'] at hlen
  omega

/-- The name that is picked was not reserved. -/
theorem pick_not_reserved (s : FreshNames) : ¬ s.Reserved s.pick.1 := by
  rintro (htaken | ⟨k, hk, hname⟩)
  · exact s.firstFree_not_mem s.next htaken
  · have hkn : s.firstFree s.taken.length s.next = k := s.name_inj hname
    have hle := s.le_firstFree s.taken.length s.next
    omega

/-- The name that is picked is reserved from then on. -/
theorem reserved_pick (s : FreshNames) : s.pick.2.Reserved s.pick.1 :=
  .inr ⟨s.firstFree s.taken.length s.next, Nat.lt_succ_self _, rfl⟩

/-- What was reserved stays so. -/
theorem Reserved.pick {s : FreshNames} {x : String} (h : s.Reserved x) : s.pick.2.Reserved x := by
  rcases h with htaken | ⟨k, hk, hname⟩
  · exact .inl htaken
  · refine .inr ⟨k, ?_, hname⟩
    have hle := s.le_firstFree s.taken.length s.next
    show k < s.firstFree s.taken.length s.next + 1
    omega

end FreshNames

/-! ## Sets -/

namespace OrderedSet

variable {α : Type} [Ord α] [Std.LawfulEqOrd α]

theorem mem_insert {a b : α} {s : OrderedSet α} : b ∈ insert a s ↔ b = a ∨ b ∈ s := by
  induction s with
  | nil => simp [insert]
  | cons c rest ih =>
    unfold insert
    cases h : compare a c with
    | lt => simp
    | eq =>
      have hac : a = c := Std.LawfulEqOrd.eq_of_compare h
      subst hac
      simp
    | gt =>
      simp only [mem_cons, ih]
      tauto

theorem mem_insertAll {b : α} {s : OrderedSet α} {as : List α} :
    b ∈ insertAll s as ↔ b ∈ s ∨ b ∈ as := by
  induction as generalizing s with
  | nil => simp [insertAll]
  | cons a as ih =>
    have hstep : insertAll s (a :: as)
        = insertAll (insert a s) as := rfl
    rw [hstep, ih, mem_insert, mem_cons]
    tauto

end OrderedSet

/-! ## The names of a term -/

mutual

theorem Tuple.mem_collectVars {v : Tuple} {seen : List Tuple} : (t : Tuple) →
    (v ∈ t.collectVars seen ↔ v ∈ seen ∨ (v.isVar = true ∧ t.uses v = true))
  | .var n => by
    unfold Tuple.collectVars
    split
    · next hmem =>
      refine ⟨.inl, ?_⟩
      rintro (h | ⟨_, h⟩)
      · exact h
      · have hv : Tuple.var n = v := by simpa [Tuple.uses] using h
        rw [← hv]
        exact hmem
    · rw [mem_append, mem_singleton]
      refine or_congr Iff.rfl ⟨?_, ?_⟩
      · rintro rfl
        exact ⟨rfl, by simp [Tuple.uses]⟩
      · rintro ⟨_, h⟩
        have hv : Tuple.var n = v := by simpa [Tuple.uses] using h
        exact hv.symm
  | .const c => by
    have hnot : ¬ (v.isVar = true ∧ (Tuple.const c).uses v = true) := by
      rintro ⟨hvar, h⟩
      have hv : Tuple.const c = v := by simpa [Tuple.uses] using h
      rw [← hv] at hvar
      exact absurd hvar (by simp [Tuple.isVar])
    simp [Tuple.collectVars, hnot]
  | .attr base a => by
    rw [Tuple.collectVars, Tuple.mem_collectVars base]
    refine or_congr Iff.rfl (and_congr_right fun hvar => ?_)
    -- A projection is no variable, so only its base is looked at.
    have hne : Tuple.attr base a ≠ v := by rintro rfl; simp [Tuple.isVar] at hvar
    simp [Tuple.uses, hne]
  | .call f args => by
    rw [Tuple.collectVars, Tuple.mem_collectVarsAll args]
    refine or_congr Iff.rfl (and_congr_right fun hvar => ?_)
    have hne : Tuple.call f args ≠ v := by rintro rfl; simp [Tuple.isVar] at hvar
    simp [Tuple.uses, hne]

theorem Tuple.mem_collectVarsAll {v : Tuple} {seen : List Tuple} : (ts : List Tuple) →
    (v ∈ Tuple.collectVarsAll seen ts ↔ v ∈ seen ∨ (v.isVar = true ∧ Tuple.anyUses ts v = true))
  | [] => by simp [Tuple.collectVarsAll, Tuple.anyUses]
  | t :: ts => by
    rw [Tuple.collectVarsAll, Tuple.mem_collectVarsAll ts, Tuple.mem_collectVars t, Tuple.anyUses,
      Bool.or_eq_true]
    tauto

end

namespace Term

/-- Every variable that occurs in a term, in an atom or as a binder, is among its names. -/
theorem mem_collectNames {x : String} {t : Term} {seen : OrderedSet String} :
    x ∈ t.collectNames seen ↔ x ∈ seen ∨ t.uses (.var x) = true := by
  have hname : ∀ {vs : List Tuple}, x ∈ vs.filterMap Tuple.name? ↔ .var x ∈ vs := by
    intro vs
    rw [mem_filterMap]
    constructor
    · rintro ⟨v, hv, hx⟩
      cases v with
      | var y =>
        have hyx : y = x := by simpa [Tuple.name?] using hx
        rw [← hyx]
        exact hv
      | const c | attr b a | call f args => simp [Tuple.name?] at hx
    · exact fun h => ⟨.var x, h, rfl⟩
  induction t generalizing seen with
  | table n row =>
    simp [collectNames, mem_insertAll, hname, atomVars, collectAtomVars,
      Tuple.mem_collectVars, Tuple.isVar, uses]
  | pred n args =>
    simp [collectNames, mem_insertAll, hname, atomVars, collectAtomVars,
      Tuple.mem_collectVarsAll, Tuple.isVar, uses]
  | eq l r =>
    simp [collectNames, mem_insertAll, hname, atomVars, collectAtomVars,
      Tuple.mem_collectVars, Tuple.isVar, uses]
  | add l r ihl ihr | mul l r ihl ihr =>
    refine ihr.trans ?_
    rw [uses, Bool.or_eq_true, ← or_assoc]
    exact or_congr ihl Iff.rfl
  | not t ih | squash t ih => exact ih
  | sum vars body ih =>
    refine ih.trans ?_
    rw [mem_insertAll, hname, uses, Bool.or_eq_true, decide_eq_true_eq, or_assoc]

end Term

/-- The supply for a term reserves every variable that occurs in it. -/
theorem Law.freshFor_reserves {t : Term} {x : String} (h : t.uses (.var x) = true) :
    (Law.freshFor t).Reserved x :=
  .inl (Term.mem_collectNames.mpr (.inr h))

end QueryRules
