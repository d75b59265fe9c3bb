import Mathlib.Data.List.Infix
import QueryRules.Proofs.NamedSymbols

/-!
# QueryRules — names after any calls

The tables of names grow by calls that give a symbol a name or ask for one. `Names.step_cases` says
what one call can do, and the invariants of all runs follow from it.
-/

namespace QueryRules

open List

namespace Names

variable {n n' : Names} {s : Symbol} {name : String} {kind : SymbolKind}

/-! ## Calls -/

/-- A call on the tables of names. -/
inductive Call where
  | set (s : Symbol) (name : String)
  | assign (s : Symbol)

/-- The tables that a call leaves behind, whether the name is accepted or refused. There are none if
the running number gets too large. -/
def step (n : Names) : Call → Option Names
  | .set s name => some (n.set s name).2
  | .assign s => (n.assign s).map Prod.snd

/-- The tables after calls on empty ones, if every call comes to its end. -/
def run (calls : List Call) : Option Names :=
  calls.foldlM step empty

theorem run_concat (calls : List Call) (call : Call) :
    run (calls ++ [call]) = (run calls).bind (step · call) := by
  unfold run
  rw [foldlM_append]
  cases calls.foldlM step empty <;> simp

/-- **What a call can do**: nothing, or a free name goes to a symbol in place of the one it had, and
the running number of its kind is kept ahead of the name. -/
theorem step_cases (h : n.Paired) {call : Call} (hstep : n.step call = some n') :
    n' = n ∨ ∃ s name, n.Binds s name n' := by
  cases call with
  | set s name =>
    have hset : (n.set s name).2 = n' := Option.some.inj hstep
    obtain ⟨e, heq⟩ | ⟨-, heq⟩ | ⟨_, heq, hb⟩ := set_cases h s name
    · rw [heq] at hset
      exact .inl hset.symm
    · rw [heq] at hset
      exact .inl hset.symm
    · rw [heq] at hset
      exact .inr ⟨s, name, hset ▸ hb⟩
  | assign s =>
    obtain ⟨found, hassign, hfound⟩ := Option.map_eq_some_iff.mp hstep
    obtain ⟨name, -, heq⟩ | ⟨-, heq⟩ | ⟨k, _, -, heq, hb, -⟩ := assign_cases h s
    · cases hassign.symm.trans heq
      exact .inl hfound.symm
    · cases hassign.symm.trans heq
    · cases hassign.symm.trans heq
      cases hfound
      exact .inr ⟨s, _, hb⟩

/-- The two tables stay together through any calls. -/
theorem paired_run {calls : List Call} : ∀ {n : Names}, run calls = some n → n.Paired := by
  induction calls using List.reverseRecOn with
  | nil =>
    intro n h
    cases h
    exact paired_empty
  | append_singleton calls call ih =>
    intro n h
    rw [run_concat] at h
    obtain ⟨before, hbefore, hstep⟩ := Option.bind_eq_some_iff.mp h
    rcases step_cases (ih hbefore) hstep with rfl | ⟨s, name, hb⟩
    · exact ih hbefore
    · exact (ih hbefore).binds hb

/-! ## Names and symbols belong together -/

/-- **The tables of names are inverse to each other.** After any calls on empty tables, a symbol has
a name exactly if the name has the symbol, and names begin with the letter of the kind. A name that
is refused leaves both tables and all running numbers as they were. Asking for a name gives the
symbol the name that is returned, which no other symbol had, and changes the name of no symbol that
has one. -/
theorem run_bijective (calls : List Call) (n : Names) (h : run calls = some n) :
    (∀ s name, n.nameOf? s = some name ↔ n.symbolOf? name = some s) ∧
    (∀ s name, n.nameOf? s = some name → name.toList.head? = some s.kind.letter) ∧
    (∀ s name e n', n.set s name = (.error e, n') → n' = n) ∧
    ∀ s name n', n.assign s = some (name, n') →
      n'.nameOf? s = some name ∧ n'.symbolOf? name = some s ∧
      (∀ t, n.symbolOf? name = some t → t = s) ∧
      ∀ t old, n.nameOf? t = some old → n'.nameOf? t = some old ∧ n'.symbolOf? old = some t := by
  have hn := paired_run h
  have hinverse : ∀ s name, n.nameOf? s = some name ↔ n.symbolOf? name = some s := fun s name => by
    rw [hn.nameOf?_eq_some_iff, hn.symbolOf?_eq_some_iff]
  refine ⟨hinverse, fun s name hs => hn.first _ (hn.nameOf?_eq_some_iff.mp hs),
    fun s name e n' hset => ?_, fun s name n' hassign => ?_⟩
  · obtain ⟨_, heq⟩ | ⟨-, heq⟩ | ⟨_, heq, -⟩ := set_cases hn s name
    · cases hset.symm.trans heq
      rfl
    · cases hset.symm.trans heq
    · cases hset.symm.trans heq
  · obtain ⟨_, hs, heq⟩ | ⟨-, heq⟩ | ⟨k, _, hs, heq, hb, -⟩ := assign_cases hn s
    · cases hassign.symm.trans heq
      have hname := (hinverse s name).mp hs
      exact ⟨hs, hname, fun t ht => Option.some.inj (ht.symm.trans hname),
        fun t old ht => ⟨ht, (hinverse t old).mp ht⟩⟩
    · cases hassign.symm.trans heq
    · cases hassign.symm.trans heq
      have hn' := hn.binds hb
      -- What stands in the tables afterwards can be looked up in both of them.
      have hlook : ∀ t w, (t, w) ∈ n'.entries → n'.nameOf? t = some w ∧ n'.symbolOf? w = some t :=
        fun t w hmem =>
          ⟨hn'.nameOf?_eq_some_iff.mpr hmem, hn'.symbolOf?_eq_some_iff.mpr hmem⟩
      have hentries := hb.entries_of_new (nameOf?_eq_none_iff.mp hs)
      rw [hentries] at hlook
      obtain ⟨hself, hname⟩ := hlook s _ (mem_append_right _ mem_cons_self)
      refine ⟨hself, hname, fun t ht => ?_, fun t old ht => ?_⟩
      · rw [hn.symbolOf?_eq_none_iff.mpr hb.free] at ht
        cases ht
      · exact hlook t old (mem_append_left _ (hn.nameOf?_eq_some_iff.mp ht))

/-- A table gets another name, which leaves its first one free. -/
def renamed : List Call :=
  [.set ⟨.source, .table, 0⟩ "t3", .assign ⟨.source, .table, 1⟩, .set ⟨.source, .table, 0⟩ "t9"]

/-- The tables after that. -/
def afterRenaming : Names :=
  ⟨[(⟨.source, .table, 1⟩, "t4"), (⟨.source, .table, 0⟩, "t9")],
    [("t4", ⟨.source, .table, 1⟩), ("t9", ⟨.source, .table, 0⟩)], 10, 0, 0⟩

/-- The name that was assigned in between is refused for a third table, and kept when one is
assigned to that. -/
theorem run_bijective_renamed : run renamed = some afterRenaming ∧
    afterRenaming.symbolOf? "t4" = some ⟨.source, .table, 1⟩ ∧
    (afterRenaming.set ⟨.target, .table, 0⟩ "t4").2 = afterRenaming ∧
    ((afterRenaming.assign ⟨.target, .table, 0⟩).any fun found =>
      found.2.nameOf? ⟨.source, .table, 1⟩ = some "t4") = true := by
  have hrun : run renamed = some afterRenaming := by decide +kernel
  obtain ⟨hinverse, -, hrefused, hassigned⟩ := run_bijective renamed afterRenaming hrun
  refine ⟨hrun, (hinverse _ _).mp rfl,
    hrefused ⟨.target, .table, 0⟩ "t4" (.duplicate "t4") _ rfl, ?_⟩
  cases hassign : afterRenaming.assign ⟨.target, .table, 0⟩ with
  | none => exact absurd hassign (by decide +kernel)
  | some found => exact decide_eq_true ((hassigned _ _ _ hassign).2.2.2 _ _ rfl).1

/-! ## Numbers of names -/

/-- The numbers in the names of a kind. -/
def numbers (n : Names) (kind : SymbolKind) : List Nat :=
  (n.entries.filter fun e => e.1.kind = kind).filterMap fun e => number? e.2

theorem mem_numbers {j : Nat} :
    j ∈ n.numbers kind ↔ ∃ e ∈ n.entries, e.1.kind = kind ∧ number? e.2 = some j := by
  simp [numbers, and_assoc]

/-- The numbers that names of a kind had at some time during the calls. -/
def numbersBefore (calls : List Call) (kind : SymbolKind) : List Nat :=
  calls.inits.flatMap fun earlier => ((run earlier).map (·.numbers kind)).getD []

theorem mem_numbersBefore_of_mem {calls : List Call} (h : run calls = some n) {j : Nat}
    (hj : j ∈ n.numbers kind) : j ∈ numbersBefore calls kind := by
  refine mem_flatMap.mpr ⟨calls, (mem_inits _ _).mpr (prefix_refl _), ?_⟩
  rw [h]
  exact hj

theorem mem_numbersBefore_concat {calls : List Call} {call : Call}
    (h : run (calls ++ [call]) = some n) {j : Nat} :
    j ∈ numbersBefore (calls ++ [call]) kind ↔
      j ∈ numbersBefore calls kind ∨ j ∈ n.numbers kind := by
  unfold numbersBefore
  rw [inits_append, flatMap_append, mem_append]
  simp [h]

/-- The running number of a kind is the least one that is ahead of all the given ones, or the last
one. -/
def Ahead (n : Names) (kind : SymbolKind) (past : List Nat) : Prop :=
  ∀ m, (n.next kind).toNat ≤ m ↔ ∀ j ∈ past, (after j).toNat ≤ m

theorem toNat_after (j : Nat) : (after j).toNat = min (j + 1) (UInt32.size - 1) :=
  UInt32.toNat_ofNat_of_lt' (Nat.lt_of_le_of_lt (Nat.min_le_right _ _) (by decide))

theorem next_setNext (n : Names) (kind kind' : SymbolKind) (k : UInt32) :
    (n.setNext kind k).next kind' = if kind' = kind then k else n.next kind' := by
  cases kind <;> cases kind' <;> rfl

/-- Binding a name moves the running number just ahead of the number in the name. -/
theorem next_binds_le_iff (hb : n.Binds s name n')
    (h : ∀ j ∈ n.numbers kind, (after j).toNat ≤ (n.next kind).toNat) (m : Nat) :
    (n'.next kind).toNat ≤ m ↔
      (n.next kind).toNat ≤ m ∧ ∀ j ∈ n'.numbers kind, (after j).toNat ≤ m := by
  have hnext : n'.next = (n.keepAhead s.kind name).next := by
    rw [hb.eq]
    exact funext fun kind => by cases kind <;> rfl
  -- The names of the kind afterwards are among those before and the new one.
  have hmem : ∀ j, j ∈ n'.numbers kind →
      j ∈ n.numbers kind ∨ s.kind = kind ∧ number? name = some j := by
    intro j hj
    obtain ⟨e, he, hkind, hj⟩ := mem_numbers.mp hj
    rw [hb.entries] at he
    rcases mem_append.mp he with he | he
    · exact .inl (mem_numbers.mpr ⟨e, mem_of_mem_filter he, hkind, hj⟩)
    · rw [mem_singleton.mp he] at hkind hj
      exact .inr ⟨hkind, hj⟩
  have hkept : (∀ j, ¬ (s.kind = kind ∧ number? name = some j)) → n'.next kind = n.next kind →
      ((n'.next kind).toNat ≤ m ↔
        (n.next kind).toNat ≤ m ∧ ∀ j ∈ n'.numbers kind, (after j).toNat ≤ m) := by
    intro hnot heq
    rw [heq]
    exact ⟨fun hm => ⟨hm, fun j hj => (h j ((hmem j hj).resolve_right (hnot j))).trans hm⟩,
      And.left⟩
  rw [hnext] at hkept ⊢
  unfold keepAhead at hkept ⊢
  cases hk : number? name with
  | none =>
    rw [hk] at hkept
    exact hkept (fun j hj => by cases hj.2) rfl
  | some k =>
    rw [hk] at hkept
    dsimp only at hkept ⊢
    rw [next_setNext] at hkept ⊢
    by_cases hkind : kind = s.kind
    · have hnew : k ∈ n'.numbers kind := by
        refine mem_numbers.mpr ⟨(s, name), ?_, hkind.symm, hk⟩
        rw [hb.entries]
        exact mem_append_right _ mem_cons_self
      rw [if_pos hkind, ← hkind, UInt32.toNat_max, Nat.max_le]
      refine and_congr_right fun hm => ⟨fun hkm j hj => ?_, fun hall => hall k hnew⟩
      rcases hmem j hj with hj | ⟨-, hj⟩
      · exact (h j hj).trans hm
      · rw [← Option.some.inj (hk.symm.trans hj)]
        exact hkm
    · rw [if_neg hkind] at hkept ⊢
      exact hkept (fun j hj => hkind hj.1.symm) rfl

/-- **The running number stays ahead** of the numbers of all times, as far as 32 bits go. -/
theorem ahead_run (kind : SymbolKind) {calls : List Call} :
    ∀ {n : Names}, run calls = some n → n.Ahead kind (numbersBefore calls kind) := by
  induction calls using List.reverseRecOn with
  | nil =>
    intro n h m
    cases h
    have hzero : (empty.next kind).toNat = 0 := by cases kind <;> rfl
    rw [hzero]
    exact iff_of_true (Nat.zero_le m) fun j hj => absurd hj not_mem_nil
  | append_singleton calls call ih =>
    intro n h m
    obtain ⟨before, hbefore, hstep⟩ := Option.bind_eq_some_iff.mp (run_concat calls call ▸ h)
    have hahead := ih hbefore
    have hlow : ∀ j ∈ before.numbers kind, (after j).toNat ≤ (before.next kind).toNat := fun j hj =>
      (hahead _).mp le_rfl j (mem_numbersBefore_of_mem hbefore hj)
    simp only [mem_numbersBefore_concat h, or_imp, forall_and, ← hahead m]
    rcases step_cases (paired_run hbefore) hstep with rfl | ⟨s, name, hb⟩
    · exact ⟨fun hm => ⟨hm, fun j hj => (hlow j hj).trans hm⟩, And.left⟩
    · exact next_binds_le_iff hb hlow m

/-- A symbol without a name gets one if the running number can be counted on: it is ahead of all
names, so the first try is free. -/
theorem isSome_assign_iff (hn : n.Paired) (hs : n.nameOf? s = none)
    (h : ∀ j ∈ n.numbers s.kind, (after j).toNat ≤ (n.next s.kind).toNat) :
    (n.assign s).isSome = true ↔ (n.next s.kind).toNat + 1 < UInt32.size := by
  constructor
  · intro hsome
    obtain ⟨_, hname, -⟩ | ⟨-, hnone⟩ | ⟨k, _, -, -, -, hle, hlt⟩ := assign_cases hn s
    · rw [hs] at hname
      cases hname
    · rw [hnone] at hsome
      cases hsome
    · omega
  · intro hlt
    -- All numbers in use are smaller, so the first try is free.
    have hfree : n.symbolOf? (numbered s.kind (n.next s.kind).toNat) = none := by
      refine hn.symbolOf?_eq_none_iff.mpr fun hmem => ?_
      obtain ⟨e, he, hname⟩ := mem_map.mp hmem
      have hletter := (hn.first e he).symm.trans (hname ▸ (isName_numbered s.kind _).first)
      have hkind : e.1.kind = s.kind := by
        revert hletter
        cases e.1.kind <;> cases s.kind <;> decide
      have hnumber := number?_numbered s.kind (n.next s.kind).toNat_lt
      have hback := h _ (mem_numbers.mpr ⟨e, he, hkind, hname ▸ hnumber⟩)
      rw [toNat_after] at hback
      omega
    obtain ⟨room, hroom⟩ : ∃ room, UInt32.size - 1 - (n.next s.kind).toNat = room + 1 :=
      ⟨UInt32.size - 1 - (n.next s.kind).toNat - 1, by omega⟩
    unfold assign
    rw [hs]
    dsimp only
    rw [hroom, firstFree?, hfree]
    rfl

/-- **When there is a next name.** After any calls, a symbol without a name gets one, without an
overflow of the running number, exactly if no name of its kind ever had one of the last two numbers
of 32 bits. Its number is above those of all names that the kind ever had. -/
theorem assign_ahead_iff (calls : List Call) (n : Names) (h : run calls = some n) (s : Symbol)
    (hs : n.nameOf? s = none) :
    ((n.assign s).isSome = true ↔ ∀ j ∈ numbersBefore calls s.kind, j + 2 < UInt32.size) ∧
    ∀ name n', n.assign s = some (name, n') → ∃ k, name = numbered s.kind k ∧
      (n'.next s.kind).toNat = k + 1 ∧ ∀ j ∈ numbersBefore calls s.kind, j < k := by
  have hn := paired_run h
  have hahead := ahead_run s.kind h
  have hlow := (hahead _).mp le_rfl
  constructor
  · rw [isSome_assign_iff hn hs fun j hj => hlow j (mem_numbersBefore_of_mem h hj)]
    -- The running number is the least one ahead of all names, so it has room if all of them do.
    have hlast := hahead (UInt32.size - 2)
    simp only [toNat_after] at hlast
    rw [show (n.next s.kind).toNat + 1 < UInt32.size ↔ (n.next s.kind).toNat ≤ UInt32.size - 2 from
      by rw [UInt32.size]; omega, hlast]
    refine forall₂_congr fun j _ => ?_
    rw [UInt32.size]
    omega
  · intro name n' hassign
    obtain ⟨_, hname, -⟩ | ⟨-, hnone⟩ | ⟨k, _, -, heq, hb, hle, hlt⟩ := assign_cases hn s
    · rw [hs] at hname
      cases hname
    · cases hassign.symm.trans hnone
    · cases hassign.symm.trans heq
      refine ⟨k, rfl, ?_, fun j hj => ?_⟩
      · rw [hb.eq, keepAhead_numbered hle hlt]
        have hnext : ((n.setNext s.kind (.ofNat (k + 1))).enter s (numbered s.kind k)).next s.kind
            = .ofNat (k + 1) := by cases s.kind <;> rfl
        rw [hnext]
        exact UInt32.toNat_ofNat_of_lt' hlt
      · have hj := hlow j hj
        rw [toNat_after] at hj
        omega

/-- The third table gets a number above those of the first two names, and of the one that was given
up. -/
theorem assign_ahead_renamed : numbersBefore renamed .table = [3, 3, 4, 4, 9] ∧
    ∃ name n', afterRenaming.assign ⟨.target, .table, 0⟩ = some (name, n') ∧
      ∃ k, name = numbered .table k ∧ ∀ j ∈ numbersBefore renamed .table, j < k := by
  have hpast : numbersBefore renamed .table = [3, 3, 4, 4, 9] := by decide +kernel
  obtain ⟨hiff, habove⟩ := assign_ahead_iff renamed afterRenaming (by decide +kernel)
    ⟨.target, .table, 0⟩ rfl
  have hsome := hiff.mpr (by
    show ∀ j ∈ numbersBefore renamed .table, j + 2 < UInt32.size
    rw [hpast]
    decide)
  obtain ⟨⟨name, n'⟩, hassign⟩ := Option.isSome_iff_exists.mp hsome
  obtain ⟨k, hname, -, hlt⟩ := habove name n' hassign
  exact ⟨hpast, name, n', hassign, k, hname, hlt⟩

/-- After a name with the last number there is no next one: counting on from there overflows. -/
theorem assign_overflows :
    let calls : List Call := [.set ⟨.source, .table, 0⟩ "t4294967295"]
    4294967295 ∈ numbersBefore calls .table ∧ (run calls).isSome = true ∧
      run (calls ++ [.assign ⟨.source, .table, 1⟩]) = none := by
  decide +kernel

end Names

end QueryRules
