import Mathlib.Data.List.Induction
import Mathlib.Logic.Function.Iterate
import Mathlib.Logic.Relation
import QueryRules.Congruence
import QueryRules.Proofs.Preliminaries

/-!
# QueryRules — merging computes the least equivalence relation

A congruence is grown by adding values and merging the classes of two values. What comes out is the
least equivalence relation that joins the merged pairs (`Congruence.same_run`, and
`Congruence.same_ofPairs` for merges alone); `Congruence.run_computes_closure` adds what the forest
of its values has to do with the order in which they came.
-/

namespace QueryRules

open List

namespace Congruence

section Forest

variable {α : Type} {g : Congruence α}

/-! ## Roots -/

/-- Parents come first, so as many steps as the place are enough. -/
theorem climb_succ {steps i : Nat} (h : i ≤ steps) : g.climb (steps + 1) i = g.climb steps i := by
  induction steps generalizing i with
  | zero =>
    have hle : g.parent i ≤ i := g.parent_le i
    unfold climb climb
    split <;> omega
  | succ steps ih =>
    unfold climb
    split
    · rfl
    · next hne =>
      have hlt := Nat.lt_of_le_of_ne (g.parent_le i) hne
      exact ih (Nat.le_of_lt_succ (Nat.lt_of_lt_of_le hlt h))

theorem parent_of_length_le {i : Nat} (h : g.keys.length ≤ i) : g.parent i = i := by
  unfold parent
  rw [getD_eq_getElem?_getD, getElem?_eq_none (g.length_eq ▸ h), Option.getD_none]

theorem root_of_parent {i : Nat} (h : g.parent i = i) : g.root i = i := by
  unfold root
  cases g.keys.length with
  | zero => rfl
  | succ n => rw [climb, if_pos h]

/-- Where no value is listed, there is nothing to climb. -/
theorem root_of_length_le {i : Nat} (h : g.keys.length ≤ i) : g.root i = i :=
  root_of_parent (parent_of_length_le h)

theorem root_parent (g : Congruence α) (i : Nat) : g.root (g.parent i) = g.root i := by
  by_cases h : g.parent i = i
  · rw [h]
  · have hlt : i < g.keys.length := by
      by_contra hle
      exact h (parent_of_length_le (Nat.le_of_not_lt hle))
    have hle := g.parent_le i
    unfold root
    obtain ⟨n, hn⟩ := Nat.exists_eq_add_of_lt hlt
    rw [hn, climb_succ (by unfold parent; omega)]
    conv_rhs => rw [climb, if_neg h]

/-- What holds of a place that is its own parent, and of a place if it holds of the parent, holds of
every place and its root. Induction on the place, since parents come first. -/
theorem root_induction {P : Nat → Nat → Prop} (hroot : ∀ i, g.parent i = i → P i i)
    (hstep : ∀ i r, P (g.parent i) r → P i r) (i : Nat) : P i (g.root i) := by
  induction i using Nat.strongRecOn with
  | ind i ih =>
    by_cases h : g.parent i = i
    · rw [root_of_parent h]
      exact hroot i h
    · rw [← root_parent]
      exact hstep i _ (ih _ (Nat.lt_of_le_of_ne (g.parent_le i) h))

theorem root_le (g : Congruence α) (i : Nat) : g.root i ≤ i :=
  root_induction (P := fun i r => r ≤ i) (fun _ _ => Nat.le_refl _)
    (fun i _ h => Nat.le_trans h (g.parent_le i)) i

theorem parent_root (g : Congruence α) (i : Nat) : g.parent (g.root i) = g.root i :=
  root_induction (P := fun _ r => g.parent r = r) (fun _ h => h) (fun _ _ h => h) i

/-- The root is the only function that fixes roots and does not change from a place to its parent.
-/
theorem root_eq {f : Nat → Nat} (hroot : ∀ i, g.parent i = i → f i = i)
    (hstep : ∀ i, f (g.parent i) = f i) (i : Nat) : g.root i = f i :=
  root_induction (P := fun i r => r = f i) (fun i h => (hroot i h).symm)
    (fun i _ h => h.trans (hstep i)) i

/-- After a link the earlier of two roots is the root of both trees. -/
theorem root_link {i j : Nat} (hi : g.parent i = i) (hj : g.parent j = j)
    (hlt : max i j < g.keys.length) (hne : i ≠ j) (k : Nat) :
    (g.link i j).root k = if g.root k = max i j then min i j else g.root k := by
  have hparent : ∀ k, (g.link i j).parent k = if k = max i j then min i j else g.parent k := by
    intro k
    unfold link parent
    grind [g.length_eq]
  have hmax : g.root (max i j) = max i j := root_of_parent (by grind)
  have hmin : g.root (min i j) = min i j := root_of_parent (by grind)
  refine root_eq (f := fun k => if g.root k = max i j then min i j else g.root k) (fun k h => ?_)
    (fun k => ?_) k
  · rw [hparent] at h
    split at h
    · omega
    · next hk => rw [root_of_parent h, if_neg hk]
  · rw [hparent]
    split
    · next hk => rw [hmin, hk, hmax, if_pos rfl, if_neg (by omega)]
    · rw [root_parent]

/-- No value is listed twice. -/
theorem getElem?_inj {x : α} {i j : Nat} (hi : g.keys[i]? = some x) (hj : g.keys[j]? = some x) :
    i = j :=
  (List.getElem?_inj (List.getElem?_eq_some_iff.mp hi).1 g.nodup).mp (hi.trans hj.symm)

end Forest

variable {α : Type} [DecidableEq α] {g g' : Congruence α} {a b k l x y z : α}

theorem add_of_mem (h : a ∈ g.keys) : g.add a = g :=
  dif_pos h

theorem keys_add_of_new (h : a ∉ g.keys) : (g.add a).keys = g.keys ++ [a] := by
  rw [add, dif_neg h]

theorem root_add (g : Congruence α) (a : α) (i : Nat) : (g.add a).root i = g.root i := by
  have hparent : ∀ i, (g.add a).parent i = g.parent i := by
    intro i
    unfold add parent
    split
    · rfl
    · grind [g.length_eq]
  refine root_eq (fun i h => root_of_parent ?_) (fun i => ?_) i
  · rw [← hparent, h]
  · rw [hparent, root_parent]

/-! ## Leaders -/

theorem mem_keys_of_leader (h : g.leader? x = some l) : x ∈ g.keys := by
  by_contra hx
  unfold leader? at h
  rw [idxOf_eq_length hx, root_of_length_le (Nat.le_refl _),
    getElem?_eq_none (Nat.le_refl _)] at h
  cases h

theorem exists_leader? (h : x ∈ g.keys) : ∃ l, g.leader? x = some l :=
  ⟨_, getElem?_eq_getElem (Nat.lt_of_le_of_lt (g.root_le _) (idxOf_lt_length_of_mem h))⟩

theorem leader_mem_keys (h : g.leader? x = some l) : l ∈ g.keys :=
  mem_of_getElem? h

/-- What is added leads itself. -/
theorem leader?_add (h : a ∉ g.keys) :
    (g.add a).leader? x = if x = a then some a else g.leader? x := by
  unfold leader?
  rw [root_add, keys_add_of_new h]
  by_cases hx : x ∈ g.keys
  · have hroot := Nat.lt_of_le_of_lt (g.root_le _) (idxOf_lt_length_of_mem hx)
    rw [idxOf_append_of_mem hx, getElem?_append_left hroot,
      if_neg fun heq : x = a => h (heq ▸ hx)]
  · rw [idxOf_append_of_notMem hx, idxOf_eq_length hx,
      root_of_length_le (Nat.le_add_right _ _), root_of_length_le (Nat.le_refl _),
      getElem?_append_right (Nat.le_add_right _ _), Nat.add_sub_cancel_left]
    grind

/-- A link hands the members of one class to the leader of the other. -/
theorem leader?_link {i j : Nat} (hi : g.parent i = i) (hj : g.parent j = j) (hne : i ≠ j)
    (ha : g.keys[i]? = some a) (hb : g.keys[j]? = some b) :
    ∃ keep merge, (keep = a ∧ merge = b ∨ keep = b ∧ merge = a) ∧ ∀ x, (g.link i j).leader? x =
      (g.leader? x).map fun l => if l = merge then keep else l := by
  -- The key that came first stays a leader.
  obtain ⟨keep, merge, hends, hkeep, hmerge⟩ : ∃ keep merge,
      (keep = a ∧ merge = b ∨ keep = b ∧ merge = a) ∧ g.keys[min i j]? = some keep ∧
        g.keys[max i j]? = some merge := by
    rcases Nat.le_total i j with hle | hle
    · rw [Nat.min_eq_left hle, Nat.max_eq_right hle]
      exact ⟨a, b, .inl ⟨rfl, rfl⟩, ha, hb⟩
    · rw [Nat.min_eq_right hle, Nat.max_eq_left hle]
      exact ⟨b, a, .inr ⟨rfl, rfl⟩, hb, ha⟩
  refine ⟨keep, merge, hends, fun x => ?_⟩
  show g.keys[(g.link i j).root (g.keys.idxOf x)]? = _
  rw [root_link hi hj (List.getElem?_eq_some_iff.mp hmerge).1 hne, leader?]
  split
  · next heq => rw [hkeep, heq, hmerge, Option.map_some, if_pos rfl]
  · next hroot =>
    cases hl : g.keys[g.root (g.keys.idxOf x)]? with
    | none => rfl
    | some l =>
      rw [Option.map_some, if_neg]
      rintro rfl
      exact hroot (getElem?_inj hl hmerge)

/-! ## Equivalence -/

/-- Two elements are in one class if they have one leader. -/
theorem same_iff :
    g.same x y = true ↔ x = y ∨ ∃ l, g.leader? x = some l ∧ g.leader? y = some l := by
  unfold same
  by_cases hxy : x = y
  · simp [hxy]
  · rw [if_neg hxy]
    cases hx : g.leader? x with
    | none => simp [hxy]
    | some lx =>
      cases hy : g.leader? y with
      | none => simp [hxy]
      | some ly => simp [hxy, eq_comm]

/-- Standing in one class is an equivalence. -/
theorem same_equivalence (g : Congruence α) : Equivalence fun x y => g.same x y = true where
  refl x := same_iff.mpr (.inl rfl)
  symm {x y} h := by
    rw [same_iff] at h ⊢
    rcases h with rfl | ⟨l, hx, hy⟩
    · exact .inl rfl
    · exact .inr ⟨l, hy, hx⟩
  trans {x y z} hxy hyz := by
    rw [same_iff] at hxy hyz ⊢
    rcases hxy with rfl | ⟨l, hx, hy⟩
    · exact hyz
    rcases hyz with rfl | ⟨l', hy', hz⟩
    · exact .inr ⟨l, hx, hy⟩
    · obtain rfl : l = l' := Option.some.inj (hy.symm.trans hy')
      exact .inr ⟨l, hx, hz⟩

/-- Adding a value joins nothing. -/
theorem same_add : (g.add a).same x y = g.same x y := by
  by_cases ha : a ∈ g.keys
  · rw [add_of_mem ha]
  have hleader : ∀ z, g.leader? z ≠ some a := fun z hz => ha (leader_mem_keys hz)
  have hmember : ∀ l, g.leader? a ≠ some l := fun l hl => ha (mem_keys_of_leader hl)
  rw [Bool.eq_iff_iff, same_iff, same_iff, leader?_add ha, leader?_add ha]
  grind

/-- Different values that are equivalent are listed. -/
theorem mem_keys_of_same (h : g.same x y = true) (hne : x ≠ y) : x ∈ g.keys ∧ y ∈ g.keys := by
  rcases same_iff.mp h with heq | ⟨l, hx, hy⟩
  · exact absurd heq hne
  · exact ⟨mem_keys_of_leader hx, mem_keys_of_leader hy⟩

/-! ## Merging -/

theorem mem_keys_add : x ∈ (g.add a).keys ↔ x ∈ g.keys ∨ x = a := by
  by_cases ha : a ∈ g.keys
  · rw [add_of_mem ha]
    exact ⟨.inl, fun h => h.elim id fun heq => heq ▸ ha⟩
  · rw [keys_add_of_new ha, mem_append, mem_singleton]

/-- What merging can do: both values are added, and unless they have the same leader, one leader
hands over to the other. -/
theorem union_cases (g : Congruence α) (a b : α) : ∃ la lb,
    ((g.add a).add b).leader? a = some la ∧ ((g.add a).add b).leader? b = some lb ∧
      ((la = lb ∧ g.union a b = ((g.add a).add b, false)) ∨
        la ≠ lb ∧ (g.union a b).2 = true ∧ (g.union a b).1.keys = ((g.add a).add b).keys ∧
          ∃ keep merge, (keep = la ∧ merge = lb ∨ keep = lb ∧ merge = la) ∧
            ∀ x, (g.union a b).1.leader? x =
              (((g.add a).add b).leader? x).map fun l => if l = merge then keep else l) := by
  unfold union
  generalize hg : (g.add a).add b = g'
  have ha : a ∈ g'.keys := by
    rw [← hg, mem_keys_add, mem_keys_add]
    exact .inl (.inr rfl)
  have hb : b ∈ g'.keys := by
    rw [← hg, mem_keys_add]
    exact .inr rfl
  obtain ⟨la, hla⟩ := exists_leader? ha
  obtain ⟨lb, hlb⟩ := exists_leader? hb
  refine ⟨la, lb, hla, hlb, ?_⟩
  dsimp only
  unfold leader? at hla hlb
  split
  · next heq =>
    rw [heq, hlb] at hla
    exact .inl ⟨(Option.some.inj hla).symm, rfl⟩
  · next hne =>
    refine .inr ⟨?_, rfl, rfl, leader?_link (parent_root _ _) (parent_root _ _) hne hla hlb⟩
    rintro rfl
    exact hne (getElem?_inj hla hlb)

theorem keys_union (g : Congruence α) (a b : α) :
    (g.union a b).1.keys = ((g.add a).add b).keys := by
  obtain ⟨la, lb, -, -, ⟨-, heq⟩ | ⟨-, -, hkeys, -⟩⟩ := union_cases g a b
  · rw [heq]
  · exact hkeys

theorem mem_keys_union : x ∈ (g.union a b).1.keys ↔ x ∈ g.keys ∨ x = a ∨ x = b := by
  rw [keys_union, mem_keys_add, mem_keys_add, or_assoc]

/-- Merging tells whether the values were in different classes. -/
theorem union_snd (g : Congruence α) (a b : α) : (g.union a b).2 = !g.same a b := by
  rw [← same_add (a := a), ← same_add (a := b)]
  obtain ⟨la, lb, hla, hlb, ⟨hsame, heq⟩ | ⟨hne, hchanged, -⟩⟩ := union_cases g a b
  · rw [heq, same_iff.mpr (.inr ⟨lb, hsame ▸ hla, hlb⟩), Bool.not_true]
  · rw [hchanged, Bool.eq_not, ne_eq, eq_comm, same_iff]
    rintro (rfl | ⟨l, ha, hb⟩)
    · exact hne (Option.some.inj (hla.symm.trans hlb))
    · exact hne (Option.some.inj (hla.symm.trans (ha.trans (hb.symm.trans hlb))))

/-- Values of one class are added only. -/
theorem union_of_unchanged (h : (g.union a b).2 = false) : (g.union a b).1 = (g.add a).add b := by
  obtain ⟨la, lb, -, -, ⟨-, heq⟩ | ⟨-, hchanged, -⟩⟩ := union_cases g a b
  · rw [heq]
  · rw [hchanged] at h
    cases h

/-- What is equivalent stays so. -/
def Extends (g g' : Congruence α) : Prop :=
  ∀ x y, g.same x y = true → g'.same x y = true

/-- A union separates nothing. -/
theorem extends_union (g : Congruence α) (a b : α) : g.Extends (g.union a b).1 := by
  intro x y h
  rw [← same_add (a := a), ← same_add (a := b)] at h
  obtain ⟨la, lb, -, -, ⟨-, heq⟩ | ⟨-, -, -, keep, merge, -, hleader⟩⟩ := union_cases g a b
  · rw [heq]
    exact h
  · rw [same_iff] at h ⊢
    rcases h with rfl | ⟨l, hx, hy⟩
    · exact .inl rfl
    · rw [hleader, hleader, hx, hy]
      exact .inr ⟨_, rfl, rfl⟩

theorem same_union_self (g : Congruence α) (a b : α) : (g.union a b).1.same a b = true := by
  obtain ⟨la, lb, hla, hlb, ⟨hsame, heq⟩ | ⟨-, -, -, keep, merge, hends, hleader⟩⟩ :=
    union_cases g a b
  · rw [heq, same_iff]
    exact .inr ⟨lb, hsame ▸ hla, hlb⟩
  · rw [same_iff, hleader, hleader, hla, hlb]
    rcases hends with ⟨rfl, rfl⟩ | ⟨rfl, rfl⟩
    · exact .inr ⟨keep, by simp, by simp⟩
    · exact .inr ⟨keep, by simp, by simp⟩

/-! ## Classes -/

theorem leader?_of_same (h : g.same x y = true) (hl : g.leader? x = some l) :
    g.leader? y = some l := by
  rcases same_iff.mp h with rfl | ⟨l', hx, hy⟩
  · exact hl
  · exact hy.trans (hx.symm.trans hl)

theorem leader?_of_getElem? {i : Nat} (h : g.keys[i]? = some x) :
    g.leader? x = g.keys[g.root i]? := by
  rw [leader?, getElem?_inj (getElem?_idxOf (mem_of_getElem? h)) h]

theorem not_mem_keys_of_leader (h : g.leader? x = none) : x ∉ g.keys := by
  intro hx
  obtain ⟨l, hl⟩ := exists_leader? hx
  cases h.symm.trans hl

/-- The leader is the first member of its class: no member comes before its root. -/
theorem leader?_eq_find? (g : Congruence α) (a : α) : g.leader? a = g.keys.find? (g.same a) := by
  symm
  cases hl : g.leader? a with
  | none =>
    refine find?_eq_none.mpr fun b hb hsame => ?_
    have ha := not_mem_keys_of_leader hl
    exact ha (mem_keys_of_same hsame fun heq => ha (heq ▸ hb)).1
  | some l =>
    obtain ⟨hlt, hget⟩ := List.getElem?_eq_some_iff.mp hl
    refine find?_eq_some_iff_getElem.mpr ⟨?_, _, hlt, hget, fun j hj => ?_⟩
    · have hself := leader?_of_getElem? hl
      rw [root_of_parent (parent_root _ _)] at hself
      exact same_iff.mpr (.inr ⟨l, hl, hself.trans hl⟩)
    · rw [Bool.not_eq_true', Bool.eq_false_iff]
      intro hsame
      have hj' := leader?_of_same hsame hl
      rw [leader?_of_getElem? (getElem?_eq_getElem _)] at hj'
      exact absurd (g.root_le j) (Nat.not_le_of_lt (getElem?_inj hj' hl ▸ hj))

/-- The class of an element is read off the keys. -/
theorem classOf_eq (g : Congruence α) (a : α) :
    g.classOf a = if a ∈ g.keys then g.keys.filter (g.same a) else [a] := by
  unfold classOf
  split
  · next hl => rw [if_neg (not_mem_keys_of_leader hl)]
  · next l hl =>
    rw [if_pos (mem_keys_of_leader hl)]
    refine filter_congr fun k _ => ?_
    rw [Bool.eq_iff_iff, decide_eq_true_iff]
    exact ⟨fun hk => same_iff.mpr (.inr ⟨l, hl, hk⟩), fun hsame => leader?_of_same hsame hl⟩

/-- The members of a class are equivalent, and those that were not given are listed. -/
theorem same_of_mem_classOf (hx : x ∈ g.classOf a) :
    g.same a x = true ∧ (x ≠ a → x ∈ g.keys) := by
  rw [classOf_eq] at hx
  split at hx
  · obtain ⟨hmem, hsame⟩ := mem_filter.mp hx
    exact ⟨hsame, fun _ => hmem⟩
  · obtain rfl := mem_singleton.mp hx
    exact ⟨same_iff.mpr (.inl rfl), fun hne => absurd rfl hne⟩

theorem mem_classOf_of_same (h : g.same a x = true) (hne : x ≠ a) : x ∈ g.classOf a := by
  obtain ⟨ha, hx⟩ := mem_keys_of_same h hne.symm
  rw [classOf_eq, if_pos ha]
  exact mem_filter.mpr ⟨hx, h⟩

/-! ## Chains of pairs -/

variable {r r' : α → α → Prop}

/-- Every value is linked with its leader. -/
def Joined (r : α → α → Prop) (g : Congruence α) : Prop :=
  ∀ x l, g.leader? x = some l → Relation.EqvGen r x l

theorem joined_add (h : Joined r g) (a : α) : Joined r (g.add a) := by
  intro x l hx
  by_cases ha : a ∈ g.keys
  · exact h x l (add_of_mem ha ▸ hx)
  · rw [leader?_add ha] at hx
    split at hx
    · next heq =>
      rw [heq, Option.some.inj hx]
      exact .refl _
    · exact h x l hx

/-- A merge links what is linked by the merged pair. -/
theorem joined_union (h : Joined r g) (hab : Relation.EqvGen r a b) : Joined r (g.union a b).1 := by
  have hadd : Joined r ((g.add a).add b) := joined_add (joined_add h a) b
  obtain ⟨la, lb, hla, hlb, ⟨-, heq⟩ | ⟨-, -, -, keep, merge, hends, hleader⟩⟩ := union_cases g a b
  · rw [heq]
    exact hadd
  · -- From one leader to `a`, over to `b`, and on to the other leader.
    have hlink : Relation.EqvGen r la lb :=
      .trans _ _ _ (.symm _ _ (hadd a la hla)) (.trans _ _ _ hab (hadd b lb hlb))
    have hhand : Relation.EqvGen r merge keep := by
      rcases hends with ⟨rfl, rfl⟩ | ⟨rfl, rfl⟩
      · exact .symm _ _ hlink
      · exact hlink
    intro x l hx
    rw [hleader, Option.map_eq_some_iff] at hx
    obtain ⟨l', hl', rfl⟩ := hx
    split
    · next hmerge => exact .trans _ _ _ (hmerge ▸ hadd x l' hl') hhand
    · exact hadd x l' hl'

theorem Joined.of_same (h : Joined r g) (hsame : g.same x y = true) : Relation.EqvGen r x y := by
  rcases same_iff.mp hsame with rfl | ⟨l, hx, hy⟩
  · exact .refl _
  · exact .trans _ _ _ (h x l hx) (.symm _ _ (h y l hy))

/-! ## Runs -/

/-- A call that changes a congruence. -/
inductive Call (α : Type) where
  | add (a : α)
  | union (a b : α)

/-- What a call leaves. -/
def step (g : Congruence α) : Call α → Congruence α
  | .add a => g.add a
  | .union a b => (g.union a b).1

/-- The congruence after some calls. -/
def run (calls : List (Call α)) : Congruence α :=
  calls.foldl step empty

theorem run_concat (calls : List (Call α)) (call : Call α) :
    run (calls ++ [call]) = (run calls).step call := by
  unfold run
  rw [foldl_append, foldl_cons, foldl_nil]

/-- The pairs merged by some calls. -/
def Merged (calls : List (Call α)) (x y : α) : Prop :=
  .union x y ∈ calls

/-- The values that a call mentions. -/
def Call.values : Call α → List α
  | .add a => [a]
  | .union a b => [a, b]

/-- What the calls do one after the other. Induction from the end, since the last call comes last.
-/
theorem run_invariant (calls : List (Call α)) : Joined (Merged calls) (run calls) ∧
    ∀ x y, Merged calls x y → (run calls).same x y = true := by
  induction calls using List.reverseRecOn with
  | nil =>
    constructor
    · intro x l h
      cases h
    · intro x y h
      cases h
  | append_singleton calls call ih =>
    have hmore : Joined (Merged (calls ++ [call])) (run calls) := fun x l h =>
      Relation.EqvGen.mono (fun x y hxy => mem_append_left _ hxy) x l (ih.1 x l h)
    rw [run_concat]
    cases call with
    | add a =>
      refine ⟨joined_add hmore a, fun x y h => ?_⟩
      rcases mem_append.mp h with h | h
      · exact same_add.trans (ih.2 x y h)
      · cases mem_singleton.mp h
    | union a b =>
      refine ⟨joined_union hmore (.rel _ _ (mem_append_right _ mem_cons_self)), ?_⟩
      intro x y h
      rcases mem_append.mp h with h | h
      · exact extends_union _ _ _ _ _ (ih.2 x y h)
      · cases mem_singleton.mp h
        exact same_union_self _ _ _

/-- **Merging computes the least equivalence relation** that joins the merged pairs. -/
theorem same_run {calls : List (Call α)} :
    (run calls).same x y = true ↔ Relation.EqvGen (Merged calls) x y := by
  obtain ⟨hjoined, hmerged⟩ := run_invariant calls
  refine ⟨hjoined.of_same, fun h => ?_⟩
  rw [← (same_equivalence (run calls)).eqvGen_iff]
  exact Relation.EqvGen.mono hmerged x y h

theorem ofPairs_eq_run (pairs : List (α × α)) :
    ofPairs pairs = run (pairs.map fun p => .union p.1 p.2) := by
  unfold ofPairs run
  rw [foldl_map]
  rfl

theorem same_ofPairs {pairs : List (α × α)} : (ofPairs pairs).same x y = true ↔
    Relation.EqvGen (fun x y => (x, y) ∈ pairs) x y := by
  have hmerged : Merged (pairs.map fun p => .union p.1 p.2) = fun x y => (x, y) ∈ pairs := by
    funext x y
    simp [Merged]
  rw [ofPairs_eq_run, same_run, hmerged]

/-- Every value mentioned so far is listed once, in the order of first mention. -/
theorem keys_run (calls : List (Call α)) :
    (run calls).keys = (calls.flatMap Call.values).eraseDups := by
  have hadd : ∀ {g : Congruence α} {values : List α} (a : α), g.keys = values.eraseDups →
      (g.add a).keys = (values ++ [a]).eraseDups := by
    intro g values a h
    rw [eraseDups_concat, ← h]
    split
    · next ha => rw [add_of_mem (h ▸ mem_eraseDups.mpr ha)]
    · next ha => exact keys_add_of_new fun hmem => ha (mem_eraseDups.mp (h ▸ hmem))
  induction calls using List.reverseRecOn with
  | nil => rfl
  | append_singleton calls call ih =>
    rw [run_concat, flatMap_append, flatMap_singleton]
    cases call with
    | add a => exact hadd a ih
    | union a b =>
      rw [step, keys_union, Call.values, append_cons]
      exact hadd b (hadd a ih)

/-- **A congruence is the equivalence closure of the merged pairs**, whatever the calls. Climbing
ends at a place that is its own parent; values are equivalent if chains of merged pairs link them,
and a merge tells whether it joins two classes; the leader of a class is the member that came first,
and classes and values are listed in the order of first mention. -/
theorem run_computes_closure (calls : List (Call α)) :
    (∀ i, (run calls).parent ((run calls).root i) = (run calls).root i ∧
      ∃ n, (run calls).parent^[n] i = (run calls).root i) ∧
    (∀ a b, (run calls).same a b = true ↔ Relation.EqvGen (Merged calls) a b) ∧
    (∀ a b, ((run calls).union a b).2 = true ↔ ¬Relation.EqvGen (Merged calls) a b) ∧
    (∀ a, (run calls).leader? a = (run calls).keys.find? ((run calls).same a)) ∧
    (∀ a, (run calls).classOf a =
      if a ∈ (run calls).keys then (run calls).keys.filter ((run calls).same a) else [a]) ∧
    (run calls).keys = (calls.flatMap Call.values).eraseDups := by
  refine ⟨fun i => ⟨parent_root _ i, ?_⟩, fun a b => same_run, fun a b => ?_, leader?_eq_find? _,
    classOf_eq _, keys_run calls⟩
  · exact root_induction (P := fun i r => ∃ n, (run calls).parent^[n] i = r) (fun i _ => ⟨0, rfl⟩)
      (fun i r h => h.imp' (· + 1) fun n hn => hn) i
  · rw [union_snd, Bool.not_eq_true', Bool.eq_false_iff, ne_eq, same_run]

end Congruence

end QueryRules
