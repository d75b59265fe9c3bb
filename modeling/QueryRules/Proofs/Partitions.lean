import Mathlib.Algebra.Order.BigOperators.Group.List
import Mathlib.Algebra.Order.Group.Nat
import Mathlib.Data.List.Nodup
import Mathlib.Data.List.Range
import Mathlib.Logic.Relation
import QueryRules.Search.Partition

/-!
# QueryRules — all partitions, each once

The partitions of the first `n` numbers are visited by stepping from one list of blocks to the next.
This module says which lists are visited and what they stand for.
-/

namespace QueryRules

open List

namespace Partition

variable {α : Type}

/-! ## Lists of blocks -/

/-- The blocks of further numbers when `k` blocks are in use. -/
def Growth : (k : Nat) → List Nat → Prop
  | _, [] => True
  | k, b :: rest => b ≤ k ∧ Growth (max k (b + 1)) rest

/-- All blocks of `n` further numbers when `k` blocks are in use, in lexicographic order. -/
def growths (k : Nat) : (n : Nat) → List (List Nat)
  | 0 => [[]]
  | n + 1 => (List.range (k + 1)).flatMap fun b => (growths (max k (b + 1)) n).map (b :: ·)

/-- The growth strings are all listed. -/
theorem mem_growths {k n : Nat} {p : List Nat} :
    p ∈ growths k n ↔ p.length = n ∧ Growth k p := by
  induction n generalizing k p with
  | zero =>
    rw [growths, mem_singleton, length_eq_zero_iff]
    exact ⟨fun h => ⟨h, h ▸ trivial⟩, And.left⟩
  | succ n ih =>
    rw [growths, mem_flatMap]
    simp only [mem_range, mem_map, ih, Nat.lt_succ_iff]
    constructor
    · rintro ⟨b, hb, rest, ⟨hlen, hrest⟩, rfl⟩
      exact ⟨congrArg (· + 1) hlen, hb, hrest⟩
    · rintro ⟨hlen, hgrowth⟩
      cases p with
      | nil => cases hlen
      | cons b rest => exact ⟨b, hgrowth.1, rest, ⟨Nat.succ.inj hlen, hgrowth.2⟩, rfl⟩

theorem nodup_growths (k n : Nat) : (growths k n).Nodup := by
  induction n generalizing k with
  | zero => exact nodup_singleton _
  | succ n ih =>
    rw [growths, nodup_flatMap]
    refine ⟨fun b _ => (ih _).map (cons_injective), ?_⟩
    -- Lists from different groups have different heads.
    refine nodup_range.imp fun {b c} hne => ?_
    intro p hb hc
    obtain ⟨rest, -, rfl⟩ := mem_map.mp hb
    obtain ⟨rest', -, heq⟩ := mem_map.mp hc
    exact hne (List.cons.inj heq).1.symm

/-- A coarse bound, enough for a walk of that many steps to list all of them. -/
theorem length_growths_le (k n : Nat) : (growths k n).length ≤ (k + n) ^ n := by
  induction n generalizing k with
  | zero => exact Nat.le_refl 1
  | succ n ih =>
    have hgroup : ∀ b ∈ List.range (k + 1),
        ((growths (max k (b + 1)) n).map (b :: ·)).length ≤ (k + 1 + n) ^ n := by
      intro b hb
      rw [length_map]
      have hmax : max k (b + 1) ≤ k + 1 := by
        have := mem_range.mp hb
        omega
      exact Nat.le_trans (ih _) (Nat.pow_le_pow_left (Nat.add_le_add_right hmax n) n)
    calc (growths k (n + 1)).length
        = ((List.range (k + 1)).map fun b =>
            ((growths (max k (b + 1)) n).map (b :: ·)).length).sum := length_flatMap
      _ ≤ ((List.range (k + 1)).map fun _ => (k + 1 + n) ^ n).sum := sum_le_sum hgroup
      _ = (k + 1) * (k + 1 + n) ^ n := by simp
      _ ≤ (k + (n + 1)) * (k + (n + 1)) ^ n := by
        rw [Nat.add_right_comm k 1 n, Nat.add_assoc k n 1]
        exact Nat.mul_le_mul_right _ (by omega)
      _ = (k + (n + 1)) ^ (n + 1) := (Nat.pow_succ').symm

/-! ## Stepping through a list -/

/-- Every element is followed by its successor, and the last one by `after`. -/
def WalkTo (next : α → Option α) (after : Option α) : List α → Prop
  | [] => False
  | [x] => next x = after
  | x :: y :: rest => next x = some y ∧ WalkTo next after (y :: rest)

theorem WalkTo.append {next : α → Option α} {after : Option α} {y : α} {l r : List α}
    (hl : WalkTo next (some y) l) (hr : WalkTo next after (y :: r)) :
    WalkTo next after (l ++ y :: r) := by
  induction l with
  | nil => exact hl.elim
  | cons x l ih =>
    cases l with
    | nil => exact ⟨hl, hr⟩
    | cons z l => exact ⟨hl.1, ih hl.2⟩

/-- Lists of blocks with the same head. The successor of the last one is to be found by `h`. -/
theorem WalkTo.map_cons {m b : Nat} {after : Option (List Nat)} {l : List (List Nat)}
    (h : ∀ x ∈ l, advance? (max m b) x = none → advance? m (b :: x) = after)
    (hl : WalkTo (advance? (max m b)) none l) :
    WalkTo (advance? m) after (l.map (b :: ·)) := by
  induction l with
  | nil => exact hl.elim
  | cons x l ih =>
    cases l with
    | nil => exact h x mem_cons_self hl
    | cons y l =>
      refine ⟨?_, ih (fun z hz => h z (mem_cons_of_mem _ hz)) hl.2⟩
      rw [advance?, hl.1]

/-- The walk through all lists begins with zeros. -/
theorem growths_eq_cons (k n : Nat) : ∃ l, growths k n = List.replicate n 0 :: l := by
  induction n generalizing k with
  | zero => exact ⟨[], rfl⟩
  | succ n ih =>
    obtain ⟨l, hl⟩ := ih (max k 1)
    rw [growths, range_succ_eq_map, flatMap_cons, hl]
    exact ⟨_, rfl⟩

/-- Stepping visits all lists of blocks: induction on their length, and for lists with one more
number on how many heads are left. The last list with the head `b` is followed by the first one with
the head `b + 1`. -/
theorem walkTo_growths (m n : Nat) : WalkTo (advance? m) none (growths (m + 1) n) := by
  induction n generalizing m with
  | zero => rfl
  | succ n ih =>
    -- A walk below one first number.
    have hgroup : ∀ b after,
        (∀ x ∈ growths (max m b + 1) n, advance? (max m b) x = none →
          advance? m (b :: x) = after) →
        WalkTo (advance? m) after ((growths (max (m + 1) (b + 1)) n).map (b :: ·)) := by
      intro b after h
      rw [Nat.succ_max_succ]
      exact (ih _).map_cons h
    have hzeros : ∀ {x k}, x ∈ growths k n → x.map (fun _ => 0) = List.replicate n 0 := by
      intro x k hx
      rw [map_const', (mem_growths.mp hx).1]
    -- From one first number to the next; what follows starts over at zeros.
    have hheads : ∀ left b, b + left = m + 1 → WalkTo (advance? m) none
        ((List.range' b (left + 1)).flatMap fun b =>
          (growths (max (m + 1) (b + 1)) n).map (b :: ·)) := by
      intro left
      induction left with
      | zero =>
        intro b hb
        rw [range'_one, flatMap_singleton]
        refine hgroup b none fun x _ hx => ?_
        rw [advance?, hx]
        exact if_neg (by omega)
      | succ left ihleft =>
        intro b hb
        rw [range'_succ, flatMap_cons]
        have hrest := ihleft (b + 1) (by omega)
        obtain ⟨l, hl⟩ := growths_eq_cons (max (m + 1) (b + 1 + 1)) n
        rw [range'_succ, flatMap_cons, hl, map_cons, cons_append] at hrest ⊢
        refine (hgroup b _ fun x hxmem hx => ?_).append hrest
        rw [advance?, hx]
        dsimp only
        rw [if_pos (by omega), hzeros hxmem]
    rw [growths, range_eq_range']
    exact hheads (m + 1) 0 (by omega)

theorem visitFrom_of_walkTo {count : Nat} {p : Partition} {l : List Partition}
    (h : WalkTo next? none (p :: l)) (hlen : (p :: l).length ≤ count) :
    visitFrom count p = p :: l := by
  induction l generalizing count p with
  | nil =>
    obtain ⟨count, rfl⟩ := Nat.exists_eq_add_of_le' hlen
    show visitFrom (count + 1) p = [p]
    rw [visitFrom, show p.next? = none from h]
  | cons q l ih =>
    obtain ⟨count, rfl⟩ := Nat.exists_eq_add_of_le' (Nat.le_trans (Nat.le_add_left 1 _) hlen)
    rw [visitFrom, h.1]
    dsimp only
    rw [ih h.2 (Nat.le_of_succ_le_succ hlen)]

/-- Taking the next string again and again lists all of them. -/
theorem walkTo_next (n : Nat) : WalkTo next? none (growths 0 n) := by
  cases n with
  | zero => rfl
  | succ n =>
    show WalkTo next? none ([0].flatMap fun b => (growths (max 0 (b + 1)) n).map (b :: ·))
    rw [flatMap_singleton]
    have hwalk := walkTo_growths 0 n
    -- A walk below the first number is a walk of partitions.
    have hcons : ∀ {l : List (List Nat)}, WalkTo (advance? 0) none l →
        WalkTo next? none (l.map (0 :: ·)) := by
      intro l
      induction l with
      | nil => exact id
      | cons x l ih =>
        intro h
        cases l with
        | nil =>
          show (advance? 0 x).map (0 :: ·) = none
          rw [show advance? 0 x = none from h, Option.map_none]
        | cons y l =>
          refine ⟨?_, ih h.2⟩
          show (advance? 0 x).map (0 :: ·) = some (0 :: y)
          rw [h.1, Option.map_some]
    exact hcons hwalk

/-- **The visited partitions** are all lists of blocks that grow by one at most. -/
theorem all_eq_growths (n : Nat) : all n = growths 0 n := by
  have hlen := length_growths_le 0 n
  have hwalk := walkTo_next n
  obtain ⟨l, hl⟩ := growths_eq_cons 0 n
  rw [Nat.zero_add] at hlen
  rw [hl] at hlen hwalk ⊢
  exact visitFrom_of_walkTo hwalk hlen

theorem nodup_all (n : Nat) : (all n).Nodup := by
  rw [all_eq_growths]
  exact nodup_growths 0 n

theorem length_of_mem_all {n : Nat} {p : Partition} (h : p ∈ all n) : p.length = n := by
  rw [all_eq_growths] at h
  exact (mem_growths.mp h).1

/-! ## Coarse before fine -/

/-- Two numbers are in one block of `p` and in different blocks of `q`. -/
def Splits (p q : Partition) : Prop :=
  ∃ i j b : Nat, p[i]? = some b ∧ p[j]? = some b ∧ q[i]? ≠ q[j]?

/-- Lists of blocks that follow the same blocks `used`, all of which occur. The number at which two
of them part goes to a block in use in the one that comes first. -/
theorem pairwise_growths {k : Nat} (n : Nat) (used : List Nat) (hused : ∀ b < k, b ∈ used) :
    (growths k n).Pairwise fun p q => Splits (used ++ p) (used ++ q) := by
  induction n generalizing k used with
  | zero => exact pairwise_singleton _ _
  | succ n ih =>
    rw [growths, pairwise_flatMap]
    constructor
    · -- The same block for the first number: one more block is used.
      intro b hb
      have hbk : b ≤ k := Nat.lt_succ_iff.mp (mem_range.mp hb)
      have hmore := ih (k := max k (b + 1)) (used ++ [b]) (by
        intro d hd
        rw [mem_append, mem_singleton]
        by_cases hdk : d < k
        · exact .inl (hused d hdk)
        · right
          omega)
      simpa only [pairwise_map, append_assoc, singleton_append] using hmore
    · refine pairwise_lt_range.imp_of_mem fun {b c} _ hc hlt => ?_
      have hck : c ≤ k := Nat.lt_succ_iff.mp (mem_range.mp hc)
      intro p hp q hq
      obtain ⟨p, -, rfl⟩ := mem_map.mp hp
      obtain ⟨q, -, rfl⟩ := mem_map.mp hq
      -- The smaller block `b` is in use, say at `i`.
      obtain ⟨i, hi, hib⟩ := mem_iff_getElem.mp (hused b (by omega))
      have hat : ∀ l, (used ++ l)[i]? = some b := by
        intro l
        rw [getElem?_append_left hi, getElem?_eq_getElem hi, hib]
      have hend : ∀ d l, (used ++ d :: l)[used.length]? = some d := by
        intro d l
        rw [getElem?_append_right (Nat.le_refl _), Nat.sub_self, getElem?_cons_zero]
      refine ⟨i, used.length, b, hat _, hend b p, ?_⟩
      rw [hat, hend]
      intro heq
      have := Option.some.inj heq
      omega

/-- **A partition comes before all that do not put together what it puts together.** -/
theorem pairwise_all (n : Nat) : (all n).Pairwise Splits := by
  rw [all_eq_growths]
  exact pairwise_growths n [] fun b hb => absurd hb (Nat.not_lt_zero b)

/-! ## Partitions and equivalence relations -/

/-- The relation holds between elements of the same block, and between no others. -/
def Matches (r : α → α → Prop) (blocks : List (α × Nat)) : Prop :=
  ∀ u ∈ blocks, ∀ v ∈ blocks, u.2 = v.2 ↔ r u.1 v.1

/-- Two lists of blocks that match one relation are equal. Induction on the elements; the blocks in
use have been seen, so an element in one of them is related to an element that was seen. -/
theorem growth_unique {r : α → α → Prop} {xs : List α} {k : Nat} (seen : List (α × Nat))
    {p q : List Nat} (hp : Growth k p) (hq : Growth k q) (hplen : p.length = xs.length)
    (hqlen : q.length = xs.length) (hseen : ∀ b < k, ∃ y, (y, b) ∈ seen)
    (hmp : Matches r (seen ++ xs.zip p)) (hmq : Matches r (seen ++ xs.zip q)) : p = q := by
  induction xs generalizing k seen p q with
  | nil =>
    rw [length_eq_zero_iff.mp hplen, length_eq_zero_iff.mp hqlen]
  | cons x xs ih =>
    obtain ⟨b, p, rfl⟩ := exists_cons_of_length_eq_add_one hplen
    obtain ⟨c, q, rfl⟩ := exists_cons_of_length_eq_add_one hqlen
    rw [zip_cons_cons] at hmp hmq
    -- A block in use is the same in both lists.
    have hold : ∀ {b c p q}, Matches r (seen ++ (x, b) :: p) → Matches r (seen ++ (x, c) :: q) →
        b < k → c = b := by
      intro b c p q hmp hmq hb
      obtain ⟨y, hy⟩ := hseen b hb
      have hmem : ∀ {d l}, (x, d) ∈ seen ++ (x, d) :: l := fun {_ _} =>
        mem_append_right _ mem_cons_self
      have hrel : r y x := (hmp (y, b) (mem_append_left _ hy) (x, b) hmem).mp rfl
      exact ((hmq (y, b) (mem_append_left _ hy) (x, c) hmem).mpr hrel).symm
    have hbc : b = c := by
      rcases Nat.lt_or_ge b k with hb | hb
      · exact (hold hmp hmq hb).symm
      rcases Nat.lt_or_ge c k with hc | hc
      · exact hold hmq hmp hc
      · exact (Nat.le_antisymm hp.1 hb).trans (Nat.le_antisymm hq.1 hc).symm
    subst hbc
    rw [append_cons] at hmp hmq
    refine congrArg (b :: ·) (ih _ hp.2 hq.2 (Nat.succ.inj hplen) (Nat.succ.inj hqlen) ?_ hmp hmq)
    intro d hd
    rcases Nat.lt_or_ge d k with hdk | hdk
    · obtain ⟨y, hy⟩ := hseen d hdk
      exact ⟨y, mem_append_left _ hy⟩
    · have hbk := hp.1
      have hdb : d = b := by omega
      exact ⟨x, hdb ▸ mem_append_right _ (mem_singleton_self _)⟩

/-- Every equivalence relation is matched: an element goes to the block of one that it is related
to, or else to a new block. -/
theorem exists_growth {r : α → α → Prop} (hr : Equivalence r) (xs : List α) :
    ∀ (k : Nat) (seen : List (α × Nat)), (∀ u ∈ seen, u.2 < k) → Matches r seen →
      ∃ p, p.length = xs.length ∧ Growth k p ∧ Matches r (seen ++ xs.zip p) := by
  induction xs with
  | nil =>
    intro k seen _ hm
    exact ⟨[], rfl, trivial, by rwa [zip_nil_left, append_nil]⟩
  | cons x xs ih =>
    intro k seen hlt hm
    obtain ⟨b, hbk, hb⟩ : ∃ b ≤ k, ∀ u ∈ seen, u.2 = b ↔ r u.1 x := by
      -- An element joins the class of an earlier one, or opens the next class.
      by_cases hold : ∃ u ∈ seen, r u.1 x
      · obtain ⟨v, hv, hvx⟩ := hold
        refine ⟨v.2, Nat.le_of_lt (hlt v hv), fun u hu => ?_⟩
        rw [hm u hu v hv]
        exact ⟨fun huv => hr.trans huv hvx, fun hux => hr.trans hux (hr.symm hvx)⟩
      · refine ⟨k, Nat.le_refl k, fun u hu => ?_⟩
        have hne : u.2 ≠ k := Nat.ne_of_lt (hlt u hu)
        exact ⟨fun h => absurd h hne, fun h => absurd ⟨u, hu, h⟩ hold⟩
    have hmore : Matches r (seen ++ [(x, b)]) := by
      intro u hu v hv
      rw [mem_append, mem_singleton] at hu hv
      rcases hu with hu | rfl <;> rcases hv with hv | rfl
      · exact hm u hu v hv
      · exact hb u hu
      · rw [eq_comm, hb v hv]
        exact ⟨hr.symm, hr.symm⟩
      · exact ⟨fun _ => hr.refl x, fun _ => rfl⟩
    obtain ⟨p, hlen, hgrowth, hp⟩ := ih (max k (b + 1)) (seen ++ [(x, b)]) (by
      intro u hu
      rw [mem_append, mem_singleton] at hu
      rcases hu with hu | rfl
      · exact Nat.lt_of_lt_of_le (hlt u hu) (Nat.le_max_left _ _)
      · exact Nat.lt_of_lt_of_le (Nat.lt_succ_self b) (Nat.le_max_right _ _)) hmore
    refine ⟨b :: p, congrArg (· + 1) hlen, ⟨hbk, hgrowth⟩, ?_⟩
    rw [zip_cons_cons, append_cons]
    exact hp

/-- **Every equivalence relation on a list comes from a visited partition.** -/
theorem exists_mem_all {r : α → α → Prop} (hr : Equivalence r) (xs : List α) :
    ∃ p ∈ all xs.length, Matches r (xs.zip p) := by
  obtain ⟨p, hlen, hgrowth, hm⟩ := exists_growth hr xs 0 [] nofun nofun
  refine ⟨p, ?_, hm⟩
  rw [all_eq_growths]
  exact mem_growths.mpr ⟨hlen, hgrowth⟩

/-- **Different partitions match different relations.** -/
theorem eq_of_matches {r : α → α → Prop} {xs : List α} {p q : Partition}
    (hp : p ∈ all xs.length) (hq : q ∈ all xs.length) (hmp : Matches r (xs.zip p))
    (hmq : Matches r (xs.zip q)) : p = q := by
  rw [all_eq_growths, mem_growths] at hp hq
  exact growth_unique [] hp.2 hq.2 hp.1 hq.1 nofun hmp hmq

/-- A partition that splits another one matches a relation that tells apart two elements. -/
theorem Splits.exists_related {r r' : α → α → Prop} {xs : List α} {p q : Partition}
    (h : p.Splits q) (hp : p.length = xs.length) (hq : q.length = xs.length)
    (hmp : Matches r (xs.zip p)) (hmq : Matches r' (xs.zip q)) :
    ∃ a ∈ xs, ∃ b ∈ xs, r a b ∧ ¬ r' a b := by
  obtain ⟨i, j, b, hi, hj, hne⟩ := h
  have hi' : i < xs.length := hp ▸ (List.getElem?_eq_some_iff.mp hi).1
  have hj' : j < xs.length := hp ▸ (List.getElem?_eq_some_iff.mp hj).1
  have hzip : ∀ {l : List Nat} {n d : Nat} (hn : n < xs.length), l[n]? = some d →
      (xs[n], d) ∈ xs.zip l := by
    intro l n d hn hd
    apply mem_of_getElem? (i := n)
    rw [getElem?_zip_eq_some]
    exact ⟨getElem?_eq_getElem hn, hd⟩
  refine ⟨xs[i], getElem_mem hi', xs[j], getElem_mem hj', ?_, fun hrel => ?_⟩
  · exact (hmp _ (hzip hi' hi) _ (hzip hj' hj)).mp rfl
  · -- The blocks of `q` at the two places would be the same.
    apply hne
    have hqi : q[i]? = some q[i] := getElem?_eq_getElem (hq ▸ hi')
    have hqj : q[j]? = some q[j] := getElem?_eq_getElem (hq ▸ hj')
    rw [hqi, hqj]
    exact congrArg some ((hmq _ (hzip hi' hqi) _ (hzip hj' hqj)).mpr hrel)

end Partition

end QueryRules
