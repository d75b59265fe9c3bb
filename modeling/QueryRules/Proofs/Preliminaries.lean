import Mathlib.Algebra.BigOperators.Ring.List
import Mathlib.Algebra.Order.BigOperators.Group.List
import Mathlib.Data.List.GetD
import Mathlib.Data.Multiset.Filter
import Mathlib.Tactic.Linarith

/-!
# QueryRules — preliminaries

What the other modules need to know in general: looking up keys and finding elements, computations
that may fail, lists that are paired off, and products of numbers.
-/

namespace QueryRules

open List

/-! ## Lists of keys with values -/

section Lookup

variable {α β : Type} [BEq α] [LawfulBEq α] {l : List (α × β)} {a : α} {b : β}

theorem mem_of_lookup (h : l.lookup a = some b) : (a, b) ∈ l := by
  obtain ⟨before, after, heq, -⟩ := lookup_eq_some_iff.mp h
  rw [heq]
  exact mem_append_right _ mem_cons_self

/-- If no key occurs twice, looking up a key finds what stands next to it. -/
theorem lookup_eq_some_iff_mem (h : (l.map Prod.fst).Nodup) : l.lookup a = some b ↔ (a, b) ∈ l := by
  refine ⟨mem_of_lookup, fun hmem => ?_⟩
  obtain ⟨before, after, rfl⟩ := append_of_mem hmem
  rw [map_append, map_cons, nodup_middle, nodup_cons] at h
  refine lookup_eq_some_iff.mpr ⟨before, after, rfl, fun x hx => ?_⟩
  have hne : a ≠ x.1 := by
    intro heq
    have hkey : x.1 ∈ before.map Prod.fst := mem_map_of_mem hx
    exact h.1 (mem_append_left _ (heq ▸ hkey))
  simpa using hne

theorem lookup_eq_none_iff_not_mem : l.lookup a = none ↔ a ∉ l.map Prod.fst := by
  rw [lookup_eq_none_iff, mem_map]
  constructor
  · rintro h ⟨e, he, rfl⟩
    exact bne_iff_ne.mp (h e he) rfl
  · intro h e he
    exact bne_iff_ne.mpr fun heq => h ⟨e, he, heq.symm⟩

end Lookup

/-! ## Lists -/

section Lists

variable {α β : Type}

theorem takeWhile_ne_append [DecidableEq α] {before after : List α} {x : α} (hx : x ∉ before) :
    (before ++ x :: after).takeWhile (· ≠ x) = before := by
  rw [takeWhile_append_of_pos, takeWhile_cons_of_neg (by simp), append_nil]
  intro a ha
  have hne : a ≠ x := fun heq => hx (heq ▸ ha)
  exact decide_eq_true hne

theorem find?_eq_of_unique {l : List α} {test : α → Bool} {x : α} (hx : x ∈ l)
    (htest : test x = true) (huniq : ∀ y ∈ l, test y = true → y = x) : l.find? test = some x := by
  cases hfind : l.find? test with
  | none => exact absurd htest (find?_eq_none.mp hfind x hx)
  | some y => rw [huniq y (mem_of_find?_eq_some hfind) (find?_some hfind)]

/-- Looking for the first flag within a slice finds the first element that passes the test. -/
theorem find?_slice (test : α → Bool) (before slice after : List α) :
    (((List.range' before.length slice.length).find? fun i =>
        ((before ++ slice ++ after).map test)[i]?.getD false).bind fun i =>
          (before ++ slice ++ after)[i]?) = slice.find? test := by
  induction slice generalizing before with
  | nil => rfl
  | cons x slice ih =>
    have hat : (before ++ x :: slice ++ after)[before.length]? = some x := by
      rw [append_assoc, getElem?_append_right (Nat.le_refl _), Nat.sub_self]
      rfl
    have hflag :
        ((before ++ x :: slice ++ after).map test)[before.length]?.getD false = test x := by
      rw [getElem?_map, hat]
      rfl
    rw [length_cons, range'_succ]
    cases hx : test x with
    | true =>
      rw [find?_cons_of_pos (by rw [hflag, hx]), find?_cons_of_pos hx, Option.bind_some]
      exact hat
    | false =>
      rw [find?_cons_of_neg (by rw [hflag, hx]; decide),
        find?_cons_of_neg (by rw [hx]; decide)]
      -- Where nothing is found, the place counts as one before the slice.
      have hrest := ih (before ++ [x])
      rw [length_append, length_singleton, append_assoc before] at hrest
      exact hrest

theorem nodup_flatMap_of_unique {xs : List α} {f : α → List β} (hxs : xs.Nodup)
    (hf : ∀ a ∈ xs, (f a).Nodup)
    (hunique : ∀ a ∈ xs, ∀ b ∈ xs, ∀ e, e ∈ f a → e ∈ f b → a = b) : (xs.flatMap f).Nodup := by
  rw [nodup_flatMap]
  refine ⟨hf, hxs.imp_of_mem fun {a b} ha hb hne e hea heb => ?_⟩
  exact hne (hunique a ha b hb e hea heb)

theorem findSome?_eq_of_unique {l : List α} {f : α → Option β} {b : β}
    (hsome : ∃ a ∈ l, f a = some b) (huniq : ∀ a ∈ l, ∀ b', f a = some b' → b' = b) :
    l.findSome? f = some b := by
  cases hfind : l.findSome? f with
  | none =>
    obtain ⟨a, ha, hb⟩ := hsome
    rw [findSome?_eq_none_iff.mp hfind a ha] at hb
    cases hb
  | some b' =>
    obtain ⟨a, ha, hb'⟩ := exists_of_findSome?_eq_some hfind
    rw [huniq a ha b' hb']

theorem eraseDups_concat [BEq α] [LawfulBEq α] (values : List α) (a : α) :
    (values ++ [a]).eraseDups =
      if a ∈ values then values.eraseDups else values.eraseDups ++ [a] := by
  rw [eraseDups_append]
  split
  · next h => simp [List.removeAll, h]
  · next h => simp [List.removeAll, h, eraseDups_cons]

/-- What holds of all pairs of a list and of the pairs with one more element. -/
theorem forall_pairs_concat {R : α → α → Prop} {l : List α} {x : α}
    (hsymm : ∀ a b, R a b → R b a) (hl : ∀ a ∈ l, ∀ b ∈ l, R a b) (hlast : ∀ a ∈ l, R a x)
    (hx : R x x) : ∀ a ∈ l ++ [x], ∀ b ∈ l ++ [x], R a b := by
  intro a ha b hb
  rcases mem_append.mp ha with ha | ha <;> rcases mem_append.mp hb with hb | hb
  · exact hl a ha b hb
  · rw [mem_singleton.mp hb]
    exact hlast a ha
  · rw [mem_singleton.mp ha]
    exact hsymm b x (hlast b hb)
  · rw [mem_singleton.mp ha, mem_singleton.mp hb]
    exact hx

theorem getD_of_blank {l : List (List α)} (h : ∀ cs ∈ l, cs = []) (i : Nat) : l.getD i [] = [] := by
  by_cases hi : i < l.length
  · rw [getD_eq_getElem _ _ hi]
    exact h _ (getElem_mem hi)
  · exact getD_eq_default _ _ (Nat.le_of_not_lt hi)

/-- What begins in a list either ends in it or goes over its end. -/
theorem prefix_append_cons {m v rest : List α} {c : α} (h : m <+: v ++ c :: rest) :
    m <+: v ∨ ∃ w, m = v ++ c :: w := by
  rcases prefix_or_prefix_of_prefix h (prefix_append v _) with hpre | ⟨w, rfl⟩
  · exact .inl hpre
  · cases w with
    | nil =>
      rw [append_nil]
      exact .inl prefix_rfl
    | cons d w =>
      obtain ⟨rfl, -⟩ := cons_prefix_cons.mp ((prefix_append_right_inj v).mp h)
      exact .inr ⟨w, rfl⟩

end Lists

/-! ## Computations that may fail -/

section Failures

variable {ε ε' α β : Type}

/-- A step that may fail, with what is done after it. -/
theorem bind_eq_ok {m : Except ε α} {f : α → Except ε β} {b : β} :
    (m >>= f) = .ok b ↔ ∃ a, m = .ok a ∧ f a = .ok b := by
  cases m with
  | error e =>
    constructor
    · intro h
      cases h
    · intro h
      obtain ⟨a, ha, -⟩ := h
      cases ha
  | ok a =>
    constructor
    · intro h
      exact ⟨a, rfl, h⟩
    · intro h
      obtain ⟨a', ha, hf⟩ := h
      cases ha
      exact hf

theorem ok_of_mapError {f : ε → ε'} {m : Except ε α} {a : α}
    (h : m.mapError f = .ok a) : m = .ok a := by
  cases m with
  | error e => cases h
  | ok b =>
    cases h
    rfl

theorem exists_ok_of_any {x : Except ε α} {test : α → Bool}
    (h : x.toOption.any test = true) : ∃ a, x = .ok a ∧ test a = true := by
  cases x with
  | error e => cases h
  | ok a => exact ⟨a, rfl, h⟩

end Failures

/-! ## Lists that are paired off -/

section Pairing

variable {α β γ : Type}

/-- Pairings compose. -/
theorem forall₂_comp {r : α → β → Prop} {q : β → γ → Prop} {p : α → γ → Prop}
    (h : ∀ a b c, r a b → q b c → p a c) {as : List α} {bs : List β} {cs : List γ}
    (hab : List.Forall₂ r as bs) (hbc : List.Forall₂ q bs cs) : List.Forall₂ p as cs := by
  induction hab generalizing cs with
  | nil =>
    cases hbc
    exact .nil
  | cons hr _ ih =>
    cases hbc with
    | cons hq hbc => exact .cons (h _ _ _ hr hq) (ih hbc)

/-- Pairings in any order compose. -/
theorem rel_comp {r : α → β → Prop} {q : β → γ → Prop} {p : α → γ → Prop}
    (h : ∀ a b c, r a b → q b c → p a c) {as : Multiset α} {bs : Multiset β} {cs : Multiset γ}
    (hab : Multiset.Rel r as bs) (hbc : Multiset.Rel q bs cs) : Multiset.Rel p as cs := by
  induction hab generalizing cs with
  | zero =>
    rw [Multiset.rel_zero_left.mp hbc]
    exact .zero
  | cons hr _ ih =>
    obtain ⟨c, cs', hq, hrest, rfl⟩ := Multiset.rel_cons_left.mp hbc
    exact .cons (h _ _ _ hr hq) (ih hrest)

theorem map_eq_map_of_forall₂ {r : α → β → Prop} {f : α → γ} {g : β → γ}
    {as : List α} {bs : List β} (h : List.Forall₂ r as bs) (hr : ∀ a b, r a b → f a = g b) :
    as.map f = bs.map g := by
  rw [← forall₂_eq_eq_eq, forall₂_map_left_iff, forall₂_map_right_iff]
  exact h.imp hr

theorem rel_of_forall₂ {r : α → β → Prop} {as : List α} {bs : List β}
    (h : List.Forall₂ r as bs) : Multiset.Rel r as bs := by
  induction h with
  | nil => exact .zero
  | cons hab _ ih => exact .cons hab ih

theorem rel_of_perm {r : α → α → Prop} (hr : ∀ a, r a a) {as bs : List α}
    (h : as.Perm bs) : Multiset.Rel r as bs := by
  rw [Multiset.coe_eq_coe.mpr h]
  exact Multiset.rel_refl_of_refl_on fun a _ => hr a

/-- Lists of images are permutations of each other exactly if the lists can be paired off. -/
theorem isPerm_map_iff [DecidableEq α] {f g : α → α} {r : α → α → Prop} {as bs : List α}
    (h : ∀ a ∈ as, ∀ b ∈ bs, f a = g b ↔ r a b) :
    (as.map f).isPerm (bs.map g) = true ↔ Multiset.Rel r as bs := by
  rw [isPerm_iff, ← Multiset.coe_eq_coe, ← Multiset.map_coe, ← Multiset.map_coe,
    ← Multiset.rel_eq, Multiset.rel_map]
  exact ⟨fun hrel => hrel.mono fun a ha b hb heq => (h a ha b hb).mp heq,
    fun hrel => hrel.mono fun a ha b hb hr => (h a ha b hb).mpr hr⟩

/-- Lists that are paired off stay so when both are filtered alike. -/
theorem perm_map_filter_of_rel {r : α → α → Prop} {p q : α → Bool} {f : α → β}
    {as bs : List α} (h : Multiset.Rel r as bs) (hr : ∀ a b, r a b → p a = q b ∧ f a = f b) :
    ((as.filter p).map f).Perm ((bs.filter q).map f) := by
  have hmap : ∀ {s t : Multiset α}, Multiset.Rel r s t →
      (s.filter fun a => p a = true).map f = (t.filter fun b => q b = true).map f := by
    intro s t hst
    induction hst with
    | zero => rfl
    | @cons a b s t hab _ ih =>
      obtain ⟨hpq, hf⟩ := hr a b hab
      by_cases hp : p a = true
      · have hq : q b = true := hpq ▸ hp
        rw [Multiset.filter_cons_of_pos (p := fun a => p a = true) _ hp,
          Multiset.filter_cons_of_pos (p := fun b => q b = true) _ hq, Multiset.map_cons,
          Multiset.map_cons, ih, hf]
      · have hq : ¬ q b = true := hpq ▸ hp
        rw [Multiset.filter_cons_of_neg (p := fun a => p a = true) _ hp,
          Multiset.filter_cons_of_neg (p := fun b => q b = true) _ hq, ih]
  rw [← Multiset.coe_eq_coe]
  simpa using hmap h

end Pairing

/-! ## Products of numbers -/

section Products

variable {α β : Type}

/-- A product is the product of what `o` leaves closed and of what it opens. -/
theorem prod_filter_filterMap {o : α → Option β} {g : α → Nat} {h : β → Nat}
    (hopen : ∀ a b, o a = some b → g a = h b) (as : List α) :
    (as.map g).prod = ((as.filter fun a => (o a).isNone).map g).prod
      * ((as.filterMap o).map h).prod := by
  induction as with
  | nil => rfl
  | cons a as ih =>
    rw [map_cons, prod_cons, ih]
    cases ha : o a with
    | none => simp [ha, mul_assoc]
    | some b => simp [ha, hopen a b ha, mul_left_comm]

/-- A product of truth values. -/
theorem prod_map_ite_one_zero (p : α → Prop) [DecidablePred p] (as : List α) :
    (as.map fun a => if p a then 1 else 0).prod = if ∀ a ∈ as, p a then 1 else 0 := by
  induction as with
  | nil => simp
  | cons a as ih =>
    rw [map_cons, prod_cons, ih]
    by_cases ha : p a
    · simp [ha]
    · simp [ha]

theorem prod_map_negation (ns : List Nat) :
    (ns.map fun n => if n = 0 then 1 else 0).prod = if ns.sum = 0 then 1 else 0 := by
  rw [prod_map_ite_one_zero, if_congr sum_eq_zero_iff.symm rfl rfl]

theorem prod_map_truth (ns : List Nat) :
    (ns.map fun n => if n = 0 then 0 else 1).prod = if ns.prod = 0 then 0 else 1 := by
  have hzero : ns.prod = 0 ↔ ¬ ∀ n ∈ ns, n ≠ 0 := by
    rw [prod_eq_zero_iff]
    exact ⟨fun hmem hall => hall 0 hmem rfl, fun h => by_contra fun hmem =>
      h fun n hn heq => hmem (heq ▸ hn)⟩
  simp only [← ite_not (p := _ = 0)]
  rw [prod_map_ite_one_zero, if_congr (not_congr hzero) rfl rfl, if_congr not_not rfl rfl]

/-- Atoms whose images are the same up to order have the same product of values. -/
theorem prod_of_isPerm [DecidableEq α] {as bs : List α} {f g : α → α}
    (image : α → Nat) {value value' : α → Nat} (h : (as.map f).isPerm (bs.map g) = true)
    (has : ∀ a ∈ as, image (f a) = value a) (hbs : ∀ b ∈ bs, image (g b) = value' b) :
    (as.map value).prod = (bs.map value').prod := by
  have himage : (as.map value).prod = ((as.map f).map image).prod := by
    rw [map_map]
    exact congrArg List.prod (map_congr_left fun a ha => (has a ha).symm)
  have himage' : ((bs.map g).map image).prod = (bs.map value').prod := by
    rw [map_map]
    exact congrArg List.prod (map_congr_left hbs)
  rw [himage, ((isPerm_iff.mp h).map image).prod_eq, himage']

/-- An inequality that is strict from two numbers on. -/
theorem lt_of_two_le_length {f g : List Nat → Nat} {k : Nat}
    (hone : ∀ n, k ≤ n → f [n] ≤ g [n] ∧ k ≤ g [n])
    (hcons : ∀ n ns, k ≤ n → f ns ≤ g ns → k ≤ g ns →
      f (n :: ns) < g (n :: ns) ∧ k ≤ g (n :: ns)) {ns : List Nat}
    (hlen : 2 ≤ ns.length) (hns : ∀ n ∈ ns, k ≤ n) : f ns < g ns := by
  have hle : ∀ {ms : List Nat}, ms ≠ [] → (∀ m ∈ ms, k ≤ m) → f ms ≤ g ms ∧ k ≤ g ms := by
    intro ms hne hms
    induction ms with
    | nil => exact absurd rfl hne
    | cons m ms ih =>
      have hm := hms m mem_cons_self
      by_cases hnil : ms = []
      · rw [hnil]
        exact hone m hm
      · obtain ⟨hrest, hbound⟩ := ih hnil fun n hn => hms n (mem_cons_of_mem _ hn)
        obtain ⟨hlt, hbound'⟩ := hcons m ms hm hrest hbound
        exact ⟨hlt.le, hbound'⟩
  cases ns with
  | nil => exact absurd hlen (by decide)
  | cons n ns =>
    have hne : ns ≠ [] := ne_nil_of_length_pos (Nat.succ_le_succ_iff.mp hlen)
    obtain ⟨hrest, hbound⟩ := hle hne fun k hk => hns k (mem_cons_of_mem _ hk)
    exact (hcons n ns (hns n mem_cons_self) hrest hbound).1

/-- Numbers multiply to much less than what the numbers after them multiply to. -/
theorem prod_lt_prod_succ {ns : List Nat} (hlen : 2 ≤ ns.length) (hns : ∀ n ∈ ns, 2 ≤ n) :
    ns.prod + 1 < (ns.map (· + 1)).prod := by
  refine lt_of_two_le_length (f := fun ns => ns.prod + 1) (g := fun ns => (ns.map (· + 1)).prod)
    (fun n hn => ?_) (fun n ns hn hle hbound => ?_) hlen hns
  · simpa using Nat.le_succ_of_le hn
  · simp only [map_cons, prod_cons]
    constructor <;> nlinarith

/-- Numbers that are not small add up to less than they multiply to. -/
theorem sum_lt_prod {ns : List Nat} (hlen : 2 ≤ ns.length) (hns : ∀ n ∈ ns, 3 ≤ n) :
    ns.sum < ns.prod := by
  refine lt_of_two_le_length (f := List.sum) (g := List.prod) (fun n hn => ?_)
    (fun n ns hn hle hbound => ?_) hlen hns
  · simpa using hn
  · simp only [sum_cons, prod_cons]
    constructor <;> nlinarith

end Products

end QueryRules
