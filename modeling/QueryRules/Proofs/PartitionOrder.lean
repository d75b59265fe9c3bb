import Mathlib.Data.List.FinRange
import Mathlib.Data.Setoid.Basic
import QueryRules.Proofs.Partitions

/-!
# QueryRules — partitions in lexicographic order, coarse before fine

A list of blocks stands for the equivalence relation of being in one block
(`Partition.relation`). Stepping from the single block on comes to every equivalence relation once,
in the lexicographic order of the lists, and to a relation before all that are strictly finer
(`Partition.all_enumerates`).
-/

namespace QueryRules

open List

namespace Partition

/-- Two numbers are in one block. -/
def relation (n : Nat) (p : Partition) : Setoid (Fin n) :=
  Setoid.ker fun i => p[i.val]?

variable {n : Nat} {p : Partition}

theorem relation_iff {i j : Fin n} :
    (relation n p) i j ↔ p[i.val]? = p[j.val]? :=
  Iff.rfl

/-! ## The order of the lists -/

/-- Growth strings are listed in lexicographic order. -/
theorem pairwise_lt_growths (k n : Nat) : (growths k n).Pairwise (· < ·) := by
  induction n generalizing k with
  | zero => exact pairwise_singleton _ _
  | succ n ih =>
    rw [growths, pairwise_flatMap]
    constructor
    · intro b _
      rw [pairwise_map]
      exact (ih _).imp fun hlt => cons_lt_cons_iff.mpr (.inr ⟨rfl, hlt⟩)
    · -- Lists from different groups are told apart by their heads.
      refine pairwise_lt_range.imp fun {b c} hlt p hp q hq => ?_
      obtain ⟨p, -, rfl⟩ := mem_map.mp hp
      obtain ⟨q, -, rfl⟩ := mem_map.mp hq
      exact cons_lt_cons_iff.mpr (.inl hlt)

/-! ## Relations of visited partitions -/

/-- The members of the zip are the numbers with their blocks. -/
theorem mem_zip_finRange {u : Fin n × Nat} :
    u ∈ (List.finRange n).zip p ↔ p[u.1.val]? = some u.2 := by
  rw [mem_iff_getElem?]
  simp only [getElem?_zip_eq_some]
  constructor
  · rintro ⟨i, hi, hp⟩
    obtain ⟨hlt, hget⟩ := List.getElem?_eq_some_iff.mp hi
    rw [← hget, getElem_finRange]
    exact hp
  · intro hp
    refine ⟨u.1.val, ?_, hp⟩
    rw [getElem?_eq_getElem (by simp), getElem_finRange]
    rfl

theorem matches_iff (hp : p.length = n) {r : Setoid (Fin n)} :
    Matches r ((List.finRange n).zip p) ↔ relation n p = r := by
  have hat : ∀ i : Fin n, ∃ b, p[i.val]? = some b := fun i =>
    ⟨_, getElem?_eq_getElem (hp ▸ i.isLt)⟩
  constructor
  · intro h
    ext i j
    obtain ⟨b, hb⟩ := hat i
    obtain ⟨c, hc⟩ := hat j
    rw [relation_iff, hb, hc, Option.some_inj]
    exact h (i, b) (mem_zip_finRange.mpr hb) (j, c) (mem_zip_finRange.mpr hc)
  · rintro rfl u hu v hv
    rw [relation_iff, mem_zip_finRange.mp hu, mem_zip_finRange.mp hv, Option.some_inj]

theorem existsUnique_mem_all (r : Setoid (Fin n)) :
    ∃! p, p ∈ all n ∧ relation n p = r := by
  have hall : all (List.finRange n).length = all n := by rw [length_finRange]
  obtain ⟨p, hp, hm⟩ := exists_mem_all r.iseqv (List.finRange n)
  refine ⟨p, ⟨hall ▸ hp, (matches_iff (length_of_mem_all (hall ▸ hp))).mp hm⟩, ?_⟩
  rintro q ⟨hq, hrel⟩
  exact eq_of_matches (hall ▸ hq) hp ((matches_iff (length_of_mem_all hq)).mpr hrel) hm

/-- Every equivalence relation is visited at exactly one time. -/
theorem existsUnique_time (r : Setoid (Fin n)) :
    ∃! time : Nat, ((all n)[time]?).map (relation n) = some r := by
  obtain ⟨p, ⟨hp, hrel⟩, hunique⟩ := existsUnique_mem_all r
  obtain ⟨time, htime, hget⟩ := mem_iff_getElem.mp hp
  refine ⟨time, ?_, fun time' htime' => ?_⟩
  · show ((all n)[time]?).map (relation n) = some r
    rw [getElem?_eq_getElem htime, hget, Option.map_some, hrel]
  · -- At another time there would be the same list again.
    obtain ⟨q, hq, hrel'⟩ := Option.map_eq_some_iff.mp htime'
    obtain ⟨hlt, hget'⟩ := List.getElem?_eq_some_iff.mp hq
    have hqp : q = p := hunique q ⟨mem_of_getElem? hq, hrel'⟩
    exact (List.Nodup.getElem_inj_iff (nodup_all n)).mp (hget'.trans (hqp.trans hget.symm))

/-! ## Coarse before fine -/

/-- A partition is not finer than one that splits it. -/
theorem Splits.not_le {p q : Partition} (h : p.Splits q) (hp : p.length = n) :
    ¬ relation n p ≤ relation n q := by
  obtain ⟨i, j, b, hi, hj, hne⟩ := h
  intro hle
  have hlt : ∀ {k : Nat}, p[k]? = some b → k < n := fun hk =>
    hp ▸ (List.getElem?_eq_some_iff.mp hk).1
  exact hne (hle (x := ⟨i, hlt hi⟩) (y := ⟨j, hlt hj⟩) (hi.trans hj.symm))

theorem lt_of_relation_lt {i j : Fin (all n).length}
    (hfiner : relation n ((all n).get j) < relation n ((all n).get i)) : i < j := by
  rcases Nat.lt_trichotomy i.val j.val with hlt | heq | hgt
  · exact hlt
  · rw [Fin.ext heq] at hfiner
    exact absurd hfiner (lt_irrefl _)
  · -- The finer one would come first, and the coarser one would split it.
    have hsplits := pairwise_iff_get.mp (pairwise_all n) j i hgt
    exact absurd hfiner.le (hsplits.not_le (length_of_mem_all (get_mem _ j)))

/-- **Stepping through the partitions.** The visits begin with the single block, every one is
followed by its successor, and the last one has none. What is visited are the lists in which every
block is in use before or the next new one, in lexicographic order. Every equivalence relation is
visited at exactly one time, and before all relations that are strictly finer. -/
theorem all_enumerates (n : Nat) :
    (∃ rest, all n = single n :: rest) ∧ WalkTo next? none (all n) ∧
      (∀ p, p ∈ all n ↔ p.length = n ∧ Growth 0 p) ∧ (all n).Pairwise (· < ·) ∧
      (∀ r : Setoid (Fin n), ∃! time : Nat, ((all n)[time]?).map (relation n) = some r) ∧
      ∀ i j : Fin (all n).length,
        relation n ((all n).get j) < relation n ((all n).get i) → i < j := by
  refine ⟨?_, ?_, ?_, ?_, existsUnique_time, fun i j => lt_of_relation_lt⟩
  · rw [all_eq_growths]
    exact growths_eq_cons 0 n
  · rw [all_eq_growths]
    exact walkTo_next n
  · rw [all_eq_growths]
    exact fun p => mem_growths
  · rw [all_eq_growths]
    exact pairwise_lt_growths 0 n

end Partition

end QueryRules
