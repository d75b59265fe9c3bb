import Mathlib.Logic.Relation
import QueryRules.Proofs.TupleCongruences

/-!
# QueryRules — what closing under projections computes

The closure works in rounds and stops after a round that merges nothing, unless it runs out of
rounds. In the first case it has computed the equivalence relation of a least set of pairs
(`Congruence.same_ofPreds_iff`).
-/

namespace QueryRules

open List

namespace Tuple

/-- The attribute of the attribute of ... of a tuple, the outermost one last. -/
def projectAll (t : Tuple) (names : List String) : Tuple :=
  names.foldl project t

theorem projectAll_concat (t : Tuple) (names : List String) (name : String) :
    t.projectAll (names ++ [name]) = (t.projectAll names).project name := by
  unfold projectAll
  rw [foldl_append, foldl_cons, foldl_nil]

theorem projectAll_ne_null {t : Tuple} (h : t ≠ null) (names : List String) :
    t.projectAll names ≠ null := by
  induction names using List.reverseRecOn with
  | nil => exact h
  | append_singleton init name ih =>
    rw [projectAll_concat, project, if_neg ih]
    exact fun heq => by cases heq

end Tuple

namespace Congruence

/-! ## Rounds that merge nothing -/

variable {g : Congruence Tuple} {base peer x y : Tuple} {name : String}

theorem attr_ne_project (h : peer ≠ base) : .attr base name ≠ peer.project name := by
  unfold Tuple.project
  split
  · next hnull => exact fun heq => by rw [hnull] at heq; cases heq
  · exact fun heq => h (Tuple.attr.inj heq).1.symm

/-- If merging a listed value with another one changes nothing, both were equivalent. -/
theorem same_of_unchanged (hx : x ∈ g.keys) (hne : x ≠ y) (h : (g.union x y).2 = false) :
    (g.union x y).1 = g ∧ g.same x y = true := by
  have hsame : g.same x y = true := by
    rwa [union_snd, Bool.not_eq_false'] at h
  rw [union_of_unchanged h, add_of_mem hx, add_of_mem (mem_keys_of_same hsame hne).2]
  exact ⟨rfl, hsame⟩

theorem mergePeers_of_unchanged {peers : List Tuple} (hproj : .attr base name ∈ g.keys)
    (h : (mergePeers (.attr base name) base name peers g).2 = false) :
    (mergePeers (.attr base name) base name peers g).1 = g ∧
      ∀ p ∈ peers, p ≠ base → g.same (.attr base name) (p.project name) = true := by
  induction peers with
  | nil => exact ⟨rfl, fun p hp => absurd hp not_mem_nil⟩
  | cons p ps ih =>
    unfold mergePeers at h ⊢
    by_cases hp : p = base
    · rw [if_pos hp] at h ⊢
      obtain ⟨heq, hall⟩ := ih h
      exact ⟨heq, forall_mem_cons.mpr ⟨fun hne => absurd hp hne, hall⟩⟩
    · rw [if_neg hp] at h ⊢
      dsimp only at h ⊢
      obtain ⟨hfirst, hrest⟩ := Bool.or_eq_false_iff.mp h
      obtain ⟨heq, hsame⟩ := same_of_unchanged hproj (attr_ne_project hp) hfirst
      rw [heq] at hrest ⊢
      obtain ⟨heq', hall⟩ := ih hrest
      exact ⟨heq', forall_mem_cons.mpr ⟨fun _ => hsame, hall⟩⟩

/-- A round that reports no change has found everything closed. -/
theorem closeRound_of_unchanged {projs : List (Tuple × Tuple × String)}
    (hprojs : ∀ p ∈ projs, p.1 = .attr p.2.1 p.2.2 ∧ p.1 ∈ g.keys)
    (h : (closeRound projs g).2 = false) :
    (closeRound projs g).1 = g ∧ ∀ p ∈ projs, ∀ peer ∈ g.classOf p.2.1, peer ≠ p.2.1 →
      g.same p.1 (peer.project p.2.2) = true := by
  induction projs with
  | nil => exact ⟨rfl, fun p hp => absurd hp not_mem_nil⟩
  | cons p ps ih =>
    obtain ⟨hattr, hmem⟩ := hprojs p mem_cons_self
    unfold closeRound at h ⊢
    dsimp only at h ⊢
    obtain ⟨hfirst, hrest⟩ := Bool.or_eq_false_iff.mp h
    rw [hattr] at hmem hfirst hrest ⊢
    obtain ⟨heq, hpeers⟩ := mergePeers_of_unchanged hmem hfirst
    rw [heq] at hrest ⊢
    obtain ⟨heq', hall⟩ := ih (fun q hq => hprojs q (mem_cons_of_mem _ hq)) hrest
    refine ⟨heq', forall_mem_cons.mpr ⟨?_, hall⟩⟩
    rw [hattr]
    exact hpeers

/-- A listed projection is equivalent to the same projection of what its base is equivalent to. -/
def ProjectionClosed (g : Congruence Tuple) : Prop :=
  ∀ base name peer, .attr base name ∈ g.keys → g.same base peer = true → peer ≠ base →
    g.same (.attr base name) (peer.project name) = true

/-- Whether one of the rounds merges nothing. -/
def settles : (rounds : Nat) → Congruence Tuple → Bool
  | 0, _ => false
  | rounds + 1, g =>
    let (g', changed) := closeRound g.projections g
    if changed then settles rounds g' else true

/-- **A closure that settles is closed.** Induction on the rounds: the last one
changes nothing. -/
theorem closed_of_settles {rounds : Nat} (h : settles rounds g = true) :
    (close rounds g).ProjectionClosed := by
  -- A round that merges nothing had all its merges made before.
  induction rounds generalizing g with
  | zero => cases h
  | succ rounds ih =>
    unfold settles at h
    unfold close
    dsimp only at h ⊢
    cases hchanged : (closeRound g.projections g).2 with
    | true =>
      rw [hchanged, if_pos rfl] at h
      rw [if_pos rfl]
      exact ih h
    | false =>
      rw [if_neg Bool.false_ne_true]
      obtain ⟨heq, hall⟩ :=
        closeRound_of_unchanged (fun _ hp => eq_attr_of_mem_projections hp) hchanged
      rw [heq]
      intro base name peer hmem hsame hne
      have hproj : (.attr base name, base, name) ∈ g.projections :=
        mem_filterMap.mpr ⟨.attr base name, hmem, rfl⟩
      exact hall _ hproj peer (mem_classOf_of_same hsame hne) hne

/-! ## The pairs that generate the relation -/

section Generated

variable {preds : List PredAtom}

/-- A set of pairs that holds the equalities. With a pair that has the projection `base.name` at one
end it holds the pair of this projection and that of any other tuple to which chains of its pairs
lead from the base. -/
structure Generating (preds : List PredAtom) (pair : Tuple → Tuple → Prop) : Prop where
  equality : ∀ l r, .eq l r ∈ preds → pair l r
  project : ∀ base name other peer, pair (.attr base name) other ∨ pair other (.attr base name) →
    Relation.EqvGen pair base peer → peer ≠ base → pair (.attr base name) (peer.project name)

/-- The pairs of the least such set. -/
def GeneratingPair (preds : List PredAtom) (x y : Tuple) : Prop :=
  ∀ pair, Generating preds pair → pair x y

theorem generating_generatingPair (preds : List PredAtom) :
    Generating preds (GeneratingPair preds) where
  equality l r hlr _ hpair := hpair.equality l r hlr
  project base name other peer hend hpeer hne pair hpair :=
    hpair.project base name other peer (hend.imp (fun h => h pair hpair) fun h => h pair hpair)
      (Relation.EqvGen.mono (fun _ _ h => h pair hpair) _ _ hpeer) hne

/-- Every tuple that is listed is an end of a pair, and chains of pairs lead to its leader. -/
structure Generated (preds : List PredAtom) (g : Congruence Tuple) : Prop where
  joined : Joined (GeneratingPair preds) g
  ends : ∀ x ∈ g.keys, ∃ other, GeneratingPair preds x other ∨ GeneratingPair preds other x

theorem Generated.union (h : Generated preds g) (hxy : GeneratingPair preds x y) :
    Generated preds (g.union x y).1 where
  joined := joined_union h.joined (.rel _ _ hxy)
  ends z hz := by
    rcases mem_keys_union.mp hz with hz | rfl | rfl
    · exact h.ends z hz
    · exact ⟨y, .inl hxy⟩
    · exact ⟨x, .inr hxy⟩

theorem generated_ofPreds (preds : List PredAtom) : Generated preds (ofPreds preds) := by
  have hpairs := generating_generatingPair preds
  have hempty : Generated preds empty := by
    constructor
    · intro x l h
      cases h
    · exact fun x h => absurd h not_mem_nil
  refine ofPreds_keeps hempty (fun l r hlr g hg => hg.union (hpairs.equality l r hlr)) ?_
  rintro g g' ⟨base, name, peer, hbase, -, hsame, hne, rfl⟩ hg
  obtain ⟨other, hend⟩ := hg.ends _ hbase
  exact hg.union (hpairs.project base name other peer hend (hg.joined.of_same hsame) hne)

/-- Two tuples are listed and equivalent. -/
structure Linked (g : Congruence Tuple) (x y : Tuple) : Prop where
  same : g.same x y = true
  left : x ∈ g.keys
  right : y ∈ g.keys

theorem Linked.union (h : g.Linked x y) (a b : Tuple) : (g.union a b).1.Linked x y :=
  ⟨extends_union g a b x y h.same, mem_keys_union.mpr (.inl h.left),
    mem_keys_union.mpr (.inl h.right)⟩

theorem linked_ofPairs {pairs : List (Tuple × Tuple)} (h : (x, y) ∈ pairs) :
    (ofPairs pairs).Linked x y := by
  have hkeys : ∀ z, z = x ∨ z = y → z ∈ (ofPairs pairs).keys := by
    intro z hz
    rw [ofPairs_eq_run, keys_run, mem_eraseDups, mem_flatMap]
    exact ⟨.union x y, mem_map_of_mem h, by simpa [Call.values] using hz⟩
  exact ⟨same_ofPairs.mpr (.rel _ _ h), hkeys x (.inl rfl), hkeys y (.inr rfl)⟩

theorem linked_ofPreds (h : .eq x y ∈ preds) : (ofPreds preds).Linked x y := by
  have hpair : (x, y) ∈ equalities preds := mem_filterMap.mpr ⟨_, h, rfl⟩
  refine Closes.run_keeps (P := fun g => g.Linked x y) ?_ (closes_close maxRounds)
    (linked_ofPairs hpair)
  rintro g g' ⟨base, name, peer, -, -, -, -, rfl⟩ hg
  exact hg.union _ _

/-- The closure of the predicates ends because a round merges nothing. -/
def Settles (preds : List PredAtom) : Prop :=
  settles maxRounds (ofPairs (equalities preds)) = true

instance (preds : List PredAtom) : Decidable (Settles preds) :=
  inferInstanceAs (Decidable (_ = true))

theorem closed_ofPreds (h : Settles preds) : (ofPreds preds).ProjectionClosed :=
  closed_of_settles h

/-- The linked tuples of a closed congruence are a generating set. -/
theorem generating_linked (h : Settles preds) : Generating preds (ofPreds preds).Linked where
  equality _ _ hlr := linked_ofPreds hlr
  project base name other peer hend hpeer hne := by
    have hmem : .attr base name ∈ (ofPreds preds).keys := hend.elim Linked.left Linked.right
    have hbase : (ofPreds preds).same base peer = true := by
      rw [← (same_equivalence (ofPreds preds)).eqvGen_iff]
      exact Relation.EqvGen.mono (fun _ _ hlink => hlink.same) _ _ hpeer
    have hsame := closed_ofPreds h base name peer hmem hbase hne
    obtain ⟨hleft, hright⟩ := mem_keys_of_same hsame (attr_ne_project hne)
    exact ⟨hsame, hleft, hright⟩

/-- **The congruence of predicates is the generated one.** If the closure settles, tuples are
equivalent exactly if chains of generating pairs lead from one to the other; hence the members of a
class have equal rows wherever the equalities hold. -/
theorem same_ofPreds_iff (h : Settles preds) :
    (∀ x y, (ofPreds preds).same x y = true ↔ Relation.EqvGen (GeneratingPair preds) x y) ∧
      ∀ {D : Type*} (m : Model D) (env : Env D),
        (∀ l r, .eq l r ∈ preds → l.value m env = r.value m env) →
        ∀ z, ∀ x ∈ (ofPreds preds).classOf z, ∀ y ∈ (ofPreds preds).classOf z,
          x.value m env = y.value m env := by
  constructor
  · intro x y
    refine ⟨(generated_ofPreds preds).joined.of_same, fun hgen => ?_⟩
    rw [← (same_equivalence (ofPreds preds)).eqvGen_iff]
    exact Relation.EqvGen.mono (fun _ _ hpair => (hpair _ (generating_linked h)).same) x y hgen
  · intro D m env heqs z x hx y hy
    have hclass : ∀ w ∈ (ofPreds preds).classOf z, z.value m env = w.value m env := fun w hw =>
      (holds_ofPreds heqs).value_eq (same_of_mem_classOf hw).1
    exact (hclass x hx).symm.trans (hclass y hy)

/-- Two rounds add projections of `y` and of the constant that is `x.k`. -/
theorem same_ofPreds_iff_nested :
    let preds : List PredAtom := [.eq (.var "x") (.var "y"),
      .eq (.attr (.var "x") "k") (.const "1"), .eq (.attr (.attr (.var "x") "k") "j") (.var "z")]
    Settles preds ∧
      Relation.EqvGen (GeneratingPair preds) (.attr (.attr (.var "y") "k") "j") (.var "z") ∧
      ¬ Relation.EqvGen (GeneratingPair preds) (.attr (.var "y") "j") (.attr (.var "x") "j") := by
  intro preds
  have hsettles : Settles preds := by decide +kernel
  have hiff := (same_ofPreds_iff.{0} hsettles).1
  exact ⟨hsettles, (hiff _ _).mp (by decide +kernel),
    fun h => absurd ((hiff _ _).mpr h) (by decide +kernel)⟩

/-! ## Chains of projections -/

/-- **Chains of projections of equivalent tuples are equivalent**, if all projections on the way are
listed, from the first one to the whole chain. Induction from the end of the chain: its base is
equivalent to that of the other chain, and it is listed. -/
theorem same_projectAll {names : List String} (h : Settles preds) (hx : x ≠ Tuple.null)
    (hsame : (ofPreds preds).same x y = true)
    (hkeys : ∀ k < names.length, x.projectAll (names.take (k + 1)) ∈ (ofPreds preds).keys) :
    (ofPreds preds).same (x.projectAll names) (y.projectAll names) = true := by
  induction names using List.reverseRecOn with
  | nil => exact hsame
  | append_singleton init name ih =>
    rw [length_append, length_singleton] at hkeys
    have hbase := ih fun k hk => by
      have hshort := hkeys k (Nat.lt_succ_of_lt hk)
      rwa [take_append_of_le_length hk] at hshort
    have hlisted := hkeys init.length (Nat.lt_succ_self _)
    rw [take_of_length_le (by simp)] at hlisted
    rw [Tuple.projectAll_concat] at hlisted ⊢
    rw [Tuple.projectAll_concat]
    by_cases hpeer : y.projectAll init = x.projectAll init
    · rw [hpeer]
      exact same_iff.mpr (.inl rfl)
    · rw [Tuple.project, if_neg (Tuple.projectAll_ne_null hx init)] at hlisted ⊢
      exact closed_ofPreds h _ name _ hlisted hbase hpeer

theorem same_projectAll_listed :
    let preds : List PredAtom := [.eq (.var "x") (.var "y"), .eq (.attr (.var "x") "a") (.var "z"),
      .eq (.attr (.attr (.var "x") "a") "b") (.const "1")]
    Settles preds ∧ (ofPreds preds).same (Tuple.projectAll (.var "x") ["a", "b"])
      (Tuple.projectAll (.var "y") ["a", "b"]) = true := by
  intro preds
  have hsettles : Settles preds := by decide +kernel
  exact ⟨hsettles, same_projectAll hsettles (by decide) (by decide +kernel) (by decide +kernel)⟩

/-- Without the projection `x.a` on the way, nothing is known of `x.a.b` and `y.a.b`; and a chain
that starts from null is null, while that of an equal tuple may not be listed. -/
theorem projectAll_not_closed :
    (∃ preds : List PredAtom, preds = [.eq (.var "x") (.var "y"),
        .eq (.attr (.attr (.var "x") "a") "b") (.const "1"),
        .eq (.attr (.attr (.var "y") "a") "b") (.const "2")] ∧
      Settles preds ∧ (ofPreds preds).same (.var "x") (.var "y") = true ∧
        Tuple.projectAll (.var "x") ["a", "b"] ∈ (ofPreds preds).keys ∧
        (ofPreds preds).same (Tuple.projectAll (.var "x") ["a", "b"])
          (Tuple.projectAll (.var "y") ["a", "b"]) = false) ∧
      ∃ preds : List PredAtom, preds = [.eq (.var "x") Tuple.null] ∧
        Settles preds ∧ (ofPreds preds).same Tuple.null (.var "x") = true ∧
        Tuple.null.projectAll ["a"] ∈ (ofPreds preds).keys ∧
        (ofPreds preds).same (Tuple.null.projectAll ["a"]) (Tuple.projectAll (.var "x") ["a"]) =
          false :=
  ⟨⟨_, rfl, by decide +kernel⟩, _, rfl, by decide +kernel⟩

end Generated

end Congruence

end QueryRules
