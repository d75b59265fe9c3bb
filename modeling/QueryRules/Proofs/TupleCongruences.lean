import Mathlib.Logic.Relation
import QueryRules.Congruence.Tuples
import QueryRules.Proofs.CongruenceClosure
import QueryRules.Proofs.Value

/-!
# QueryRules — equivalent tuples have equal rows

The equalities of a conjunction induce a congruence on tuples, closed in rounds under the
projections that are listed. In an environment in which the equalities hold, tuples of one class
have the same row (`Congruence.value_eq_of_same`).

The closure is a run of merges, each of a listed projection with that of a listed tuple which is
equivalent to its base (`Congruence.Closes`). What one such merge keeps, the closure keeps: a listed
tuple has the row of its leader (`Congruence.Holds`), and it has no variables but those of the
predicates (`Congruence.uses_of_mem_keys`).
-/

namespace QueryRules

open List

namespace Congruence

/-! ## Closing under projections -/

variable {g g' : Congruence Tuple} {x y : Tuple}

/-- One merge of the closure: a listed projection and that of another listed tuple which is
equivalent to its base. -/
def Closes (g g' : Congruence Tuple) : Prop :=
  ∃ base name peer, .attr base name ∈ g.keys ∧ peer ∈ g.keys ∧ g.same base peer = true ∧
    peer ≠ base ∧ g' = (g.union (.attr base name) (peer.project name)).1

variable {P : Congruence Tuple → Prop}

/-- What one merge keeps, a run of merges keeps. -/
theorem Closes.run_keeps
    (hstep : ∀ {g g'}, Closes g g' → P g → P g') (h : Relation.ReflTransGen Closes g g')
    (hg : P g) : P g' := by
  induction h with
  | refl => exact hg
  | tail _ hlast ih => exact hstep hlast ih

theorem Closes.mem_keys (h : Closes g g') (hx : x ∈ g.keys) : x ∈ g'.keys := by
  obtain ⟨base, name, peer, -, -, -, -, rfl⟩ := h
  exact mem_keys_union.mpr (.inl hx)

/-- Merging a projection with its peers is a chain of closing steps. -/
theorem closes_mergePeers {base : Tuple} {name : String} {peers : List Tuple}
    (hproj : .attr base name ∈ g.keys)
    (hpeers : ∀ p ∈ peers, g.same base p = true ∧ (p ≠ base → p ∈ g.keys)) :
    Relation.ReflTransGen Closes g (mergePeers (.attr base name) base name peers g).1 := by
  induction peers generalizing g with
  | nil => exact .refl
  | cons p ps ih =>
    have hps : ∀ q ∈ ps, g.same base q = true ∧ (q ≠ base → q ∈ g.keys) := fun q hq =>
      hpeers q (mem_cons_of_mem _ hq)
    unfold mergePeers
    split
    · exact ih hproj hps
    · next hne =>
      obtain ⟨hsame, hlisted⟩ := hpeers p mem_cons_self
      have hstep : Closes g (g.union (.attr base name) (p.project name)).1 :=
        ⟨base, name, p, hproj, hlisted hne, hsame, hne, rfl⟩
      -- The other peers are listed and equivalent after the merge as well.
      refine .head hstep (ih (hstep.mem_keys hproj) fun q hq => ?_)
      exact ⟨extends_union g _ _ _ _ (hps q hq).1, fun hqb => hstep.mem_keys ((hps q hq).2 hqb)⟩

theorem closes_closeRound {projs : List (Tuple × Tuple × String)}
    (hprojs : ∀ p ∈ projs, p.1 = .attr p.2.1 p.2.2 ∧ p.1 ∈ g.keys) :
    Relation.ReflTransGen Closes g (closeRound projs g).1 := by
  induction projs generalizing g with
  | nil => exact .refl
  | cons p ps ih =>
    obtain ⟨hattr, hmem⟩ := hprojs p mem_cons_self
    unfold closeRound
    rw [hattr] at hmem ⊢
    have hpeers := closes_mergePeers hmem fun q hq => same_of_mem_classOf hq
    refine hpeers.trans (ih fun q hq => ?_)
    obtain ⟨hattr', hmem'⟩ := hprojs q (mem_cons_of_mem _ hq)
    exact ⟨hattr', Closes.run_keeps Closes.mem_keys hpeers hmem'⟩

theorem eq_attr_of_mem_projections {p : Tuple × Tuple × String} (hp : p ∈ g.projections) :
    p.1 = .attr p.2.1 p.2.2 ∧ p.1 ∈ g.keys := by
  unfold projections at hp
  obtain ⟨t, hmem, ht⟩ := mem_filterMap.mp hp
  cases t with
  | attr base name =>
    cases ht
    exact ⟨rfl, hmem⟩
  | var n | const c | call f args => cases ht

/-- **The closure is a run of merges.** -/
theorem closes_close (rounds : Nat) :
    Relation.ReflTransGen Closes g (close rounds g) := by
  induction rounds generalizing g with
  | zero => exact .refl
  | succ rounds ih =>
    have hround := closes_closeRound (g := g) fun _ hp => eq_attr_of_mem_projections hp
    unfold close
    dsimp only
    split
    · exact hround.trans ih
    · exact hround

/-- What merging two sides keeps, the relation joined from pairs has. -/
theorem ofPairs_keeps (hempty : P empty)
    {pairs : List (Tuple × Tuple)}
    (hunion : ∀ p ∈ pairs, ∀ g, P g → P (g.union p.1 p.2).1) : P (ofPairs pairs) := by
  induction pairs using List.reverseRecOn with
  | nil => exact hempty
  | append_singleton pairs p ih =>
    have hpairs := ih fun q hq => hunion q (mem_append_left _ hq)
    unfold ofPairs at hpairs ⊢
    rw [foldl_append]
    exact hunion p (mem_append_right _ mem_cons_self) _ hpairs

/-- What holds of no tuples, and is kept by the merges of equalities and of the closure, holds of
the congruence of predicates. -/
theorem ofPreds_keeps {preds : List PredAtom} (hempty : P empty)
    (hunion : ∀ l r, .eq l r ∈ preds → ∀ g, P g → P (g.union l r).1)
    (hstep : ∀ {g g'}, Closes g g' → P g → P g') : P (ofPreds preds) := by
  refine Closes.run_keeps hstep (closes_close maxRounds)
    (ofPairs_keeps hempty fun p hp g hg => ?_)
  obtain ⟨q, hq, heq⟩ := mem_filterMap.mp hp
  cases q with
  | pred n args => cases heq
  | eq l r =>
    cases heq
    exact hunion l r hq g hg

variable {preds : List PredAtom}

/-- The variables of a listed tuple are variables of the predicates. -/
theorem uses_of_mem_keys {z : String} (hx : x ∈ (ofPreds preds).keys)
    (hz : x.uses (.var z) = true) : ∃ p ∈ preds, p.uses (.var z) = true := by
  refine ofPreds_keeps (P := fun g => ∀ x ∈ g.keys, x.uses (.var z) = true →
    ∃ p ∈ preds, p.uses (.var z) = true) ?_ ?_ ?_ x hx hz
  · exact fun x hx => absurd hx not_mem_nil
  · intro l r hlr g hg x hx hz
    rcases mem_keys_union.mp hx with hx | rfl | rfl
    · exact hg x hx hz
    · exact ⟨_, hlr, Bool.or_eq_true_iff.mpr (.inl hz)⟩
    · exact ⟨_, hlr, Bool.or_eq_true_iff.mpr (.inr hz)⟩
  · rintro g g' ⟨base, name, peer, hbase, hpeer, -, -, rfl⟩ hg x hx hz
    rcases mem_keys_union.mp hx with hx | rfl | rfl
    · exact hg x hx hz
    · exact hg _ hbase hz
    · exact hg peer hpeer (Tuple.uses_of_uses_project hz)

/-! ## Rows -/

variable {D : Type*} {m : Model D} {env : Env D}

/-- A listed tuple has the row of its leader. -/
def Holds (m : Model D) (env : Env D) (g : Congruence Tuple) : Prop :=
  Joined (fun x y => x.value m env = y.value m env) g

namespace Holds

theorem value_eq (h : g.Holds m env) (hsame : g.same x y = true) :
    x.value m env = y.value m env := by
  have hrows : Equivalence fun x y : Tuple => x.value m env = y.value m env :=
    ⟨fun _ => rfl, fun h => h.symm, fun h h' => h.trans h'⟩
  exact hrows.eqvGen_iff.mp (Joined.of_same h hsame)

theorem union (h : g.Holds m env) (hxy : x.value m env = y.value m env) :
    (g.union x y).1.Holds m env :=
  joined_union h (.rel _ _ hxy)

/-- Projections of equal rows are equal. -/
theorem closes (h : g.Holds m env) (hstep : Closes g g') : g'.Holds m env := by
  obtain ⟨base, name, peer, -, -, hsame, -, rfl⟩ := hstep
  refine h.union ?_
  rw [Tuple.value_project, Tuple.value, h.value_eq hsame]

end Holds

/-- Where the equalities hold, a listed tuple has the row of its leader. -/
theorem holds_ofPreds
    (h : ∀ l r, .eq l r ∈ preds → l.value m env = r.value m env) : (ofPreds preds).Holds m env :=
  ofPreds_keeps (fun _ _ hx => by cases hx) (fun l r hlr _ hg => hg.union (h l r hlr))
    fun hstep hg => hg.closes hstep

variable [Fintype D] [DecidableEq D]

/-- **Equivalent tuples have equal rows**, wherever none of the predicates is zero. -/
theorem value_eq_of_same
    (h : ∀ p ∈ preds, p.toTerm.value m env ≠ 0) (hsame : (ofPreds preds).same x y = true) :
    x.value m env = y.value m env := by
  have hholds : (ofPreds preds).Holds m env := by
    refine holds_ofPreds fun l r hlr => ?_
    by_contra hne
    exact h _ hlr (if_neg hne)
  exact hholds.value_eq hsame

end Congruence

end QueryRules
