import QueryRules.Proofs.Idempotence

/-!
# QueryRules — a squash normalizes to one conjunction

A squash at the root of a term turns into a negation, into a product of negations and back into a
squash of a sum, but never into a sum or a summation (`Term.IsGuard`). No law and no pass breaks
this, whatever happens below the squashes and negations, so the reader finds one conjunction.
-/

namespace QueryRules

/-- A product of squashes and negations. -/
def Term.IsGuard : Term → Prop
  | .squash _ | .not _ => True
  | .mul l r => l.IsGuard ∧ r.IsGuard
  | .table _ _ | .pred _ _ | .eq _ _ | .add _ _ | .sum _ _ => False

theorem Term.IsGuard.isProduct {t : Term} (h : t.IsGuard) : t.IsProduct := by
  cases t with
  | squash t => exact isProduct_squash t
  | not t => exact isProduct_not t
  | mul l r => exact isProduct_mul l r
  | _ => exact h.elim

namespace Law

variable {law : Law} {t t' : Term}

/-- Merging factors below a squash or a negation leaves a product of squashes and negations. -/
theorem isGuard_mergeFactors {body? : Term → Option Term} {merge : List Term → Option Term}
    (wrap : Term → Term) (hwrap : ∀ x, (wrap x).IsGuard)
    (h : mergeFactors? body? (fun bodies => (merge bodies).map wrap) t = some t')
    (ht : t.IsGuard) : t'.IsGuard := by
  refine mergeFactors?_keeps (P := Term.IsGuard) (Q := fun _ => True) Iff.rfl
    (fun _ _ _ _ => trivial) (fun bodies merged hmerged _ => ?_) ht h
  obtain ⟨p, -, rfl⟩ := Option.map_eq_some_iff.mp hmerged
  exact hwrap p

/-- A law at a product of squashes and negations leaves one. At a squash or a negation every law
does, and of the laws at products those for sums and summations do not fire. -/
theorem isGuard_plain (h : law.plain? t = some t') (ht : t.IsGuard) : t'.IsGuard := by
  unfold plain? at h
  split at h
  · -- `||(||x||)||`
    cases h
    trivial
  · -- `||a * ||x||||`
    unfold openSquashes? at h
    split at h
    · obtain ⟨p, -, rfl⟩ := Option.map_eq_some_iff.mp h
      trivial
    · cases h
  · -- `not(||x||)`
    cases h
    trivial
  · exact ht.elim
  · -- `not(x + y)`
    cases h
    exact ⟨trivial, trivial⟩
  · -- `not(x * y)`
    cases h
    trivial
  · -- `not(not(x))`
    cases h
    trivial
  · -- `||not(x)||`
    cases h
    trivial
  · -- `x * (y * z)`
    cases h
    exact ⟨⟨ht.1, ht.2.1⟩, ht.2.2⟩
  · exact ht.elim
  · exact ht.1.elim
  · exact ht.2.elim
  · -- a squash moves right
    split at h
    · cases h
      exact swapLast_keeps (P := Term.IsGuard) Iff.rfl ht
    · cases h
  · -- a negation moves right
    split at h
    · cases h
      exact swapLast_keeps (P := Term.IsGuard) Iff.rfl ht
    · cases h
  · exact isGuard_mergeFactors .squash (fun _ => trivial) h ht
  · exact isGuard_mergeFactors .not (fun _ => trivial) h ht
  · cases h

theorem isGuard_fire {s s' : FreshNames} (h : law.fire? s t = some (t', s')) (ht : t.IsGuard) :
    t'.IsGuard := by
  unfold fire? at h
  split at h
  · exact ht.1.elim
  · exact ht.2.elim
  · exact ht.elim
  · obtain ⟨new, hnew, heq⟩ := Option.map_eq_some_iff.mp h
    cases heq
    exact isGuard_plain hnew ht

end Law

namespace Term

/-- A step inside of a squash or a negation changes nothing at the root. -/
theorem isGuard_reduce? {s : FreshNames} {laws : List Law} {t : Term} {f : Firing}
    (h : t.reduce? s laws = some f) : t.IsGuard → f.result.IsGuard := by
  refine reduce?_induction (motive := fun t f => t.IsGuard → f.result.IsGuard) ?_
    (fun _ => False.elim) (fun _ => False.elim) (fun ih ht => ⟨ih ht.1, ht.2⟩)
    (fun ih ht => ⟨ht.1, ih ht.2⟩)
    (fun _ => id) (fun _ => id) (fun _ => False.elim) h
  intro t f _ hfirst
  obtain ⟨-, law, -, -, hfire, -⟩ := Law.firstAt?_eq_some hfirst
  exact Law.isGuard_fire hfire

/-- What a squash is reduced to: the invariant carried through all passes. -/
theorem isGuard_of_reduce {e t' : Term} (h : (Term.squash e).reduce = .ok t') : t'.IsGuard := by
  obtain ⟨p, hp, rfl⟩ := exists_reduceRecorded h
  exact Pass.runAll_keeps (P := fun u _ => u.IsGuard) (fun _ _ _ _ _ => isGuard_reduce?) hp trivial

theorem exists_single_of_normalize {e : Term} {d : Disj} (h : (Term.squash e).normalize = .ok d) :
    ∃ c, d = [c] := by
  obtain ⟨t', hred, rfl⟩ := exists_reduce_of_normalize h
  rw [spread_of_isProduct (isGuard_of_reduce hred).isProduct]
  -- Naming the variables goes through the conjunctions one by one.
  exact ⟨_, rfl⟩

/-- **A squash normalizes to a single conjunction**, for every term below it. So squashing a
conjunction gives a conjunction unless its normalization fails: there is never a number of
conjunctions to complain about. -/
theorem normalize_squash_single :
    (∀ (e : Term) (d : Disj), (Term.squash e).normalize = .ok d → d.length = 1) ∧
      ∀ c : Conj, (∃ s, c.squashed = .ok s) ∨
        ∃ err, (Term.squash c.toTerm).normalize = .error err ∧
          c.squashed = .error (.normalForm err) := by
  refine ⟨fun e d h => ?_, fun c => ?_⟩
  · obtain ⟨c, rfl⟩ := exists_single_of_normalize h
    rfl
  · cases hd : (Term.squash c.toTerm).normalize with
    | error err =>
      refine .inr ⟨err, rfl, ?_⟩
      unfold Conj.squashed
      rw [hd]
      rfl
    | ok d =>
      obtain ⟨s, rfl⟩ := exists_single_of_normalize hd
      refine .inl ⟨s, ?_⟩
      unfold Conj.squashed
      rw [hd]
      rfl

/-- `not(R(x) + Q(x) * not(Sum{y}(R(y) + S(y))))`. -/
def alternating : Term :=
  .not (.add (.table "R" (.var "x")) (.mul (.table "Q" (.var "x"))
    (.not (.sum [.var "y"] (.add (.table "R" (.var "y")) (.table "S" (.var "y")))))))

/-- Below the squash the negation becomes a product, and that a sum, by way of a squash: two
conjunctions there, and one at the root. -/
theorem normalize_squash_single_alternating :
    ∃ d, (Term.squash alternating).normalize = .ok d ∧ d.length = 1 ∧
      d.map (fun c => c.squash.map List.length) = [some 2] := by
  have hform : ((Term.squash alternating).normalize.map fun d =>
      d.map fun c => c.squash.map List.length) = .ok [some 2] := by
    decide +kernel
  cases hd : (Term.squash alternating).normalize with
  | error err =>
    rw [hd] at hform
    cases hform
  | ok d =>
    rw [hd] at hform
    exact ⟨d, rfl, normalize_squash_single.1 _ d hd, Except.ok.inj hform⟩

end Term

end QueryRules
