import QueryRules.Plan.Denotation
import QueryRules.Proofs.Freshness
import QueryRules.Proofs.Preliminaries

/-!
# QueryRules — walks through plans

`Denote.ofPlan` walks through a plan and carries along the scope at hand, the row of every alias and
the number of the next row variable. This module says once what such a walk can do, so that the
facts about terms of plans need not look at the monad again.
-/

namespace QueryRules

/-! ## Runs -/

namespace Denote

variable {α β : Type} {w w' : Walk}

/-- A step of the walk that succeeds. -/
def Runs (m : Denote α) (w : Walk) (a : α) (w' : Walk) : Prop :=
  m.run w = .ok (a, w')

/-- A step ends in one way. -/
theorem Runs.unique {m : Denote α} {a a' : α} {w₁ w₂ : Walk} (h : Runs m w a w₁)
    (h' : Runs m w a' w₂) : a = a' ∧ w₁ = w₂ :=
  Prod.mk.inj (Except.ok.inj (h.symm.trans h'))

theorem runs_pure {a a' : α} : Runs (pure a) w a' w' ↔ a' = a ∧ w' = w := by
  constructor
  · intro h
    cases h
    exact ⟨rfl, rfl⟩
  · intro h
    obtain ⟨rfl, rfl⟩ := h
    rfl

theorem runs_bind {m : Denote α} {f : α → Denote β} {b : β} :
    Runs (m >>= f) w b w' ↔ ∃ a w₁, Runs m w a w₁ ∧ Runs (f a) w₁ b w' := by
  unfold Runs
  rw [StateT.run_bind, bind_eq_ok, Prod.exists]

/-- Reading the walk changes nothing. -/
theorem runs_get_bind {f : Walk → Denote β} {b : β} :
    Runs (get >>= f) w b w' ↔ Runs (f w) w b w' :=
  Iff.rfl

theorem runs_modify_bind {g : Walk → Walk} {f : Unit → Denote β} {b : β} :
    Runs (modify g >>= f) w b w' ↔ Runs (f ()) (g w) b w' :=
  Iff.rfl

/-- What needs no walk either fails or leaves it as it is. -/
theorem runs_lift_bind {x : Except DenoteError α} {f : α → Denote β} {b : β} :
    Runs (liftM x >>= f) w b w' ↔ ∃ a, x = .ok a ∧ Runs (f a) w b w' := by
  have hrun : (liftM x >>= f).run w = x >>= fun a => (f a).run w := by
    cases x <;> rfl
  unfold Runs
  rw [hrun, bind_eq_ok]

theorem not_runs_throw {e : DenoteError} {a : α} : ¬ Runs (throw e) w a w' := by
  intro h
  cases h

theorem not_runs_throw_bind {e : DenoteError} {f : α → Denote β} {b : β} :
    ¬ Runs (throw e >>= f) w b w' := by
  intro h
  cases h

end Denote

/-! ## Scopes -/

namespace Walk

/-- The walk inside of a projection: a new scope without rows and joints. -/
def enter (w : Walk) : Walk :=
  { w with scope := ⟨false, [], none⟩ }

/-- The walk back in the scope of another one. -/
def leaveTo (w outer : Walk) : Walk :=
  { w with scope := outer.scope }

/-- The walk with joints that a projection is to be tied to. -/
def handing (w : Walk) (joints : Option (List Tuple)) : Walk :=
  { w with scope := { w.scope with joints } }

/-- The walk after a relation got its row. -/
def bindRow (w : Walk) (owner : String) (row : Tuple) : Walk :=
  { w with
    scope := { w.scope with rows := w.scope.rows ++ [row] }
    owners := (owner, row) :: w.owners }

/-- The rows of all relations met so far, also of those whose scope is closed. -/
def metRows (w : Walk) : List Tuple :=
  w.owners.map Prod.snd

end Walk

namespace Denote

/-- The row variable with a number. -/
def numberedRow (k : Nat) : Tuple :=
  .var ("t" ++ k.repr)

theorem numberedRow_inj {j k : Nat} (h : numberedRow j = numberedRow k) : j = k :=
  FreshNames.append_repr_inj (Tuple.var.inj h)

theorem numberedRow_ne_rootRow (k : Nat) : numberedRow k ≠ rootRow := by
  intro h
  have hlist := congrArg String.toList (Tuple.var.inj h)
  rw [String.toList_append] at hlist
  have hdigits : k.repr.toList = [] := (List.cons.inj hlist).2
  simp at hdigits

/-- What giving a row to a relation does: the first relation of the whole query gets the row of the
query, any other one a new row. -/
theorem newRow_cases {owner : String} {w w' : Walk} {row : Tuple}
    (h : Runs (newRow owner) w row w') :
    (w.scope.isRoot = true ∧ rootRow ∉ w.scope.rows ∧ row = rootRow ∧ w' = w.bindRow owner row) ∨
      ((w.scope.isRoot = true → rootRow ∈ w.scope.rows) ∧ row = numberedRow w.next ∧
        w' = { w with next := w.next + 1 }.bindRow owner row) := by
  unfold newRow at h
  rw [runs_get_bind] at h
  dsimp only at h
  split at h
  · next hroot =>
    cases h
    simp only [Bool.and_eq_true, Bool.not_eq_true', decide_eq_false_iff_not] at hroot
    exact .inl ⟨hroot.1, hroot.2, rfl, rfl⟩
  · next hroot =>
    cases h
    simp only [Bool.and_eq_true, Bool.not_eq_true', decide_eq_false_iff_not, not_and, not_not]
      at hroot
    exact .inr ⟨hroot, rfl, rfl⟩

/-- What looking for the joints of a projection does: those handed down are taken, else the
projection becomes a relation of the scope around it. -/
theorem jointsFor_cases {items : List Item} {aliasName : String} {w w' : Walk} {joints : List Tuple}
    (h : Runs (jointsFor items aliasName) w joints w') :
    (w.scope.joints = some joints ∧ (joints ≠ [] → joints.length = items.length) ∧ w' = w) ∨
      (w.scope.joints = none ∧ ∃ pivot, Runs (newRow aliasName) w pivot w' ∧
        joints = items.map fun i => pivot.project i.name) := by
  unfold jointsFor at h
  rw [runs_get_bind] at h
  dsimp only at h
  split at h
  · next js hj =>
    rw [pure_bind] at h
    split at h
    · exact absurd h not_runs_throw_bind
    · next harity =>
      obtain ⟨rfl, rfl⟩ := runs_pure.mp h
      refine .inl ⟨hj, fun hne => ?_, rfl⟩
      simpa [hne] using harity
  · next hj =>
    obtain ⟨pivot, w₁, hnew, h⟩ := runs_bind.mp h
    rw [pure_bind] at h
    split at h
    · exact absurd h not_runs_throw_bind
    · obtain ⟨rfl, rfl⟩ := runs_pure.mp h
      exact .inr ⟨hj, pivot, hnew, rfl⟩

/-! ## The walk as a relation -/

/-- A deduplicated term is squashed. -/
def dedup (distinct : Bool) (t : Term) : Term :=
  if distinct then .squash t else t

/-- `Walks p u w t w'`: the walk `w` through the plan `p`, which is below a union if `u` says so,
gives the term `t` and goes on as `w'`. -/
inductive Walks : Plan → Bool → Walk → Term → Walk → Prop
  | input {table aliasName : String} {columns : List String} {u : Bool} {w w' : Walk} {row : Tuple}
      (hrow : Runs (newRow aliasName) w row w') :
      Walks (.input table aliasName columns) u w (.table table row) w'
  | proj {p : Plan} {items : List Item} {distinct u : Bool} {aliasName : String}
      {w w₁ w₂ : Walk} {joints : List Tuple} {t : Term} {eqs : List Term}
      (hjoints : Runs (jointsFor items aliasName) w joints w₁) (hp : Walks p false w₁.enter t w₂)
      (heqs : itemTerms w₂.owners (joints.zip items) = .ok eqs) :
      Walks (.proj p items distinct aliasName) u w
        (dedup distinct (.sumOver w₂.scope.rows (.product (t :: eqs)))) (w₂.leaveTo w₁)
  | filter {p : Plan} {c : Condition} {u : Bool} {w w' : Walk} {t cond : Term}
      (hp : Walks p false w t w') (hcond : filterTerm w'.owners c = .ok cond) :
      Walks (.filter p c) u w (.mul cond t) w'
  | inSub {p q : Plan} {lhs : List Scalar} {u : Bool} {w w₁ w₂ : Walk} {outer inner : Term}
      {joints : List Tuple} (hne : lhs ≠ []) (hp : Walks p false w outer w₁)
      (hlhs : tuplesOf w₁.owners lhs = .ok joints)
      (hq : Walks q false (w₁.handing (some joints)) inner w₂) :
      Walks (.inSub p lhs q) u w (.mul outer (.squash inner)) (w₂.handing w₁.scope.joints)
  | exists {p q : Plan} {u : Bool} {w w₁ w₂ : Walk} {outer inner : Term}
      (hp : Walks p false w outer w₁) (hq : Walks q false (w₁.handing (some [])) inner w₂) :
      Walks (.exists p q) u w (.mul outer (.squash inner)) (w₂.handing w₁.scope.joints)
  | crossJoin {kind : JoinKind} {l r : Plan} {u : Bool} {w w₁ w₂ : Walk} {lhs rhs : Term}
      (hkind : ¬ (kind = .right ∨ kind = .full)) (hl : Walks l false w lhs w₁)
      (hr : Walks r false w₁ rhs w₂) :
      Walks (.join kind l r none) u w (.mul lhs rhs) w₂
  | innerJoin {kind : JoinKind} {l r : Plan} {c : Condition} {u : Bool} {w w₁ w₂ : Walk}
      {lhs rhs cond : Term} (hkind : ¬ (kind = .right ∨ kind = .full) ∧ kind ≠ .left)
      (hl : Walks l false w lhs w₁)
      (hr : Walks r false w₁ rhs w₂) (hcond : joinTerm w₂.owners c = .ok cond) :
      Walks (.join kind l r (some c)) u w (.mul (.mul cond lhs) rhs) w₂
  | leftJoin {l r : Plan} {c : Condition} {u : Bool} {w w₁ w₂ w₃ : Walk} {lhs rhs cond t : Term}
      (hl : Walks l false w lhs w₁) (hr : Walks r false w₁ rhs w₂)
      (hcond : joinTerm w₂.owners c = .ok cond)
      (hcopy : Runs (leftJoinTerm cond lhs rhs (w₂.scope.rows.drop w₁.scope.rows.length)) w₂ t w₃) :
      Walks (.join .left l r (some c)) u w t w₃
  | innerUnion {distinct : Bool} {l r : Plan} {w w₁ w₂ : Walk} {tl tr : Term}
      (hl : Walks l true w tl w₁) (hr : Walks r true w₁ tr w₂) :
      Walks (.setOp .union distinct l r) true w (dedup distinct (.add tl tr)) w₂
  | outerUnion {distinct : Bool} {l r : Plan} {w w₁ w₂ w₃ : Walk} {joint : Tuple} {tl tr : Term}
      (hjoint : Runs (newRow l.outputOwner) w joint w₁)
      (hl : Walks l true (w₁.handing (some (l.outputColumns.map joint.project))) tl w₂)
      (hr : Walks r true w₂ tr w₃) :
      Walks (.setOp .union distinct l r) false w (dedup distinct (.add tl tr))
        (w₃.handing w₁.scope.joints)
  | sort {p : Plan} {u : Bool} {w w' : Walk} {t : Term} (hp : Walks p u w t w') :
      Walks (.sort p) u w t w'
  | limit {p : Plan} {n : Nat} {u : Bool} {w w' : Walk} {t : Term} (hp : Walks p u w t w') :
      Walks (.limit p n) u w t w'

/-- Joints are handed down and taken back. -/
theorem runs_withJoints {α : Type} {m : Denote α} {joints : List Tuple} {w w' : Walk} {a : α} :
    Runs (withJoints joints m) w a w' ↔
      ∃ w₁, Runs m (w.handing (some joints)) a w₁ ∧ w' = w₁.handing w.scope.joints := by
  unfold withJoints
  rw [runs_get_bind]
  dsimp only
  rw [runs_modify_bind, runs_bind]
  simp only [runs_modify_bind, runs_pure]
  constructor
  · intro h
    obtain ⟨a', w₁, hm, rfl, rfl⟩ := h
    exact ⟨w₁, hm, rfl⟩
  · intro h
    obtain ⟨w₁, hm, rfl⟩ := h
    exact ⟨a, w₁, hm, rfl, rfl⟩

/-- A new scope is left with its rows. -/
theorem runs_inNewScope {α : Type} {m : Denote α} {w w' : Walk} {r : α × List Tuple} :
    Runs (inNewScope m) w r w' ↔
      ∃ w₁, Runs m w.enter r.1 w₁ ∧ r.2 = w₁.scope.rows ∧ w' = w₁.leaveTo w := by
  unfold inNewScope
  rw [runs_get_bind]
  dsimp only
  rw [runs_modify_bind, runs_bind]
  simp only [runs_get_bind, runs_modify_bind, runs_pure]
  constructor
  · intro h
    obtain ⟨a, w₁, hm, rfl, rfl⟩ := h
    exact ⟨w₁, hm, rfl, rfl⟩
  · intro h
    obtain ⟨w₁, hm, hrows, rfl⟩ := h
    exact ⟨r.1, w₁, hm, Prod.ext rfl hrows, rfl⟩

/-- **A run that succeeds is a walk.** Induction on the plan; each case takes the run apart. -/
theorem walks_of_runs {p : Plan} {u : Bool} {w w' : Walk} {t : Term}
    (h : Runs (ofPlan p u) w t w') : Walks p u w t w' := by
  induction p generalizing u w w' t with
  | input table aliasName columns =>
    rw [ofPlan, runs_bind] at h
    obtain ⟨row, w₁, hrow, h⟩ := h
    obtain ⟨rfl, rfl⟩ := runs_pure.mp h
    exact .input hrow
  | proj p items distinct aliasName ih =>
    rw [ofPlan, runs_bind] at h
    obtain ⟨joints, w₁, hjoints, h⟩ := h
    obtain ⟨r, w₂, hscope, h⟩ := runs_bind.mp h
    obtain ⟨rfl, rfl⟩ := runs_pure.mp h
    -- The inner plan is walked in a scope of its own.
    obtain ⟨w₃, hbody, hrows, rfl⟩ := runs_inNewScope.mp hscope
    obtain ⟨t, w₄, hp, hbody⟩ := runs_bind.mp hbody
    rw [runs_get_bind, runs_lift_bind] at hbody
    obtain ⟨eqs, heqs, hbody⟩ := hbody
    obtain ⟨hterm, rfl⟩ := runs_pure.mp hbody
    rw [hterm, hrows]
    exact .proj hjoints (ih hp) heqs
  | filter p c ih =>
    rw [ofPlan, runs_bind] at h
    obtain ⟨t, w₁, hp, h⟩ := h
    rw [runs_get_bind, runs_lift_bind] at h
    obtain ⟨cond, hcond, h⟩ := h
    obtain ⟨rfl, rfl⟩ := runs_pure.mp h
    exact .filter (ih hp) hcond
  | inSub p lhs q ihp ihq =>
    rw [ofPlan] at h
    dsimp only at h
    split at h
    · exact absurd h not_runs_throw_bind
    next hne =>
    obtain ⟨outer, w₁, hp, h⟩ := runs_bind.mp h
    rw [runs_get_bind, runs_lift_bind] at h
    obtain ⟨joints, hlhs, h⟩ := h
    obtain ⟨inner, w₂, hsub, h⟩ := runs_bind.mp h
    obtain ⟨rfl, rfl⟩ := runs_pure.mp h
    obtain ⟨w₃, hq, rfl⟩ := runs_withJoints.mp hsub
    exact .inSub (by simpa using hne) (ihp hp) hlhs (ihq hq)
  | «exists» p q ihp ihq =>
    rw [ofPlan, runs_bind] at h
    obtain ⟨outer, w₁, hp, h⟩ := h
    obtain ⟨inner, w₂, hsub, h⟩ := runs_bind.mp h
    obtain ⟨rfl, rfl⟩ := runs_pure.mp h
    obtain ⟨w₃, hq, rfl⟩ := runs_withJoints.mp hsub
    exact .exists (ihp hp) (ihq hq)
  | join kind l r condition ihl ihr =>
    rw [ofPlan] at h
    dsimp only at h
    split at h
    · exact absurd h not_runs_throw_bind
    next hcovered =>
    obtain ⟨lhs, w₁, hl, h⟩ := runs_bind.mp h
    rw [runs_get_bind, runs_bind] at h
    obtain ⟨rhs, w₂, hr, h⟩ := h
    rw [runs_get_bind] at h
    cases condition with
    | none =>
      obtain ⟨rfl, rfl⟩ := runs_pure.mp h
      exact .crossJoin hcovered (ihl hl) (ihr hr)
    | some c =>
      dsimp only at h
      rw [runs_get_bind, runs_lift_bind] at h
      obtain ⟨cond, hcond, hterm⟩ := h
      split at hterm
      · next hkind =>
        subst hkind
        exact .leftJoin (ihl hl) (ihr hr) hcond hterm
      · next hkind =>
        obtain ⟨rfl, rfl⟩ := runs_pure.mp hterm
        exact .innerJoin ⟨hcovered, hkind⟩ (ihl hl) (ihr hr) hcond
  | setOp kind distinct l r ihl ihr =>
    rw [ofPlan] at h
    dsimp only at h
    split at h
    · exact absurd h not_runs_throw_bind
    next hkind =>
    obtain rfl : kind = .union := Decidable.not_not.mp hkind
    cases u with
    | true =>
      obtain ⟨ts, w₁, hbranches, h⟩ := runs_bind.mp h
      obtain ⟨rfl, rfl⟩ := runs_pure.mp h
      obtain ⟨tl, w₂, hl, hbranches⟩ := runs_bind.mp hbranches
      obtain ⟨tr, w₃, hr, hbranches⟩ := runs_bind.mp hbranches
      obtain ⟨rfl, rfl⟩ := runs_pure.mp hbranches
      exact .innerUnion (ihl hl) (ihr hr)
    | false =>
      obtain ⟨joint, w₁, hjoint, h⟩ := runs_bind.mp h
      obtain ⟨ts, w₂, hbranches, h⟩ := runs_bind.mp h
      obtain ⟨rfl, rfl⟩ := runs_pure.mp h
      obtain ⟨w₃, hsum, rfl⟩ := runs_withJoints.mp hbranches
      obtain ⟨tl, w₄, hl, hsum⟩ := runs_bind.mp hsum
      obtain ⟨tr, w₅, hr, hsum⟩ := runs_bind.mp hsum
      obtain ⟨rfl, rfl⟩ := runs_pure.mp hsum
      exact .outerUnion hjoint (ihl hl) (ihr hr)
  | sort p ih => exact .sort (ih h)
  | limit p n ih => exact .limit (ih h)
  | agg p groupBy items aliasName ih => exact absurd h not_runs_throw

/-- **Every walk is a run.** -/
theorem runs_of_walks {p : Plan} {u : Bool} {w w' : Walk} {t : Term} (h : Walks p u w t w') :
    Runs (ofPlan p u) w t w' := by
  induction h with
  | input hrow =>
    rw [ofPlan, runs_bind]
    exact ⟨_, _, hrow, rfl⟩
  | proj hjoints hp heqs ih =>
    rw [ofPlan, runs_bind]
    refine ⟨_, _, hjoints, ?_⟩
    rw [runs_bind]
    refine ⟨(_, _), _, runs_inNewScope.mpr ⟨_, ?_, rfl, rfl⟩, rfl⟩
    rw [runs_bind]
    refine ⟨_, _, ih, ?_⟩
    rw [runs_get_bind, runs_lift_bind]
    exact ⟨_, heqs, rfl⟩
  | filter hp hcond ih =>
    rw [ofPlan, runs_bind]
    refine ⟨_, _, ih, ?_⟩
    rw [runs_get_bind, runs_lift_bind]
    exact ⟨_, hcond, rfl⟩
  | inSub hne hp hlhs hq ihp ihq =>
    rw [ofPlan]
    dsimp only
    rw [if_neg (by simpa using hne), runs_bind]
    refine ⟨_, _, ihp, ?_⟩
    rw [runs_get_bind, runs_lift_bind]
    refine ⟨_, hlhs, ?_⟩
    rw [runs_bind]
    exact ⟨_, _, runs_withJoints.mpr ⟨_, ihq, rfl⟩, rfl⟩
  | «exists» hp hq ihp ihq =>
    rw [ofPlan, runs_bind]
    refine ⟨_, _, ihp, ?_⟩
    rw [runs_bind]
    exact ⟨_, _, runs_withJoints.mpr ⟨_, ihq, rfl⟩, rfl⟩
  | crossJoin hkind hl hr ihl ihr =>
    rw [ofPlan]
    dsimp only
    rw [if_neg hkind, runs_bind]
    refine ⟨_, _, ihl, ?_⟩
    rw [runs_get_bind, runs_bind]
    exact ⟨_, _, ihr, rfl⟩
  | innerJoin hkind hl hr hcond ihl ihr =>
    rw [ofPlan]
    dsimp only
    rw [if_neg hkind.1, runs_bind]
    refine ⟨_, _, ihl, ?_⟩
    rw [runs_get_bind, runs_bind]
    refine ⟨_, _, ihr, ?_⟩
    rw [runs_get_bind, runs_get_bind, runs_lift_bind]
    refine ⟨_, hcond, ?_⟩
    rw [if_neg hkind.2]
    rfl
  | leftJoin hl hr hcond hcopy ihl ihr =>
    rw [ofPlan]
    dsimp only
    rw [if_neg (by decide), runs_bind]
    refine ⟨_, _, ihl, ?_⟩
    rw [runs_get_bind, runs_bind]
    refine ⟨_, _, ihr, ?_⟩
    rw [runs_get_bind, runs_get_bind, runs_lift_bind]
    refine ⟨_, hcond, ?_⟩
    rw [if_pos rfl]
    exact hcopy
  | innerUnion hl hr ihl ihr =>
    rw [ofPlan]
    dsimp only
    rw [if_neg (by decide), if_pos rfl, runs_bind]
    refine ⟨(_, _), _, ?_, rfl⟩
    rw [runs_bind]
    refine ⟨_, _, ihl, ?_⟩
    rw [runs_bind]
    exact ⟨_, _, ihr, rfl⟩
  | outerUnion hjoint hl hr ihl ihr =>
    rw [ofPlan]
    dsimp only
    rw [if_neg (by decide), if_neg (by decide), runs_bind]
    refine ⟨_, _, hjoint, ?_⟩
    rw [runs_bind]
    refine ⟨(_, _), _, runs_withJoints.mpr ⟨_, ?_, rfl⟩, rfl⟩
    rw [runs_bind]
    refine ⟨_, _, ihl, ?_⟩
    rw [runs_bind]
    exact ⟨_, _, ihr, rfl⟩
  | sort hp ih | limit hp ih => exact ih

end Denote

/-- Where the walk through a whole plan starts. -/
def Walk.start : Walk :=
  ⟨⟨true, [], none⟩, [], 0⟩

/-- A plan that has a term was walked through. -/
theorem Plan.walks_of_denote {p : Plan} {d : Denotation} (h : p.denote = .ok d) :
    ∃ w, Denote.Walks p false .start d.term w ∧ d.freeVars = d.term.freeVars := by
  unfold Plan.denote at h
  cases hrun : (Denote.ofPlan p false).run .start with
  | error e =>
    have hrun' : (Denote.ofPlan p false).run' ⟨⟨true, [], none⟩, [], 0⟩ = .error e := by
      show Prod.fst <$> (Denote.ofPlan p false).run .start = _
      rw [hrun]
      rfl
    rw [hrun'] at h
    cases h
  | ok r =>
    have hrun' : (Denote.ofPlan p false).run' ⟨⟨true, [], none⟩, [], 0⟩ = .ok r.1 := by
      show Prod.fst <$> (Denote.ofPlan p false).run .start = _
      rw [hrun]
      rfl
    rw [hrun'] at h
    cases h
    exact ⟨r.2, Denote.walks_of_runs hrun, rfl⟩

end QueryRules
