import QueryRules.Proofs.Readable

/-!
# QueryRules — what a step, a pass and all passes keep

A step of the reduction happens at the first place where a law fires, subterms before the terms that
hold them. So where a law fires, no subterm takes a step, and no law that is earlier in the list
fires there. `Term.reduce?_induction` says this once; what a step keeps is then a question about one
law at the root and one lemma for each way into a term. `Pass.run_keeps` and `Pass.runAll_keeps`
carry it over to passes.
-/

namespace QueryRules

/-- The law that is applied fires, and those before it in the list do not. -/
theorem Law.firstAt?_eq_some {s : FreshNames} {laws : List Law} {t : Term} {f : Firing}
    (h : Law.firstAt? s laws t = some f) :
    ∃ before law after, laws = before ++ law :: after ∧
      law.fire? s t = some (f.result, f.fresh) ∧ ∀ e ∈ before, e.fire? s t = none := by
  unfold Law.firstAt? at h
  obtain ⟨before, law, after, hlaws, hfire, hnone⟩ := List.findSome?_eq_some_iff.mp h
  obtain ⟨p, hp, rfl⟩ := Option.map_eq_some_iff.mp hfire
  refine ⟨before, law, after, hlaws, hp, fun e he => ?_⟩
  exact Option.map_eq_none_iff.mp (hnone e he)

/-- A step is a law that fires at the root of a subterm, carried outwards. -/
theorem Term.reduce?_induction {s : FreshNames} {laws : List Law}
    {motive : Term → Firing → Prop}
    (root : ∀ {t f}, t.Still s laws → Law.firstAt? s laws t = some f → motive t f)
    (addLeft : ∀ {l r f}, motive l f → motive (.add l r) (f.under 0 (.add · r)))
    (addRight : ∀ {l r f}, motive r f → motive (.add l r) (f.under 1 (.add l ·)))
    (mulLeft : ∀ {l r f}, motive l f → motive (.mul l r) (f.under 0 (.mul · r)))
    (mulRight : ∀ {l r f}, motive r f → motive (.mul l r) (f.under 1 (.mul l ·)))
    (not : ∀ {t f}, motive t f → motive (.not t) (f.under 0 .not))
    (squash : ∀ {t f}, motive t f → motive (.squash t) (f.under 0 .squash))
    (sum : ∀ {vars t f}, motive t f → motive (.sum vars t) (f.under 0 (.sum vars ·)))
    {t : Term} {f : Firing} (h : t.reduce? s laws = some f) : motive t f := by
  -- In each case the step is in a subterm, in the order of the search, or at the root.
  induction t generalizing f with
  | table n row | pred n args | eq l r => cases h
  | add l r ihl ihr =>
    rw [reduce?] at h
    cases hl : l.reduce? s laws with
    | some g =>
      rw [hl] at h
      cases h
      exact addLeft (ihl hl)
    | none =>
      cases hr : r.reduce? s laws with
      | some g =>
        rw [hl, hr] at h
        cases h
        exact addRight (ihr hr)
      | none =>
        rw [hl, hr] at h
        exact root ⟨hl, hr⟩ h
  | mul l r ihl ihr =>
    rw [reduce?] at h
    cases hl : l.reduce? s laws with
    | some g =>
      rw [hl] at h
      cases h
      exact mulLeft (ihl hl)
    | none =>
      cases hr : r.reduce? s laws with
      | some g =>
        rw [hl, hr] at h
        cases h
        exact mulRight (ihr hr)
      | none =>
        rw [hl, hr] at h
        exact root ⟨hl, hr⟩ h
  | not t ih =>
    rw [reduce?] at h
    cases ht : t.reduce? s laws with
    | some g =>
      rw [ht] at h
      cases h
      exact not (ih ht)
    | none =>
      rw [ht] at h
      exact root ht h
  | squash t ih =>
    rw [reduce?] at h
    cases ht : t.reduce? s laws with
    | some g =>
      rw [ht] at h
      cases h
      exact squash (ih ht)
    | none =>
      rw [ht] at h
      exact root ht h
  | sum vars t ih =>
    rw [reduce?] at h
    cases ht : t.reduce? s laws with
    | some g =>
      rw [ht] at h
      cases h
      exact sum (ih ht)
    | none =>
      rw [ht] at h
      exact root ht h

namespace Pass

variable {P : Term → FreshNames → Prop}

/-- What every step keeps, a pass keeps. -/
theorem run_keeps {laws : List Law}
    (hstep : ∀ {s t f}, Term.reduce? s laws t = some f → P t s → P f.result f.fresh)
    {number budget : Nat} {p q : Progress} (h : run number laws budget p = some q)
    (hp : P p.term p.fresh) : P q.term q.fresh :=
  (run_induction (P := fun p => P p.term p.fresh) hstep h hp).1

/-- The first of several passes, and the others after it. -/
theorem runAll_cons {limit number : Nat} {laws : List Law} {rest : List (List Law)}
    {p q : Progress} (h : runAll limit number (laws :: rest) p = .ok q) :
    ∃ mid, run number laws limit p = some mid ∧ runAll limit (number + 1) rest mid = .ok q := by
  rw [runAll] at h
  cases hrun : run number laws limit p with
  | none =>
    rw [hrun] at h
    cases h
  | some mid =>
    rw [hrun] at h
    exact ⟨mid, rfl, h⟩

/-- What every step of every pass keeps, all passes keep. -/
theorem runAll_keeps {passes : List (List Law)}
    (hstep : ∀ laws ∈ passes, ∀ {s t f}, Term.reduce? s laws t = some f → P t s →
      P f.result f.fresh)
    {limit number : Nat} {p q : Progress} (h : runAll limit number passes p = .ok q)
    (hp : P p.term p.fresh) : P q.term q.fresh := by
  induction passes generalizing number p with
  | nil =>
    cases h
    exact hp
  | cons laws rest ih =>
    obtain ⟨mid, hrun, hrest⟩ := runAll_cons h
    have hmid := run_keeps (hstep laws List.mem_cons_self) hrun hp
    exact ih (fun laws' hlaws' => hstep laws' (List.mem_cons_of_mem _ hlaws')) hrest hmid

end Pass

end QueryRules
