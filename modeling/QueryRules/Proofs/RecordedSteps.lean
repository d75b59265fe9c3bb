import QueryRules.Proofs.ReductionSteps

/-!
# QueryRules — recorded steps can be made again

A reduction records the law and the position of each of its steps. Making these steps again, on the
term it started from, leads through the same terms to the same result (`Term.replay_recorded`). The
names must come out the same as well, although the search for a step tries many laws at many places:
a law that does not fire takes no name from the supply (`Term.run_attempt`).
-/

namespace QueryRules

open List

/-! ## Attempts that hand the supply on -/

/-- A search in which every attempt hands its supply of names to the next, also if it fails. -/
abbrev Attempt :=
  OptionT (StateM FreshNames)

/-- Rename binders with names from the supply. -/
def Law.renamed (clashes : Tuple → Bool) (vars : List Tuple) (body : Term) :
    Attempt (List Tuple × Term) := do
  let (vars, body, fresh) := renameClashing clashes vars body (← get)
  set fresh
  return (vars, body)

/-- Try a law at the root of a term. -/
def Law.attempt : Law → Term → Attempt Term
  | .sumMul, .mul (.sum vars body) r => do
    let (vars, body) ← renamed (fun v => r.uses v) vars body
    return .sumOver vars (.mul body r)
  | .mulSum, .mul l (.sum vars body) => do
    let (vars, body) ← renamed (fun v => l.uses v) vars body
    return .sumOver vars (.mul l body)
  | .sumSum, .sum outer (.sum vars body) => do
    let (vars, body) ← renamed (fun v => decide (v ∈ outer)) vars body
    return .sumOver (outer ++ vars) body
  | law, t => OptionT.mk (return law.plain? t)

/-- Try laws at the root of a term, one after the other. -/
def Law.attemptAll (t : Term) : List Law → Attempt (Position × Law × Term)
  | [] => failure
  | law :: laws => (fun new => ([], law, new)) <$> law.attempt t <|> attemptAll t laws

/-- What was found in a subterm, seen from the term around it. -/
def Attempt.inside (i : Nat) (wrap : Term → Term) (m : Attempt (Position × Law × Term)) :
    Attempt (Position × Law × Term) :=
  (fun (p, law, new) => (i :: p, law, wrap new)) <$> m

/-- Try laws at all places of a term, subterms first. -/
def Term.attempt (laws : List Law) : Term → Attempt (Position × Law × Term)
  | .add l r => .inside 0 (.add · r) (attempt laws l) <|> .inside 1 (.add l ·) (attempt laws r)
      <|> Law.attemptAll (.add l r) laws
  | .mul l r => .inside 0 (.mul · r) (attempt laws l) <|> .inside 1 (.mul l ·) (attempt laws r)
      <|> Law.attemptAll (.mul l r) laws
  | .not t => .inside 0 .not (attempt laws t) <|> Law.attemptAll (.not t) laws
  | .squash t => .inside 0 .squash (attempt laws t) <|> Law.attemptAll (.squash t) laws
  | .sum vars t => .inside 0 (.sum vars ·) (attempt laws t) <|> Law.attemptAll (.sum vars t) laws
  | .table _ _ | .pred _ _ | .eq _ _ => failure

/-- How a search from a supply ends: with a firing and the supply after it, or with nothing and the
supply as it was. -/
def Firing.outcome (s : FreshNames) : Option Firing → Option (Position × Law × Term) × FreshNames
  | none => (none, s)
  | some f => (some (f.position, f.law, f.result), f.fresh)

section Attempts

variable {s : FreshNames} {m m' : Attempt (Position × Law × Term)} {f f' : Option Firing}

theorem Attempt.run_orElse (h : m.run.run s = Firing.outcome s f)
    (h' : m'.run.run s = Firing.outcome s f') :
    (m <|> m').run.run s = Firing.outcome s (f.or f') := by
  rw [OptionT.run_orElse]
  show (m.run >>= _).run s = _
  rw [StateT.run_bind, h]
  cases f with
  | none => exact h'
  | some f => rfl

theorem Attempt.run_inside (i : Nat) (wrap : Term → Term) (h : m.run.run s = Firing.outcome s f) :
    (inside i wrap m).run.run s = Firing.outcome s (f.map (Firing.under i wrap)) := by
  unfold inside
  rw [OptionT.run_map]
  show (_ <$> m.run).run s = _
  rw [StateT.run_map, h]
  cases f <;> rfl

/-- Names are taken by laws that fire only: where binders are renamed, nothing can fail any more. -/
theorem Law.run_attempt (law : Law) (t : Term) (s : FreshNames) :
    ((fun new => ([], law, new)) <$> law.attempt t : Attempt (Position × Law × Term)).run.run s =
      Firing.outcome s ((law.fire? s t).map fun (new, fresh) => ⟨[], law, new, fresh⟩) := by
  unfold Law.fire?
  split
  · rfl
  · rfl
  · rfl
  · rw [Law.attempt]
    · cases law.plain? t <;> rfl
    all_goals assumption

theorem Law.run_attemptAll (t : Term) (laws : List Law) (s : FreshNames) :
    (Law.attemptAll t laws).run.run s = Firing.outcome s (Law.firstAt? s laws t) := by
  induction laws with
  | nil => rfl
  | cons law laws ih =>
    rw [Law.attemptAll, Attempt.run_orElse (law.run_attempt t s) ih]
    unfold Law.firstAt?
    rw [findSome?_cons]
    cases law.fire? s t <;> rfl

/-- **Attempts that fail leave the supply alone**: handing it on from one to the next, the search
for a step finds what it finds with the same supply for all. -/
theorem Term.run_attempt (t : Term) (laws : List Law) (s : FreshNames) :
    (t.attempt laws).run.run s = Firing.outcome s (t.reduce? s laws) := by
  induction t with
  | table | pred | eq => rfl
  | add l r hl hr | mul l r hl hr =>
    rw [Term.attempt, Attempt.run_orElse (Attempt.run_inside _ _ hl)
      (Attempt.run_orElse (Attempt.run_inside _ _ hr) (Law.run_attemptAll _ laws s)), Term.reduce?]
    cases l.reduce? s laws with
    | some f => rfl
    | none => cases r.reduce? s laws <;> rfl
  | not t ht | squash t ht | sum vars t ht =>
    rw [Term.attempt, Attempt.run_orElse (Attempt.run_inside _ _ ht) (Law.run_attemptAll _ laws s),
      Term.reduce?]
    cases t.reduce? s laws <;> rfl

end Attempts

/-! ## The place of a step -/

/-- The law fires in `t` at the position, and the result is `t` with the new subterm there. -/
def Firing.At (s : FreshNames) (t : Term) (f : Firing) : Prop :=
  ∃ sub new, t.at? f.position = some sub ∧ f.law.fire? s sub = some (new, f.fresh) ∧
    f.result = t.replaceAt f.position new

/-- A firing in a subterm, seen from the term around it. -/
theorem Firing.At.under {s : FreshNames} {t c : Term} {f : Firing} (h : f.At s c) {i : Nat}
    {wrap : Term → Term} (hchild : t.child? i = some c)
    (hwrap : ∀ p new, t.replaceAt (i :: p) new = wrap (c.replaceAt p new)) :
    (f.under i wrap).At s t := by
  obtain ⟨sub, new, hsub, hfire, hresult⟩ := h
  refine ⟨sub, new, ?_, hfire, ?_⟩
  · show t.at? (i :: f.position) = some sub
    rw [Term.at?, hchild]
    exact hsub
  · show wrap f.result = t.replaceAt (i :: f.position) new
    rw [hwrap, hresult]

/-- A law that is found at the root fires there. -/
theorem Law.at_firstAt? {s : FreshNames} {laws : List Law} {t : Term} {f : Firing}
    (h : Law.firstAt? s laws t = some f) : f.At s t := by
  obtain ⟨law, -, hlaw⟩ := exists_of_findSome?_eq_some h
  obtain ⟨⟨new, s'⟩, hfire, rfl⟩ := Option.map_eq_some_iff.mp hlaw
  exact ⟨t, new, rfl, hfire, by simp only [Term.replaceAt]⟩

/-- A step is made where the search says. -/
theorem Term.at_reduce? {s : FreshNames} {laws : List Law} {t : Term} {f : Firing}
    (h : t.reduce? s laws = some f) : f.At s t :=
  reduce?_induction (motive := fun t f => f.At s t) (fun _ hfirst => Law.at_firstAt? hfirst)
    (fun hl => hl.under rfl fun _ _ => rfl) (fun hr => hr.under rfl fun _ _ => rfl)
    (fun hl => hl.under rfl fun _ _ => rfl) (fun hr => hr.under rfl fun _ _ => rfl)
    (fun ht => ht.under rfl fun _ _ => rfl) (fun ht => ht.under rfl fun _ _ => rfl)
    (fun ht => ht.under rfl fun _ _ => rfl) h

/-! ## The moments of a reduction -/

/-- The states that the reduction of a term goes through, each with the number of the pass that is
under way. A pass steps as long as one of its laws fires; then the next pass begins. -/
inductive Term.Moment (t : Term) : Nat → Progress → Prop where
  | start : t.Moment 0 ⟨t, Law.freshFor t, []⟩
  | step {number : Nat} {p : Progress} {laws : List Law} {f : Firing} (moment : t.Moment number p)
      (pass : Pass.all[number]? = some laws) (found : p.term.reduce? p.fresh laws = some f) :
      t.Moment number ⟨f.result, f.fresh, ⟨number, f.position, f.law⟩ :: p.steps⟩
  | next {number : Nat} {p : Progress} {laws : List Law} (moment : t.Moment number p)
      (pass : Pass.all[number]? = some laws) (still : p.term.reduce? p.fresh laws = none) :
      t.Moment (number + 1) p

namespace Pass

variable {t : Term}

/-- A pass goes from moment to moment, and the next pass begins where it ends. -/
theorem moment_run {number : Nat} {laws : List Law} (hlaws : all[number]? = some laws)
    {budget : Nat} {p q : Progress} (hp : t.Moment number p)
    (h : run number laws budget p = some q) : t.Moment (number + 1) q := by
  obtain ⟨hq, hstill⟩ := run_induction (fun hf hp => hp.step hlaws hf) h hp
  exact hq.next hlaws hstill

/-- So do the passes that are left. -/
theorem moment_runAll {limit number : Nat} {passes : List (List Law)}
    (hpasses : all.drop number = passes) {p q : Progress} (hp : t.Moment number p)
    (h : runAll limit number passes p = .ok q) : t.Moment (number + passes.length) q := by
  induction passes generalizing number p with
  | nil =>
    cases h
    exact hp
  | cons laws rest ih =>
    obtain ⟨mid, hrun, hrest⟩ := runAll_cons h
    have hlaws : all[number]? = some laws := by
      rw [← Nat.add_zero number, ← getElem?_drop, hpasses]
      rfl
    have hrest' : all.drop (number + 1) = rest := by
      rw [← drop_drop, hpasses]
      rfl
    rw [length_cons, ← Nat.add_assoc, Nat.add_right_comm]
    exact ih hrest' (moment_run hlaws hp hrun) hrest

end Pass

namespace Term

variable {t : Term} {number : Nat}

/-- The reduction ends after the last pass. -/
theorem moment_reduceRecorded {p : Progress} (h : t.reduceRecorded = .ok p) :
    t.Moment Pass.all.length p := by
  have hend : t.Moment (0 + Pass.all.length) p := Pass.moment_runAll rfl .start h
  rwa [Nat.zero_add] at hend

/-! ## Replay -/

/-- The first step of a replay, if its law fires. -/
theorem replayFrom_cons {s s' : FreshNames} {sub new : Term} {step : Step}
    (hsub : t.at? step.position = some sub) (hfire : step.law.fire? s sub = some (new, s'))
    (rest : List Step) :
    t.replayFrom s (step :: rest) = (t.replaceAt step.position new).replayFrom s' rest := by
  rw [replayFrom, hsub]
  simp only [hfire]

/-- The steps that were made up to a moment lead there, and leave the same supply of names. -/
theorem Moment.replay {p : Progress} (h : t.Moment number p) (rest : List Step) :
    t.replay (p.steps.reverse ++ rest) = p.term.replayFrom p.fresh rest := by
  induction h generalizing rest with
  | start => rfl
  | step moment pass found ih =>
    obtain ⟨sub, new, hsub, hfire, hresult⟩ := at_reduce? found
    rw [reverse_cons, append_assoc, ih, singleton_append,
      replayFrom_cons hsub hfire, hresult]
  | next moment pass still ih => exact ih rest

/-- Before each recorded step there was a moment in its pass at which its law fires at its position,
and with it comes the next moment. -/
theorem Moment.before {p : Progress} (h : t.Moment number p) {before after : List Step}
    {step : Step} (hsteps : p.steps.reverse = before ++ step :: after) :
    ∃ q, t.Moment step.pass q ∧ q.steps.reverse = before ∧
      ∃ sub new s, q.term.at? step.position = some sub ∧
        step.law.fire? q.fresh sub = some (new, s) ∧
        t.Moment step.pass ⟨q.term.replaceAt step.position new, s, step :: q.steps⟩ := by
  induction h generalizing after with
  | start => simp at hsteps
  | @step number p laws f moment pass found ih =>
    rw [reverse_cons] at hsteps
    -- The step is the last one, or it was there before.
    rcases eq_nil_or_concat after with rfl | ⟨init, last, rfl⟩
    · obtain ⟨rfl, hlast⟩ := append_inj' hsteps rfl
      cases hlast
      obtain ⟨sub, new, hsub, hfire, hresult⟩ := at_reduce? found
      refine ⟨p, moment, rfl, sub, new, f.fresh, hsub, hfire, ?_⟩
      rw [← hresult]
      exact moment.step pass found
    · rw [concat_eq_append, ← cons_append, ← append_assoc] at hsteps
      exact ih (append_inj' hsteps rfl).1
  | next moment pass still ih => exact ih hsteps

/-- **Recorded steps replay.** If the reduction of a term succeeds, then making its recorded steps
again gives the very same term, names included. Before each recorded step the reduction was at a
moment that the replay of the steps before it leads to as well, with the same term and the same
supply of names; the position of the step addresses a subterm of this term, the law fires there, and
what it makes of it is the next moment. -/
theorem replay_recorded {p : Progress} (h : t.reduceRecorded = .ok p) :
    t.replay p.steps.reverse = .ok p.term ∧
      ∀ before step after, p.steps.reverse = before ++ step :: after →
        ∃ q, t.Moment step.pass q ∧ q.steps.reverse = before ∧
          (∀ rest, t.replay (before ++ rest) = q.term.replayFrom q.fresh rest) ∧
          ∃ sub new s, q.term.at? step.position = some sub ∧
            step.law.fire? q.fresh sub = some (new, s) ∧
            t.Moment step.pass ⟨q.term.replaceAt step.position new, s, step :: q.steps⟩ := by
  have hp := moment_reduceRecorded h
  refine ⟨?_, fun before step after hsteps => ?_⟩
  · have hreplay := hp.replay []
    rwa [append_nil] at hreplay
  · obtain ⟨q, hq, rfl, hfires⟩ := hp.before hsteps
    exact ⟨q, hq, rfl, hq.replay, hfires⟩

/-- `Sum{x}(R(x) * not(S(x))) * (Sum{x}(R(x)) * not(S(x)))`: two binders and a free variable of one
name. -/
def shadowed : Term :=
  .mul (.sum [.var "x"] (.mul (.table "R" (.var "x")) (.not (.table "S" (.var "x")))))
    (.mul (.sum [.var "x"] (.table "R" (.var "x"))) (.not (.table "S" (.var "x"))))

/-- `Sum{u1, u0}(R(u1) * R(u0) * not(S(u1) + S(x)))`. -/
def unshadowed : Term :=
  .sum [.var "u1", .var "u0"]
    (.mul (.mul (.table "R" (.var "u1")) (.table "R" (.var "u0")))
      (.not (.add (.table "S" (.var "u1")) (.table "S" (.var "x")))))

/-- The steps from the one to the other. The first two take names from the supply. -/
def unshadowing : List Step :=
  [⟨0, [1], .sumMul⟩, ⟨0, [], .sumMul⟩, ⟨1, [0], .mulSum⟩, ⟨1, [], .sumSum⟩, ⟨2, [0], .mulAssoc⟩,
    ⟨3, [0, 0], .notCommunity⟩, ⟨3, [0], .mulNot⟩]

/-- The recorded steps are replayed with the names of the recording, and the last one finds the
product below the summation. -/
theorem replay_recorded_unshadowing :
    ∃ p, shadowed.reduceRecorded = .ok p ∧ p.steps.reverse = unshadowing ∧
      shadowed.replay unshadowing = .ok unshadowed ∧
      ∃ q, shadowed.Moment 3 q ∧ q.steps.reverse = unshadowing.take 6 ∧
        ∃ sub, q.term.at? [0] = some sub := by
  have hrecorded : shadowed.reduceRecorded.map (fun p => (p.term, p.steps.reverse)) =
      .ok (unshadowed, unshadowing) := by decide +kernel
  cases hp : shadowed.reduceRecorded with
  | error e =>
    rw [hp] at hrecorded
    cases hrecorded
  | ok p =>
    rw [hp] at hrecorded
    obtain ⟨hterm, hsteps⟩ := Prod.mk.inj (Except.ok.inj hrecorded)
    obtain ⟨hreplay, hmoments⟩ := replay_recorded hp
    obtain ⟨q, hq, hbefore, -, sub, -, -, hsub, -⟩ :=
      hmoments (unshadowing.take 6) ⟨3, [0], .mulNot⟩ [] hsteps
    rw [hterm, hsteps] at hreplay
    exact ⟨p, rfl, hsteps, hreplay, q, hq, hbefore, sub, hsub⟩

end Term

end QueryRules
