import QueryRules.Proofs.EncodedForms
import QueryRules.Proofs.ImpliedPredicates

/-!
# QueryRules — canonicalization keeps normal forms valid

The steps to a canonical form take atoms, binders and variables out of conjunctions at every level,
without a check. Each of them keeps at least one factor: a step that may leave none ends with
`Conj.withPreds`, which puts the unit in exactly then.
-/

namespace QueryRules

open List

/-! ## What a computation returns -/

/-- Which values a computation may return. -/
structure Outcome (m : Type → Type) [Monad m] where
  /-- The value is a possible result of the computation. -/
  gives : {α : Type} → m α → α → Prop
  of_pure : ∀ {α : Type} {a b : α}, gives (pure a) b → b = a
  of_bind : ∀ {α β : Type} {x : m α} {f : α → m β} {b : β}, gives (x >>= f) b →
    ∃ a, gives x a ∧ gives (f a) b

namespace Outcome

/-- A computation that cannot fail returns its value. -/
def ofId : Outcome Id where
  gives x a := x.run = a
  of_pure h := h.symm
  of_bind h := ⟨_, rfl, h⟩

/-- A computation that may fail returns its value if it succeeds. -/
def ofExcept (ε : Type) : Outcome (Except ε) where
  gives x a := x = .ok a
  of_pure h := (Except.ok.inj h).symm
  of_bind {α β x f b} h := by
    cases x with
    | error e => cases h
    | ok a => exact ⟨a, rfl, h⟩

/-- A computation on a state may return its value from any state. -/
def ofState (σ : Type) : Outcome (StateM σ) where
  gives x a := ∃ s, (x.run s).1 = a
  of_pure h := by
    obtain ⟨s, h⟩ := h
    exact h.symm
  of_bind {α β x f b} h := by
    obtain ⟨s, h⟩ := h
    exact ⟨_, ⟨s, rfl⟩, _, h⟩

variable {m : Type → Type} [Monad m] [LawfulMonad m] (R : Outcome m)

/-- A disjunction that was worked through one conjunction after the other. -/
theorem valid_mapM {f : Conj → m Conj} {d d' : Disj} (hd : d.valid = true)
    (hf : ∀ c ∈ d, ∀ c', R.gives (f c) c' → c'.valid = true) (h : R.gives (d.mapM f) d') :
    d'.valid = true := by
  have hmem : ∀ {d d' : Disj}, (∀ c ∈ d, ∀ c', R.gives (f c) c' → c'.valid = true) →
      R.gives (d.mapM f) d' → d'.length = d.length ∧ ∀ c' ∈ d', c'.valid = true := by
    intro d
    induction d with
    | nil =>
      intro d' _ h
      rw [mapM_nil] at h
      rw [R.of_pure h]
      exact ⟨rfl, fun c' hc' => absurd hc' not_mem_nil⟩
    | cons c cs ih =>
      intro d' hf h
      rw [mapM_cons] at h
      obtain ⟨c', hc', h⟩ := R.of_bind h
      obtain ⟨cs', hcs', h⟩ := R.of_bind h
      obtain ⟨hlen, hall⟩ := ih (fun e he => hf e (mem_cons_of_mem _ he)) hcs'
      rw [R.of_pure h, length_cons, length_cons, hlen]
      refine ⟨rfl, fun e he => ?_⟩
      rcases mem_cons.mp he with rfl | he
      · exact hf c mem_cons_self e hc'
      · exact hall e he
  obtain ⟨hlen, hall⟩ := hmem hf h
  refine Disj.valid_iff.mpr ⟨fun hnil => (Disj.valid_iff.mp hd).1 ?_, hall⟩
  rw [hnil] at hlen
  exact length_eq_zero_iff.mp hlen.symm

end Outcome

theorem Disj.valid_map {d : Disj} {f : Conj → Conj} (hd : d.valid = true)
    (hf : ∀ c ∈ d, c.valid = true → (f c).valid = true) : Disj.valid (d.map f) = true := by
  obtain ⟨hne, hall⟩ := Disj.valid_iff.mp hd
  refine Disj.valid_iff.mpr ⟨fun hnil => hne (map_eq_nil_iff.mp hnil), fun c hc => ?_⟩
  obtain ⟨c', hc', rfl⟩ := mem_map.mp hc
  exact hf c' hc' (hall c' hc')

namespace Conj

variable {c c' : Conj}

/-- A conjunction with the atoms of one that has a factor, and with nested disjunctions where that
one has them. -/
theorem isEmpty_of_parts (h : c.isEmpty = false) (htables : c'.tables = c.tables)
    (hpreds : c'.preds = c.preds) (hsquash : c'.squash = none → c.squash = none)
    (hnegation : c'.negation = none → c.negation = none) : c'.isEmpty = false := by
  refine Bool.eq_false_iff.mpr fun hempty => Bool.eq_false_iff.mp h ?_
  obtain ⟨ht, hp, hs, hn⟩ := isEmpty_iff.mp hempty
  exact isEmpty_iff.mpr ⟨htables ▸ ht, hpreds ▸ hp, hsquash hs, hnegation hn⟩

/-- **Working through the levels keeps validity**, if the step does. Induction on the number of
levels; the nested disjunctions of what the step returns are valid, so they stay so below. -/
theorem valid_descend {m : Type → Type} [Monad m] [LawfulMonad m] (R : Outcome m)
    {step : Conj → m Conj}
    (hstep : ∀ {c c' : Conj}, c.valid = true → R.gives (step c) c' → c'.valid = true)
    (levels : Nat) :
    ∀ {c c' : Conj}, c.valid = true → R.gives (c.descend step levels) c' → c'.valid = true := by
  induction levels with
  | zero => exact fun hc h => hstep hc h
  | succ levels ih =>
    intro c c' hc h
    -- What was nested stays nested, so the conjunction does not get empty.
    have hoption : ∀ {o o' : Option Disj}, (∀ d, o = some d → d.valid = true) →
        R.gives (o.mapM (List.mapM (Conj.descend step levels))) o' →
        (o' = none → o = none) ∧ ∀ d, o' = some d → d.valid = true := by
      intro o o' ho h
      cases o with
      | none =>
        rw [R.of_pure h]
        exact ⟨fun _ => rfl, fun d hd => by cases hd⟩
      | some d =>
        obtain ⟨d', hd', h⟩ := R.of_bind (x := d.mapM (Conj.descend step levels))
          (f := fun d' => pure (some d')) (by simpa using h)
        rw [R.of_pure h]
        refine ⟨fun hnone => absurd hnone (Option.some_ne_none d'), fun e he => ?_⟩
        obtain rfl := Option.some.inj he
        refine R.valid_mapM (ho d rfl) (fun e he e' => ih ?_) hd'
        exact (Disj.valid_iff.mp (ho d rfl)).2 e he
    rw [Conj.descend] at h
    obtain ⟨c₁, hc₁, h⟩ := R.of_bind h
    obtain ⟨squash, hsquash, h⟩ := R.of_bind h
    obtain ⟨negation, hnegation, h⟩ := R.of_bind h
    obtain ⟨hfactor, hnested⟩ := valid_iff.mp (hstep hc hc₁)
    obtain ⟨hsquashNone, hsquashValid⟩ := hoption (fun d hd => hnested d (.inl hd)) hsquash
    obtain ⟨hnegationNone, hnegationValid⟩ := hoption (fun d hd => hnested d (.inr hd)) hnegation
    rw [R.of_pure h]
    refine valid_iff.mpr ⟨?_, fun d hd => hd.elim (hsquashValid d) (hnegationValid d)⟩
    exact isEmpty_of_parts hfactor rfl rfl hsquashNone hnegationNone

/-! ## Replacing variables -/

theorem isEmpty_subst (source image : Tuple) (c : Conj) :
    (c.subst source image).isEmpty = c.isEmpty := by
  obtain ⟨vars, tables, preds, squash, negation⟩ := c
  rw [subst_eq]
  simp [isEmpty, onlyPreds]

theorem valid_subst (source image : Tuple) (h : c.valid = true) :
    (c.subst source image).valid = true := by
  induction c using Conj.nested_induction with
  | _ c ih =>
    obtain ⟨hfactor, hnested⟩ := valid_iff.mp h
    refine valid_iff.mpr ⟨(isEmpty_subst source image c).trans hfactor, fun d hd => ?_⟩
    obtain ⟨d', hd', rfl⟩ := nests_subst hd
    rw [Disj.subst_eq_map]
    refine Disj.valid_map (hnested d' hd') fun e he hvalid => ?_
    split
    · exact hvalid
    · exact ih d' hd' e he hvalid

/-- The nested disjunctions are valid; the conjunction itself may be without a factor. This is what
holds in the middle of a step. -/
def NestsValid (c : Conj) : Prop :=
  ∀ d, c.Nests d → d.valid = true

theorem NestsValid.subst (h : c.NestsValid) (source image : Tuple) :
    (c.subst source image).NestsValid := by
  -- A conjunction with one factor more is valid and has the same nested disjunctions.
  have hvalid : (Conj.mk c.vars c.tables [.unit] c.squash c.negation).valid = true :=
    valid_iff.mpr ⟨rfl, h⟩
  have hsubst := (valid_iff.mp (valid_subst source image hvalid)).2
  rw [subst_eq] at hsubst ⊢
  exact hsubst

theorem NestsValid.eliminate (h : c.NestsValid) (v image : Tuple) :
    (c.eliminate v image).NestsValid :=
  NestsValid.subst (c := { c with vars := c.vars.filter (· ≠ v) }) h v image

/-! ## Dropping predicates -/

/-- A conjunction whose predicates are replaced has a factor. -/
theorem isEmpty_withPreds (c : Conj) (ps : List PredAtom) : (c.withPreds ps).isEmpty = false := by
  unfold withPreds
  split
  · rfl
  · next h => exact Bool.eq_false_iff.mpr h

theorem withPreds_parts (c : Conj) (ps : List PredAtom) : (c.withPreds ps).tables = c.tables ∧
    (c.withPreds ps).squash = c.squash ∧ (c.withPreds ps).negation = c.negation := by
  unfold withPreds
  split <;> exact ⟨rfl, rfl, rfl⟩

/-- A conjunction without its implied predicates has a factor. -/
theorem isEmpty_dropImplied (facts : Facts) (outer : TableScope) (h : c.isEmpty = false) :
    (c.dropImplied facts outer).isEmpty = false := by
  obtain ⟨vars, tables, preds, squash, negation⟩ := c
  rw [dropImplied, Disj.dropImpliedOption_eq_map, Disj.dropImpliedOption_eq_map]
  split
  · exact isEmpty_of_parts h rfl rfl Option.map_eq_none_iff.mp Option.map_eq_none_iff.mp
  · obtain ⟨htables, hsquash, hnegation⟩ := withPreds_parts ⟨vars, tables, preds, squash, negation⟩
      (preds.filter fun p => !(outer.enter vars tables).implies facts p)
    refine isEmpty_of_parts (isEmpty_withPreds _ _) htables.symm rfl (fun hnone => ?_)
      fun hnone => ?_
    · exact hsquash.trans (Option.map_eq_none_iff.mp hnone)
    · exact hnegation.trans (Option.map_eq_none_iff.mp hnone)

theorem NestsValid.dropTrivial (h : c.NestsValid) : c.dropTrivial.valid = true := by
  obtain ⟨-, hsquash, hnegation⟩ := withPreds_parts c (keepProper [] c.preds)
  refine valid_iff.mpr ⟨isEmpty_withPreds c _, fun d hd => h d ?_⟩
  exact hd.imp hsquash.symm.trans hnegation.symm.trans

/-- Forced binders are eliminated without harm to validity. -/
theorem valid_settle (find? : Conj → Option (Tuple × Tuple)) (h : c.valid = true) :
    (c.settle find?).valid = true := by
  have hall : ∀ (rounds : Nat) {c : Conj}, c.NestsValid →
      (eliminateAll find? rounds c).NestsValid := by
    intro rounds
    induction rounds with
    | zero => exact fun hc => hc
    | succ rounds ih =>
      intro c hc
      rw [eliminateAll]
      split
      · exact hc
      · exact ih (hc.eliminate _ _)
  exact (hall _ (valid_iff.mp h).2).dropTrivial

theorem valid_dropImplied (facts : Facts) (outer : TableScope) (h : c.valid = true) :
    (c.dropImplied facts outer).valid = true := by
  induction c using Conj.nested_induction generalizing outer with
  | _ c ih =>
    obtain ⟨hfactor, hnested⟩ := valid_iff.mp h
    obtain ⟨-, -, hsquash, hnegation⟩ := dropImplied_parts facts outer c
    refine valid_iff.mpr ⟨isEmpty_dropImplied facts outer hfactor, fun d hd => ?_⟩
    have hmap : ∃ d', c.Nests d' ∧
        d = d'.map (dropImplied facts (outer.enter c.vars c.tables)) := by
      unfold Nests at hd
      rw [hsquash, hnegation, Option.map_eq_some_iff, Option.map_eq_some_iff] at hd
      rcases hd with ⟨d', hd', rfl⟩ | ⟨d', hd', rfl⟩
      · exact ⟨d', .inl hd', rfl⟩
      · exact ⟨d', .inr hd', rfl⟩
    obtain ⟨d', hd', rfl⟩ := hmap
    exact Disj.valid_map (hnested d' hd') fun e he hvalid => ih d' hd' e he _ hvalid

/-! ## Merging and squashing -/

/-- All rounds of keyed merges keep validity. -/
theorem valid_mergeKeyedIn (facts : Facts) (rounds : Nat) :
    ∀ {c c' : Conj}, c.valid = true → mergeKeyedIn facts rounds c = .ok c' → c'.valid = true := by
  induction rounds with
  | zero => exact fun _ h => by cases h
  | succ rounds ih =>
    intro c c' hc h
    rw [mergeKeyedIn] at h
    split at h
    · cases h
      exact hc
    · next r _ =>
      -- Without the atom the conjunction may be empty; dropping trivial predicates puts a unit in.
      have herased : NestsValid { c with tables := c.tables.eraseIdx r.index } :=
        (valid_iff.mp hc).2
      exact ih (herased.eliminate r.gone r.keep).dropTrivial h

theorem valid_renameBinders (olds : List Tuple) (h : c.valid = true)
    (hc' : (Outcome.ofState FreshNames).gives (c.renameBinders olds) c') : c'.valid = true := by
  induction olds generalizing c with
  | nil =>
    rw [Outcome.of_pure _ hc']
    exact h
  | cons old olds ih =>
    rw [renameBinders] at hc'
    obtain ⟨name, -, hc'⟩ := Outcome.of_bind _ hc'
    exact ih (valid_subst old (.var name) h) hc'

end Conj

namespace Disj

variable {d e : Disj}

/-- Working through all levels of a disjunction keeps validity, if the step does. -/
theorem valid_descend {m : Type → Type} [Monad m] [LawfulMonad m] (R : Outcome m)
    {step : Conj → m Conj}
    (hstep : ∀ {c c' : Conj}, c.valid = true → R.gives (step c) c' → c'.valid = true)
    (hd : d.valid = true) (h : R.gives (Disj.descend step d) e) : e.valid = true :=
  R.valid_mapM hd (fun c hc _ => Conj.valid_descend R hstep c.depth ((valid_iff.mp hd).2 c hc)) h

theorem valid_settled (find? : Conj → Option (Tuple × Tuple)) (hd : d.valid = true) :
    (Id.run (Disj.descend (fun c => pure (c.settle find?)) d)).valid = true := by
  refine valid_descend .ofId (fun {c c'} hc h => ?_) hd rfl
  rw [← show c.settle find? = c' from h]
  exact Conj.valid_settle find? hc

theorem valid_renameBound (hd : d.valid = true) : d.renameBound.valid = true := by
  have hwith : ∀ (names : FreshNames) {d : Disj}, d.valid = true →
      (Disj.renameWith names d).valid = true := by
    intro names d hd
    refine valid_descend (.ofState FreshNames) (fun {c c'} hc h => ?_) hd ⟨names, rfl⟩
    exact Conj.valid_renameBinders c.vars hc h
  exact hwith _ (hwith _ hd)

theorem valid_dropNotNull (facts : Facts) (hd : d.valid = true) :
    (d.dropNotNull facts).valid = true := by
  unfold dropNotNull
  split
  · exact hd
  · rw [dropImpliedIn_eq_map]
    exact valid_map hd fun c _ hvalid => Conj.valid_dropImplied facts [] hvalid

/-- What a term normalizes to is valid. -/
theorem valid_normalize {t : Term} (h : t.normalize = .ok d) : d.valid = true := by
  unfold Term.normalize at h
  cases hreduce : t.reduce with
  | error l =>
    rw [hreduce] at h
    cases h
  | ok t' =>
    rw [hreduce] at h
    change (Disj.ofTerm t').map Disj.renameBound = .ok d at h
    cases hread : Disj.ofTerm t' with
    | error err =>
      rw [hread] at h
      cases h
    | ok d' =>
      rw [hread] at h
      cases h
      exact valid_renameBound (valid_ofTerm hread)

theorem valid_squashKeyed {facts : Facts} {consts : Constants} {c c' : Conj} (hc : c.valid = true)
    (h : c.squashKeyed facts consts = .ok c') : c'.valid = true := by
  unfold Conj.squashKeyed at h
  split at h
  · obtain ⟨d, hd, h⟩ := (Outcome.ofExcept CanonicalError).of_bind h
    cases hnormal : (Term.squash c.toTerm).normalize with
    | error err =>
      rw [hnormal] at hd
      cases hd
    | ok d' =>
      rw [hnormal] at hd
      cases hd
      split at h
      · cases h
        exact (valid_iff.mp (valid_normalize hnormal)).2 _ mem_cons_self
      · cases h
  · cases h
    exact hc

theorem valid_useUniqueKeys {facts : Facts} {consts : Constants} (hd : d.valid = true)
    (h : d.useUniqueKeys facts consts = .ok e) : e.valid = true := by
  unfold useUniqueKeys at h
  split at h
  · cases h
    exact hd
  · refine (Outcome.ofExcept CanonicalError).valid_mapM hd (fun c hc c' h => ?_) h
    obtain ⟨c₁, hmerged, hsquashed⟩ := Outcome.of_bind _ h
    have hc₁ := Conj.valid_descend (.ofExcept CanonicalError)
      (fun hc h => Conj.valid_mergeKeyedIn facts _ hc h) c.depth ((valid_iff.mp hd).2 c hc) hmerged
    exact valid_squashKeyed hc₁ hsquashed

/-- **Canonicalization keeps normal forms valid.** From a valid normal form, for all facts and
constants, every step gives a valid one where it gives one, and so does the sequence of all steps;
encoding and checked decoding give the result back. -/
theorem canonical_steps_valid (hd : d.valid = true) (facts : Facts) (consts : Constants)
    (he : e = d.eliminateConstants consts ∨ e = d.eliminateUnranged ∨ e = d.dropNotNull facts ∨
      e = d.renameBound ∨ d.useUniqueKeys facts consts = .ok e ∨
      d.canonicalize facts consts = .ok e) :
    e.valid = true ∧ Disj.ofJson e.toJson = .ok e := by
  suffices hvalid : e.valid = true from ⟨hvalid, ofJson_toJson hvalid⟩
  rcases he with rfl | rfl | rfl | rfl | he | he
  · exact valid_settled _ hd
  · exact valid_settled _ hd
  · exact valid_dropNotNull facts hd
  · exact valid_renameBound hd
  · exact valid_useUniqueKeys hd he
  · obtain ⟨d', hkeys, hrename⟩ := (Outcome.ofExcept CanonicalError).of_bind he
    cases hrename
    have hsettled : (d.eliminateConstants consts).eliminateUnranged.valid = true :=
      valid_settled _ (valid_settled _ hd)
    exact valid_renameBound (valid_useUniqueKeys (valid_dropNotNull facts hsettled) hkeys)

/-- `Sum{x, y}(R(x) * R(y) * [x.k = y.k] * [NotNull(x.a)] * ||Sum{z}([z = 1])||
* not([NotNull(x.a)]))`. -/
def thinning : Disj :=
  [⟨[.var "x", .var "y"], [⟨"R", .var "x"⟩, ⟨"R", .var "y"⟩],
    [.eq (.attr (.var "x") "k") (.attr (.var "y") "k"),
      .pred Term.notNullName [.attr (.var "x") "a"]],
    some [⟨[.var "z"], [], [.eq (.var "z") (.const "1")], none, none⟩],
    some [⟨[], [], [.pred Term.notNullName [.attr (.var "x") "a"]], none, none⟩]⟩]

/-- `Sum{x0}(R(x0) * ||[1 = 1]|| * not([1 = 1]))`. -/
def thinned : Disj :=
  [⟨[.var "x0"], [⟨"R", .var "x0"⟩], [], some [⟨[], [], [.unit], none, none⟩],
    some [⟨[], [], [.unit], none, none⟩]⟩]

/-- Both nested conjunctions lose their only factor, one by elimination and one because the atom
around it implies it; the unit stands in its place. -/
theorem canonical_steps_valid_thinning :
    thinning.valid = true ∧
      thinning.canonicalize ⟨[⟨"R", ["k"]⟩], [], [⟨"R", "a"⟩]⟩ (.ofList []) = .ok thinned ∧
      thinned.valid = true ∧ Disj.ofJson thinned.toJson = .ok thinned := by
  have hvalid : thinning.valid = true := by decide
  have hcanonical : thinning.canonicalize ⟨[⟨"R", ["k"]⟩], [], [⟨"R", "a"⟩]⟩ (.ofList [])
      = .ok thinned := by
    decide +kernel
  refine ⟨hvalid, hcanonical, ?_⟩
  exact canonical_steps_valid hvalid _ _ (.inr (.inr (.inr (.inr (.inr hcanonical)))))

end Disj

end QueryRules
