import QueryRules.Proofs.TidyTerms

/-!
# QueryRules — what the passes leave below negations and squashes

The first pass takes apart everything that is negated, so afterwards only atoms and summations are.
The later passes merge negations, but they negate nothing else than sums of such literals, though
they lack the laws that would take other terms apart.
-/

namespace QueryRules

open List

/-! ## Proper terms -/

namespace Term

/-- Every summation has binders. -/
def hasBinders : Term → Bool
  | .table _ _ | .pred _ _ | .eq _ _ => true
  | .add l r | .mul l r => l.hasBinders && r.hasBinders
  | .not t | .squash t => t.hasBinders
  | .sum vars body => !vars.isEmpty && body.hasBinders

/-- A sum of atoms and summations. -/
def IsLiteralSum : Term → Prop
  | .table _ _ | .pred _ _ | .eq _ _ | .sum _ _ => True
  | .add l r => l.IsLiteralSum ∧ r.IsLiteralSum
  | .mul _ _ | .not _ | .squash _ => False

/-- Every summation has binders and, where `literal` is set, only sums of atoms and summations are
negated. -/
def Proper (literal : Bool) : Term → Prop
  | .table _ _ | .pred _ _ | .eq _ _ => True
  | .add l r | .mul l r => l.Proper literal ∧ r.Proper literal
  | .not t => t.Proper literal ∧ (literal = true → t.IsLiteralSum)
  | .squash t => t.Proper literal
  | .sum vars body => vars ≠ [] ∧ body.Proper literal

/-- What a step does to a proper term. -/
def StaysProper (literal : Bool) (t t' : Term) : Prop :=
  t.Proper literal → t'.Proper literal ∧ (t.IsLiteralSum → t'.IsLiteralSum)

variable {b : Bool}

theorem proper_of_hasBinders {t : Term} (h : t.hasBinders = true) : t.Proper false := by
  induction t with
  | table n row | pred n args | eq l r => trivial
  | add l r ihl ihr | mul l r ihl ihr =>
    obtain ⟨hl, hr⟩ := Bool.and_eq_true_iff.mp h
    exact ⟨ihl hl, ihr hr⟩
  | not t ih => exact ⟨ih h, fun hlit => absurd hlit Bool.false_ne_true⟩
  | squash t ih => exact ih h
  | sum vars body ih =>
    obtain ⟨hvars, hbody⟩ := Bool.and_eq_true_iff.mp h
    refine ⟨fun hnil => ?_, ih hbody⟩
    rw [hnil] at hvars
    cases hvars

/-! ## Renaming -/

variable {vars : List Tuple} {v w : Tuple}

theorem substAll_eq_nil :
    Tuple.substAll vars v w = [] ↔ vars = [] := by
  cases vars <;> simp [Tuple.substAll]

theorem isLiteralSum_subst {t : Term} (h : t.IsLiteralSum) :
    (t.subst v w).IsLiteralSum := by
  induction t with
  | table n row | pred n args | eq l r => trivial
  | add l r ihl ihr => exact ⟨ihl h.1, ihr h.2⟩
  | sum vars body _ => trivial
  | mul l r _ _ | not t _ | squash t _ => exact h.elim

theorem Proper.subst {t : Term} (h : t.Proper b) : (t.subst v w).Proper b := by
  induction t with
  | table n row | pred n args | eq l r => trivial
  | add l r ihl ihr | mul l r ihl ihr => exact ⟨ihl h.1, ihr h.2⟩
  | not t ih => exact ⟨ih h.1, fun hlit => isLiteralSum_subst (h.2 hlit)⟩
  | squash t ih => exact ih h
  | sum vars body ih => exact ⟨fun hnil => h.1 (substAll_eq_nil.mp hnil), ih h.2⟩

/-- Renaming binders keeps their number and a proper body. -/
theorem Proper.renameClashing {body : Term} (h : (Term.sum vars body).Proper b)
    (clashes : Tuple → Bool) (s : FreshNames) :
    (Term.sum (Law.renameClashing clashes vars body s).1
      (Law.renameClashing clashes vars body s).2.1).Proper b := by
  have hlength : ∀ (vars : List Tuple) (body : Term) (s : FreshNames),
      (Law.renameClashing clashes vars body s).1.length = vars.length ∧
        (body.Proper b → (Law.renameClashing clashes vars body s).2.1.Proper b) := by
    intro vars
    induction vars with
    | nil => exact fun body s => ⟨rfl, id⟩
    | cons v vs ih =>
      intro body s
      rw [Law.renameClashing]
      split
      · obtain ⟨hlen, hbody⟩ := ih (body.subst v (.var s.pick.1)) s.pick.2
        exact ⟨congrArg (· + 1) hlen, fun h => hbody h.subst⟩
      · obtain ⟨hlen, hbody⟩ := ih body s
        exact ⟨congrArg (· + 1) hlen, hbody⟩
  obtain ⟨hlen, hbody⟩ := hlength vars body s
  refine ⟨fun hnil => h.1 ?_, hbody h.2⟩
  rw [hnil] at hlen
  exact length_eq_zero_iff.mp hlen.symm

/-- A summation over binders is a summation. -/
theorem sumOver_of_ne_nil (h : vars ≠ []) (body : Term) :
    sumOver vars body = .sum vars body := by
  rw [sumOver, if_neg]
  simpa using h

/-! ## Steps inside of a term -/

section Congruence

variable {l l' r r' t t' : Term}

theorem StaysProper.addLeft (h : StaysProper b l l') : StaysProper b (.add l r) (.add l' r) := by
  rintro ⟨hl, hr⟩
  obtain ⟨hl', hlit⟩ := h hl
  exact ⟨⟨hl', hr⟩, fun h => ⟨hlit h.1, h.2⟩⟩

theorem StaysProper.addRight (h : StaysProper b r r') : StaysProper b (.add l r) (.add l r') := by
  rintro ⟨hl, hr⟩
  obtain ⟨hr', hlit⟩ := h hr
  exact ⟨⟨hl, hr'⟩, fun h => ⟨h.1, hlit h.2⟩⟩

theorem StaysProper.mulLeft (h : StaysProper b l l') : StaysProper b (.mul l r) (.mul l' r) := by
  rintro ⟨hl, hr⟩
  exact ⟨⟨(h hl).1, hr⟩, id⟩

theorem StaysProper.mulRight (h : StaysProper b r r') : StaysProper b (.mul l r) (.mul l r') := by
  rintro ⟨hl, hr⟩
  exact ⟨⟨hl, (h hr).1⟩, id⟩

theorem StaysProper.not (h : StaysProper b t t') : StaysProper b (.not t) (.not t') := by
  rintro ⟨ht, hneg⟩
  obtain ⟨ht', hlit⟩ := h ht
  exact ⟨⟨ht', fun hb => hlit (hneg hb)⟩, id⟩

theorem StaysProper.squash (h : StaysProper b t t') : StaysProper b (.squash t) (.squash t') :=
  fun ht => ⟨(h ht).1, id⟩

theorem StaysProper.sum (h : StaysProper b t t') :
    StaysProper b (.sum vars t) (.sum vars t') := by
  rintro ⟨hvars, ht⟩
  exact ⟨⟨hvars, (h ht).1⟩, id⟩

end Congruence

end Term

/-! ## Laws -/

namespace Law

variable {b : Bool} {law : Law} {t t' : Term}

/-- A law that needs no fresh name hands on a proper term. Products, negations and squashes are no
sums of literals, so that part asks for sums and summations only. -/
theorem staysProper_plain (h : law.plain? t = some t') : t.StaysProper b t' := by
  unfold plain? at h
  split at h
  · -- `||(||x||)||`
    cases h
    exact fun ht => ⟨ht, False.elim⟩
  · -- `||a * ||x||||`
    next l r =>
    intro ht
    have hmul : (Term.mul l r).Proper b := ht
    exact ⟨openSquashes?_keeps (P := Term.Proper b) Iff.rfl Iff.rfl hmul h, False.elim⟩
  · -- `not(||x||)`
    cases h
    rintro ⟨hx, hlit⟩
    exact ⟨⟨hx, fun hb => (hlit hb).elim⟩, False.elim⟩
  · -- `Sum{v}(x + y)`
    cases h
    rintro ⟨hvars, hx, hy⟩
    rw [Term.sumOver_of_ne_nil hvars, Term.sumOver_of_ne_nil hvars]
    exact ⟨⟨⟨hvars, hx⟩, ⟨hvars, hy⟩⟩, fun _ => ⟨trivial, trivial⟩⟩
  · -- `not(x + y)`
    cases h
    rintro ⟨⟨hx, hy⟩, hlit⟩
    exact ⟨⟨⟨hx, fun hb => (hlit hb).1⟩, ⟨hy, fun hb => (hlit hb).2⟩⟩, False.elim⟩
  · -- `not(x * y)`
    cases h
    rintro ⟨⟨hx, hy⟩, hlit⟩
    exact ⟨⟨⟨hx, fun hb => (hlit hb).elim⟩, ⟨hy, fun hb => (hlit hb).elim⟩⟩, False.elim⟩
  · -- `not(not(x))`
    cases h
    rintro ⟨⟨hx, -⟩, -⟩
    exact ⟨hx, False.elim⟩
  · -- `||not(x)||`
    cases h
    exact fun ht => ⟨ht, False.elim⟩
  · -- `x * (y * z)`
    cases h
    rintro ⟨hx, hy, hz⟩
    exact ⟨⟨⟨hx, hy⟩, hz⟩, False.elim⟩
  · -- `x + (y + z)`
    cases h
    rintro ⟨hx, hy, hz⟩
    exact ⟨⟨⟨hx, hy⟩, hz⟩, fun hlit => ⟨⟨hlit.1, hlit.2.1⟩, hlit.2.2⟩⟩
  · -- `(x + y) * z`
    cases h
    rintro ⟨⟨hx, hy⟩, hz⟩
    exact ⟨⟨⟨hx, hz⟩, ⟨hy, hz⟩⟩, False.elim⟩
  · -- `x * (y + z)`
    cases h
    rintro ⟨hx, hy, hz⟩
    exact ⟨⟨⟨hx, hy⟩, ⟨hx, hz⟩⟩, False.elim⟩
  · -- a squash moves right
    split at h
    · cases h
      exact fun ht => ⟨swapLast_keeps (P := Term.Proper b) Iff.rfl ht, False.elim⟩
    · cases h
  · -- a negation moves right
    split at h
    · cases h
      exact fun ht => ⟨swapLast_keeps (P := Term.Proper b) Iff.rfl ht, False.elim⟩
    · cases h
  · -- squashes merge
    intro ht
    refine ⟨mergeFactors?_keeps (P := Term.Proper b) (Q := Term.Proper b) Iff.rfl
      (fun f x hf hproper => ?_) (fun bodies merged hm hbodies => ?_) ht h, False.elim⟩
    · rw [squashBody?_eq_some.mp hf] at hproper
      exact hproper
    · obtain ⟨p, hp, rfl⟩ := Option.map_eq_some_iff.mp hm
      show p.Proper b
      exact Term.product?_keeps (fun hl hr => ⟨hl, hr⟩) hp hbodies
  · -- negations merge
    intro ht
    refine ⟨mergeFactors?_keeps (P := Term.Proper b)
      (Q := fun x => x.Proper b ∧ (b = true → x.IsLiteralSum)) Iff.rfl
      (fun f x hf hproper => ?_) (fun bodies merged hm hbodies => ?_) ht h, False.elim⟩
    · rw [notBody?_eq_some.mp hf] at hproper
      exact hproper
    · obtain ⟨p, hp, rfl⟩ := Option.map_eq_some_iff.mp hm
      exact Term.total?_keeps (P := fun x => x.Proper b ∧ (b = true → x.IsLiteralSum))
        (fun hl hr => ⟨⟨hl.1, hr.1⟩, fun hb => ⟨hl.2 hb, hr.2 hb⟩⟩) hp hbodies
  · cases h

/-- A law hands on a proper term. -/
theorem staysProper_fire {s s' : FreshNames} (h : law.fire? s t = some (t', s')) :
    t.StaysProper b t' := by
  -- A step takes a sum of literals to a sum of literals.
  unfold fire? at h
  split at h
  · -- `Sum{v}(x) * y`
    next vars body r =>
    cases h
    rintro ⟨hsum, hr⟩
    obtain ⟨hvars, hbody⟩ := hsum.renameClashing (fun v => r.uses v) s
    rw [Term.sumOver_of_ne_nil hvars]
    exact ⟨⟨hvars, hbody, hr⟩, False.elim⟩
  · -- `x * Sum{v}(y)`
    next l vars body =>
    cases h
    rintro ⟨hl, hsum⟩
    obtain ⟨hvars, hbody⟩ := hsum.renameClashing (fun v => l.uses v) s
    rw [Term.sumOver_of_ne_nil hvars]
    exact ⟨⟨hvars, hl, hbody⟩, False.elim⟩
  · -- `Sum{v}(Sum{w}(x))`
    next outer vars body =>
    cases h
    rintro ⟨houter, hsum⟩
    obtain ⟨-, hbody⟩ := hsum.renameClashing (fun v => decide (v ∈ outer)) s
    -- The outer binders are there, so the merged summation does not collapse.
    have hvars := append_ne_nil_of_left_ne_nil houter
      (renameClashing (fun v => decide (v ∈ outer)) vars body s).1
    rw [Term.sumOver_of_ne_nil hvars]
    exact ⟨⟨hvars, hbody⟩, fun _ => trivial⟩
  · obtain ⟨new, hnew, heq⟩ := Option.map_eq_some_iff.mp h
    cases heq
    exact staysProper_plain hnew

end Law

namespace Term

variable {b : Bool} {s : FreshNames} {laws : List Law}

/-- A step hands on a proper term. -/
theorem staysProper_reduce? {t : Term} {f : Firing} (h : t.reduce? s laws = some f) :
    StaysProper b t f.result := by
  refine reduce?_induction (motive := fun t f => StaysProper b t f.result) ?_ StaysProper.addLeft
    StaysProper.addRight StaysProper.mulLeft StaysProper.mulRight StaysProper.not
    StaysProper.squash StaysProper.sum h
  intro t f _ hfirst
  obtain ⟨-, law, -, -, hfire, -⟩ := Law.firstAt?_eq_some hfirst
  exact Law.staysProper_fire hfire

/-! ## Terms that take no step -/

end Term

/-- The laws that take apart what is negated. -/
def Law.opening : List Law :=
  [.elimSquash, .notAdd, .notMul, .notNot]

namespace Term

variable {s : FreshNames} {laws : List Law}

/-- Where nothing negated can be taken apart, only atoms and summations are negated. -/
theorem Proper.literal_of_irreducible (hlaws : Law.opening ⊆ laws) {t : Term}
    (ht : t.Proper false) (h : t.reduce? s laws = none) : t.Proper true := by
  induction t with
  | table n row | pred n args | eq l r => trivial
  | add l r ihl ihr =>
    obtain ⟨⟨hl, hr⟩, -⟩ := reduce?_eq_none_iff.mp h
    exact ⟨ihl ht.1 hl, ihr ht.2 hr⟩
  | mul l r ihl ihr =>
    obtain ⟨⟨hl, hr⟩, -⟩ := reduce?_eq_none_iff.mp h
    exact ⟨ihl ht.1 hl, ihr ht.2 hr⟩
  | squash t ih => exact ih ht (reduce?_eq_none_iff.mp h).1
  | sum vars body ih => exact ⟨ht.1, ih ht.2 (reduce?_eq_none_iff.mp h).1⟩
  | not t ih =>
    obtain ⟨hinner, hroot⟩ := reduce?_eq_none_iff.mp h
    refine ⟨ih ht.1 hinner, fun _ => ?_⟩
    -- For every other shape below a negation there is a law that fires.
    cases t with
    | table n row | pred n args | eq l r | sum vars body => trivial
    | add l r => exact absurd (hroot .notAdd (hlaws (by decide))) (by simp [Law.fire?, Law.plain?])
    | mul l r => exact absurd (hroot .notMul (hlaws (by decide))) (by simp [Law.fire?, Law.plain?])
    | not x => exact absurd (hroot .notNot (hlaws (by decide))) (by simp [Law.fire?, Law.plain?])
    | squash x =>
      exact absurd (hroot .elimSquash (hlaws (by decide))) (by simp [Law.fire?, Law.plain?])

/-- A sum of literals stays as it is below a negation. -/
theorem IsLiteralSum.negatable {t : Term} (h : t.IsLiteralSum) (ht : t.Proper true) :
    ∀ c ∈ t.spread, c.Negatable := by
  induction t with
  | table n row | pred n args | eq l r =>
    intro c hc
    rw [spread] at hc
    rw [mem_singleton.mp hc]
    exact .inr ⟨rfl, rfl, rfl⟩
  | add l r ihl ihr =>
    intro c hc
    rw [spread] at hc
    exact (mem_append.mp hc).elim (ihl h.1 ht.1 c) (ihr h.2 ht.2 c)
  | sum vars body _ =>
    intro c hc
    rw [spread] at hc
    rw [mem_singleton.mp hc]
    exact .inl ht.1
  | mul l r _ _ | not t _ | squash t _ => exact h.elim

/-! ## Products in which no right factor is a product -/

theorem length_squashes_of_kind {t : Term} (h : t.kind ≠ .mul) :
    t.gather.squashes.length = if (Law.squashBody? t).isSome then 1 else 0 := by
  cases t with
  | mul l r => exact absurd rfl h
  | _ => rfl

/-- The squashes of such a product are among its factors. -/
theorem length_squashes_of_flat {t : Term} (h : ∀ f ∈ t.factors, f.kind ≠ .mul) :
    t.gather.squashes.length = t.squashCount := by
  fun_induction Term.factors t with
  | case1 l r ih =>
    have hl := ih fun f hf => h f (mem_append_left _ hf)
    have hr := length_squashes_of_kind (h r (by simp))
    rw [gather, Gathered.append, length_append, hl, hr]
    rfl
  | case2 t _ =>
    have ht := h t (mem_singleton_self t)
    rw [squashCount_of_not_mul ht, length_squashes_of_kind ht]

theorem negated_of_notCount {t : Term} (h : t.kind ≠ .mul) (hcount : t.notCount = 0) :
    t.gather.negated = [] := by
  refine negated_of_kind h fun hnot => ?_
  obtain ⟨x, rfl⟩ := eq_not_of_kind hnot
  cases hcount

/-- The negations of such a product are among its factors. -/
theorem negated_of_flat {t : Term} (h : ∀ f ∈ t.factors, f.kind ≠ .mul) (hcount : t.notCount = 0) :
    t.gather.negated = [] := by
  fun_induction Term.factors t with
  | case1 l r ih =>
    have hr := h r (by simp)
    have hsum : l.notCount + r.notCount = 0 := by
      rw [notCount_of_not_mul hr]
      exact hcount
    rw [gather, Gathered.append, ih (fun f hf => h f (mem_append_left _ hf)) (by omega),
      negated_of_notCount hr (by omega)]
    rfl
  | case2 t _ => exact negated_of_notCount (h t (mem_singleton_self t)) hcount

/-- A product of two factors with no squash and one negation at most has an atom: without atoms,
both factors would have a negation. -/
theorem exists_atom_of_flat {l r : Term} (hl : l.Tidy ∧ l.IsProduct) (hr : r.Tidy ∧ r.IsProduct)
    (hflat : ∀ f ∈ (Term.mul l r).factors, f.kind ≠ .mul)
    (hsquash : (Term.mul l r).gather.squashes = []) (hnot : (Term.mul l r).notCount < 2) :
    (Term.mul l r).gather.tables ≠ [] ∨ (Term.mul l r).gather.preds ≠ [] := by
  by_contra hnone
  simp only [ne_eq, not_or, not_not] at hnone
  obtain ⟨htables, hpreds⟩ := hnone
  rw [gather] at htables hpreds hsquash
  obtain ⟨htl, htr⟩ := append_eq_nil_iff.mp htables
  obtain ⟨hpl, hpr⟩ := append_eq_nil_iff.mp hpreds
  obtain ⟨hsl, hsr⟩ := append_eq_nil_iff.mp hsquash
  -- Each side has a factor, which can only be a negation.
  have hl' := hl.1.size_pos hl.2
  have hr' := hr.1.size_pos hr.2
  rw [Gathered.size, htl, hpl, hsl] at hl'
  rw [Gathered.size, htr, hpr, hsr] at hr'
  have hkind := hflat r (by simp [Term.factors])
  have hcount : (Term.mul l r).notCount = l.notCount + r.notCount := by
    rw [notCount_of_not_mul hkind]
    rfl
  have hlnot : l.notCount ≠ 0 := by
    intro hzero
    rw [negated_of_flat (fun f hf => hflat f (mem_append_left _ hf)) hzero] at hl'
    exact absurd hl' (Nat.lt_irrefl 0)
  have hrnot : r.notCount ≠ 0 := by
    intro hzero
    rw [negated_of_notCount hkind hzero] at hr'
    exact absurd hr' (Nat.lt_irrefl 0)
  omega

/-! ## A reduced term is tidy -/

/-- Opening squashes fires as soon as there is one. -/
theorem squashCount_of_openSquashes? {t : Term} (h : Law.openSquashes? t = none) :
    t.squashCount = 0 := by
  unfold squashCount
  by_contra hcount
  unfold Law.openSquashes? at h
  rw [if_pos (Nat.pos_of_ne_zero hcount), Option.map_eq_none_iff] at h
  cases hfs : t.factors with
  | nil =>
    rw [countFactors_eq_countP, hfs] at hcount
    exact hcount rfl
  | cons f fs =>
    rw [hfs] at h
    cases h

/-- What is squashed in a term that takes no step stays as it is below a squash. -/
theorem squashable_of_irreducible (hlaws : Law.shaping ⊆ laws) (hsquash : .elimSquash ∈ laws)
    (hnot : .squashNot ∈ laws) {t : Term} (htidy : t.Tidy) (h : t.reduce? s laws = none)
    (hroot : ∀ law ∈ laws, law.fire? s (.squash t) = none) : Disj.Squashable t.spread := by
  intro c hd hvars
  cases t with
  | table n row =>
    rw [spread] at hd
    cases hd
    exact ⟨rfl, .inl (cons_ne_nil _ _)⟩
  | pred n args | eq l r =>
    rw [spread] at hd
    cases hd
    exact ⟨rfl, .inr (cons_ne_nil _ _)⟩
  | add l r =>
    -- A sum says two conjunctions at least.
    have hl := length_pos_of_ne_nil l.spread_ne_nil
    have hr := length_pos_of_ne_nil r.spread_ne_nil
    have hlen := congrArg List.length hd
    rw [spread, length_append, length_singleton] at hlen
    omega
  | sum vars body =>
    rw [spread] at hd
    cases hd
    exact absurd hvars htidy.1
  | not x => exact absurd (hroot _ hnot) (by simp [Law.fire?, Law.plain?])
  | squash x => exact absurd (hroot _ hsquash) (by simp [Law.fire?, Law.plain?])
  | mul l r =>
    obtain ⟨-, hfire⟩ := reduce?_eq_none_iff.mp h
    obtain ⟨-, -, -, hnots⟩ := mul_irreducible hlaws hfire
    have hflat := factors_flat (hlaws (by decide)) h
    have hsquashes : (Term.mul l r).gather.squashes = [] := by
      have hopen := hroot _ hsquash
      simp only [Law.fire?, Law.plain?, Option.map_eq_none_iff] at hopen
      have hlen := length_squashes_of_flat hflat
      rw [squashCount_of_openSquashes? hopen] at hlen
      exact length_eq_zero_iff.mp hlen
    rw [spread_of_isProduct (isProduct_mul l r)] at hd
    cases hd
    refine ⟨head?_eq_none_iff.mpr hsquashes, ?_⟩
    exact exists_atom_of_flat htidy.1 htidy.2.1 hflat hsquashes hnots

/-- Where the last pass ends, a proper term is tidy. -/
theorem Proper.tidy_of_irreducible (hlaws : Law.shaping ⊆ laws) (hsquash : .elimSquash ∈ laws)
    (hnot : .squashNot ∈ laws) {t : Term} (ht : t.Proper true) (h : t.reduce? s laws = none) :
    t.Tidy := by
  -- The squash of a product is the delicate case: it has no squash and one negation at most among
  -- its factors, so it has an atom.
  induction t with
  | table n row | pred n args | eq l r => trivial
  | add l r ihl ihr =>
    obtain ⟨⟨hl, hr⟩, -⟩ := reduce?_eq_none_iff.mp h
    exact ⟨ihl ht.1 hl, ihr ht.2 hr⟩
  | mul l r ihl ihr =>
    obtain ⟨⟨hl, hr⟩, hroot⟩ := reduce?_eq_none_iff.mp h
    obtain ⟨hlkind, ⟨hradd, hrsum, -⟩, hsq, -⟩ := mul_irreducible hlaws hroot
    -- The product is a chain, so every squash in it is counted.
    have hlen := length_squashes_of_flat (factors_flat (hlaws (by decide)) h)
    rw [gather] at hlen
    exact ⟨⟨ihl ht.1 hl, hlkind⟩, ⟨ihr ht.2 hr, hradd, hrsum⟩, by omega⟩
  | not t ih =>
    obtain ⟨hinner, -⟩ := reduce?_eq_none_iff.mp h
    exact ⟨ih ht.1 hinner, (ht.2 rfl).negatable ht.1⟩
  | squash t ih =>
    obtain ⟨hinner, hroot⟩ := reduce?_eq_none_iff.mp h
    have htidy := ih ht hinner
    exact ⟨htidy, squashable_of_irreducible hlaws hsquash hnot htidy hinner hroot⟩
  | sum vars body ih =>
    obtain ⟨hinner, hroot⟩ := reduce?_eq_none_iff.mp h
    exact ⟨ht.1, ih ht.2 hinner, sum_irreducible hlaws hroot⟩

/-- The passes make a term tidy whose summations have binders: the first one leaves literals only
below negations, the others keep that, and after the last one no law fires. -/
theorem tidy_of_reduce {t t' : Term} (ht : t.hasBinders = true) (h : t.reduce = .ok t') :
    t'.Tidy := by
  obtain ⟨p, hp, rfl⟩ := exists_reduceRecorded h
  have hstep : ∀ {b : Bool} {laws : List Law} {s : FreshNames} {t : Term} {f : Firing},
      t.reduce? s laws = some f → t.Proper b → f.result.Proper b :=
    fun hf hproper => (staysProper_reduce? hf hproper).1
  obtain ⟨mid, hfirst, hrest⟩ := Pass.runAll_cons hp
  have hmid : mid.term.Proper true := by
    have hproper : mid.term.Proper false :=
      Pass.run_keeps (P := fun u _ => u.Proper false) hstep hfirst (proper_of_hasBinders ht)
    exact hproper.literal_of_irreducible (by decide) (Pass.run_irreducible hfirst)
  have hlast : p.term.Proper true :=
    Pass.runAll_keeps (P := fun u _ => u.Proper true) (fun _ _ => hstep) hrest hmid
  have hirr := Pass.runAll_irreducible rfl hrest
  exact hlast.tidy_of_irreducible (by decide) (by decide) (by decide) hirr

end Term

end QueryRules
