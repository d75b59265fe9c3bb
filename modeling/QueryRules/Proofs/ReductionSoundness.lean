import QueryRules.Proofs.LawSoundness
import QueryRules.Proofs.NormalFormValue
import QueryRules.Proofs.ReductionSteps

/-!
# QueryRules — the reduction keeps values

The five passes give a term of the same value in every finite model and environment, and so does
the disjunction that the reduced term reads as.

One step fires one law at one position (`Term.reduce_sound`, along the way to the position), and the
passes are runs of steps one after the other (`Pass.runAll_sound`). What is carried along is
`Law.Sound`: besides the value, that binders are row variables and that the supply reserves every
variable of the term at hand, which is what the next law needs. The supply of the first step is made
for the term, so it reserves all of it.
-/

namespace QueryRules

variable {D : Type*} [Fintype D] [DecidableEq D]

/-! ## One step -/

namespace Law

theorem Sound.refl (m : Model D) {s : FreshNames} {t : Term} (h : t.Ready s) : Sound m s t s t :=
  ⟨rfl, h, fun _ hx => hx⟩

theorem Sound.trans {m : Model D} {s₁ s₂ s₃ : FreshNames} {t₁ t₂ t₃ : Term}
    (h₁ : Sound m s₁ t₁ s₂ t₂) (h₂ : Sound m s₂ t₂ s₃ t₃) : Sound m s₁ t₁ s₃ t₃ :=
  ⟨h₂.value.trans h₁.value, h₂.ready, fun x hx => h₂.grows x (h₁.grows x hx)⟩

/-- The first law that fires at the root keeps what every law keeps. -/
theorem firstAt_sound (m : Model D) {s : FreshNames} {laws : List Law} {t : Term} {f : Firing}
    (ht : t.Ready s) (h : firstAt? s laws t = some f) : Sound m s t f.fresh f.result := by
  obtain ⟨-, law, -, -, hfire, -⟩ := firstAt?_eq_some h
  exact fire_sound m ht hfire

/-! ## Steps inside a term

What happens in a subterm carries over to the term around it: the value of a term depends on the
values of its subterms, and names that a supply reserves stay reserved for the other parts. -/

section Congruence

variable {m : Model D} {s s' : FreshNames} {t t' r : Term}

theorem Sound.add_left (h : Sound m s t s' t') (hr : r.Ready s) :
    Sound m s (.add t r) s' (.add t' r) := by
  refine ⟨?_, Term.ready_add.mpr ⟨h.ready, hr.mono h.grows⟩, h.grows⟩
  funext env
  rw [Term.value, Term.value, h.value]

theorem Sound.add_right (h : Sound m s t s' t') (hr : r.Ready s) :
    Sound m s (.add r t) s' (.add r t') := by
  refine ⟨?_, Term.ready_add.mpr ⟨hr.mono h.grows, h.ready⟩, h.grows⟩
  funext env
  rw [Term.value, Term.value, h.value]

theorem Sound.mul_left (h : Sound m s t s' t') (hr : r.Ready s) :
    Sound m s (.mul t r) s' (.mul t' r) := by
  refine ⟨?_, Term.ready_mul.mpr ⟨h.ready, hr.mono h.grows⟩, h.grows⟩
  funext env
  rw [Term.value, Term.value, h.value]

theorem Sound.mul_right (h : Sound m s t s' t') (hr : r.Ready s) :
    Sound m s (.mul r t) s' (.mul r t') := by
  refine ⟨?_, Term.ready_mul.mpr ⟨hr.mono h.grows, h.ready⟩, h.grows⟩
  funext env
  rw [Term.value, Term.value, h.value]

theorem Sound.not (h : Sound m s t s' t') : Sound m s (.not t) s' (.not t') := by
  refine ⟨?_, Term.ready_not.mpr h.ready, h.grows⟩
  funext env
  rw [Term.value, Term.value, h.value]

theorem Sound.squash (h : Sound m s t s' t') : Sound m s (.squash t) s' (.squash t') := by
  refine ⟨?_, Term.ready_squash.mpr h.ready, h.grows⟩
  funext env
  rw [Term.value, Term.value, h.value]

theorem Sound.sum {vars : List Tuple} (h : Sound m s t s' t') (hsum : (Term.sum vars t).Ready s) :
    Sound m s (.sum vars t) s' (.sum vars t') := by
  obtain ⟨hvars, hres, -⟩ := Term.ready_sum.mp hsum
  refine ⟨?_, Term.ready_sum.mpr ⟨hvars, fun x hx => h.grows x (hres x hx), h.ready⟩, h.grows⟩
  funext env
  rw [Term.value, Term.value, h.value]

end Congruence

end Law

/-- A step is sound: the law that fires keeps the value of a subterm, and with it that of every
term around it. -/
theorem Term.reduce_sound (m : Model D) {s : FreshNames} {laws : List Law} {t : Term} {f : Firing}
    (ht : t.Ready s) (h : t.reduce? s laws = some f) : Law.Sound m s t f.fresh f.result := by
  refine reduce?_induction (motive := fun t f => t.Ready s → Law.Sound m s t f.fresh f.result)
    ?_ ?_ ?_ ?_ ?_ ?_ ?_ ?_ h ht
  · exact fun _ hfirst ht => Law.firstAt_sound m ht hfirst
  · exact fun hl ht => (hl (ready_add.mp ht).1).add_left (ready_add.mp ht).2
  · exact fun hr ht => (hr (ready_add.mp ht).2).add_right (ready_add.mp ht).1
  · exact fun hl ht => (hl (ready_mul.mp ht).1).mul_left (ready_mul.mp ht).2
  · exact fun hr ht => (hr (ready_mul.mp ht).2).mul_right (ready_mul.mp ht).1
  · exact fun hbody ht => (hbody (ready_not.mp ht)).not
  · exact fun hbody ht => (hbody (ready_squash.mp ht)).squash
  · exact fun hbody ht => (hbody (ready_sum.mp ht).2.2).sum ht

/-- A step leaves a term ready. Soundness in a model of a single row says so. -/
theorem Term.ready_reduce? {s : FreshNames} {laws : List Law} {t : Term} {f : Firing}
    (ht : t.Ready s) (h : t.reduce? s laws = some f) : f.result.Ready f.fresh := by
  have hsound := reduce_sound (D := Unit) ⟨fun _ => (), fun _ _ => (), fun _ _ => (),
    fun _ _ => 0, fun _ _ => false, fun _ => rfl⟩ ht h
  exact hsound.ready

/-! ## Passes -/

namespace Pass

/-- Passes one after the other are sound. -/
theorem runAll_sound (m : Model D) {limit number : Nat} {passes : List (List Law)} {p q : Progress}
    (hp : p.term.Ready p.fresh) (h : runAll limit number passes p = .ok q) :
    Law.Sound m p.fresh p.term q.fresh q.term := by
  refine runAll_keeps (P := fun t s => Law.Sound m p.fresh p.term s t) ?_ h (Law.Sound.refl m hp)
  exact fun _ _ _ _ _ hf hsound => hsound.trans (Term.reduce_sound m hsound.ready hf)

end Pass

namespace Term

/-- The supply that a reduction starts with fits its term. -/
theorem ready_freshFor {t : Term} (h : t.baseBinders = true) : t.Ready (Law.freshFor t) :=
  ⟨h, fun _ hx => Law.freshFor_reserves hx⟩

theorem value_reduce (m : Model D) {t t' : Term} (hbase : t.baseBinders = true)
    (h : t.reduce = .ok t') : t'.value m = t.value m := by
  unfold reduce at h
  cases hrec : t.reduceRecorded with
  | error l => rw [hrec] at h; cases h
  | ok p =>
    rw [hrec] at h
    cases h
    exact (Pass.runAll_sound m (ready_freshFor hbase) hrec).value

/-- **The five passes keep the value.** For a term whose binders are row variables, repeated or
hidden ones included, a successful reduction gives a term of the same value in every finite model
and environment; this term reads as a disjunction, which has the same value as well. -/
theorem reduce_keeps_value {t t' : Term} (hbase : t.baseBinders = true) (h : t.reduce = .ok t') :
    ∃ d, Disj.ofTerm t' = .ok d ∧
      ∀ (D : Type*) [Fintype D] [DecidableEq D] (m : Model D) (env : Env D),
        t'.value m env = t.value m env ∧ d.toTerm.value m env = t.value m env := by
  obtain ⟨d, hd⟩ := ofTerm_of_reduce h
  refine ⟨d, hd, fun D _ _ m env => ?_⟩
  have hvalue : t'.value m env = t.value m env := by rw [value_reduce m hbase h]
  exact ⟨hvalue, (Disj.value_ofTerm m hd env).trans hvalue⟩

/-- `(A(x) + not(not(Sum{x, x}(B(x))))) * (||C(y)|| * Sum{x}(not(R(x))))`. -/
def clashingBinders : Term :=
  .mul
    (.add (.table "A" (.var "x"))
      (.not (.not (.sum [.var "x", .var "x"] (.table "B" (.var "x"))))))
    (.mul (.squash (.table "C" (.var "y"))) (.sum [.var "x"] (.not (.table "R" (.var "x")))))

/-- `Sum{u0}(A(x) * ||C(y)|| * not(R(u0))) + Sum{u1}(||Sum{x, x}(B(x) * C(y))|| * not(R(u1)))`. -/
def separatedBinders : Term :=
  .add
    (.sum [.var "u0"] (.mul (.mul (.table "A" (.var "x")) (.squash (.table "C" (.var "y"))))
      (.not (.table "R" (.var "u0")))))
    (.sum [.var "u1"] (.mul
      (.squash (.sum [.var "x", .var "x"] (.mul (.table "B" (.var "x")) (.table "C" (.var "y")))))
      (.not (.table "R" (.var "u1")))))

/-- A free variable meets bound ones of its name, and a binder is listed twice. -/
theorem reduce_keeps_value_clashing_binders :
    clashingBinders.baseBinders = true ∧ clashingBinders.reduce = .ok separatedBinders ∧
      ∃ d, Disj.ofTerm separatedBinders = .ok d ∧
        ∀ (D : Type) [Fintype D] [DecidableEq D] (m : Model D) (env : Env D),
          separatedBinders.value m env = clashingBinders.value m env ∧
            d.toTerm.value m env = clashingBinders.value m env := by
  have hbase : clashingBinders.baseBinders = true := by decide
  have hred : clashingBinders.reduce = .ok separatedBinders := by rfl
  exact ⟨hbase, hred, reduce_keeps_value hbase hred⟩

end Term

end QueryRules
