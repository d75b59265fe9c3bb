import QueryRules.Proofs.KeyedMerges

/-!
# QueryRules — rows that foreign keys reference

`Term.expandForeignKeys` multiplies every table atom by the statement that the rows exist which its
foreign keys reference. Where the keys hold, this statement is one whenever the atom is not zero, so
it does not change the product (`Term.expandForeignKeys_sound`).
-/

namespace QueryRules

open List

variable {D : Type*}

/-- A row of the table that the key references, with the columns of the row `d`. -/
def ForeignKey.Refers (m : Model D) (k : ForeignKey) (d e : D) : Prop :=
  m.table k.refTable e ≠ 0 ∧ ∀ p ∈ k.columns.zip k.refColumns, m.attr p.1 d = m.attr p.2 e

/-- The foreign keys hold in a model: where a key has as many columns as it references, none of
which may be null, every row of its table has a row that it refers to. -/
def Model.Referential (m : Model D) (facts : Facts) : Prop :=
  ∀ k ∈ facts.foreignKeys, k.columns.length = k.refColumns.length →
    (∀ c ∈ k.columns, facts.isNotNull k.table c = true) →
      ∀ d, m.table k.table d ≠ 0 → ∃ e, k.Refers m d e

/-! ## The statement that a row exists -/

namespace ForeignKey

variable {m : Model D} {k : ForeignKey} {facts : Facts} {t : Tuple} {f : String} {d e : D}

theorem usable_iff : k.isUsable facts = true ↔ k.columns ≠ [] ∧
    k.columns.length = k.refColumns.length ∧ ∀ c ∈ k.columns, facts.isNotNull k.table c = true := by
  simp [isUsable, and_assoc]

/-- Rows that are referred to agree on all columns that are referenced. -/
theorem Refers.attr_eq {e' : D} (h : k.Refers m d e) (h' : k.Refers m d e')
    (hlen : k.columns.length = k.refColumns.length) {col : String} (hcol : col ∈ k.refColumns) :
    m.attr col e = m.attr col e' := by
  have hcols : (k.columns.zip k.refColumns).map Prod.snd = k.refColumns :=
    map_snd_zip (Nat.le_of_eq hlen.symm)
  rw [← hcols] at hcol
  obtain ⟨p, hp, rfl⟩ := mem_map.mp hcol
  exact (h.2 p hp).symm.trans (h'.2 p hp)

variable [DecidableEq D]

/-- How often a row counts in the statement: with its multiplicity if it is referred to. -/
def weight (m : Model D) (k : ForeignKey) (d e : D) : Nat :=
  if ∀ p ∈ k.columns.zip k.refColumns, m.attr p.1 d = m.attr p.2 e then m.table k.refTable e else 0

theorem weight_ne_zero : k.weight m d e ≠ 0 ↔ k.Refers m d e := by
  unfold weight Refers
  split
  · next hcols => exact ⟨fun h => ⟨h, hcols⟩, And.left⟩
  · next hcols => exact ⟨fun h => absurd rfl h, fun h => absurd h.2 hcols⟩

variable [Fintype D]

/-- Below the bound variable `f` stands the weight of its row, if the row `t` does not mention
`f`. -/
theorem value_body (hf : t.uses (.var f) = false) (env : Env D) :
    (Term.product (.table k.refTable (.var f) :: (k.columns.zip k.refColumns).map fun p =>
      Term.eq (t.project p.1) ((Tuple.var f).project p.2))).value m (env.bind (.var f) e)
      = k.weight m (t.value m env) e := by
  have hrow : (Tuple.var f).value m (env.bind (.var f) e) = e := by simp [Tuple.value, Env.bind]
  have heqs : ∀ p : String × String,
      (Term.eq (t.project p.1) ((Tuple.var f).project p.2)).value m (env.bind (.var f) e)
        = if m.attr p.1 (t.value m env) = m.attr p.2 e then 1 else 0 := by
    intro p
    rw [Term.value, Tuple.value_project, Tuple.value_project, hrow,
      Tuple.value_bind_of_not_uses m hf]
  rw [Term.value_product, map_cons, prod_cons, map_map, Term.value, hrow]
  simp only [Function.comp_def, heqs]
  rw [prod_map_ite_one_zero fun p : String × String =>
    m.attr p.1 (t.value m env) = m.attr p.2 e]
  unfold weight
  split
  · exact Nat.mul_one _
  · exact Nat.mul_zero _

/-- The statement counts the rows that are referred to, or says whether there are any. -/
theorem value_existence_eq (hf : t.uses (.var f) = false) (env : Env D) :
    (k.existence facts t (.var f)).value m env
      = if facts.isUnique k.refTable k.refColumns then ∑ e, k.weight m (t.value m env) e
        else if ∑ e, k.weight m (t.value m env) e = 0 then 0 else 1 := by
  have hsum : (Term.sumOver [.var f] (Term.product (.table k.refTable (.var f) ::
      (k.columns.zip k.refColumns).map fun p =>
        Term.eq (t.project p.1) ((Tuple.var f).project p.2)))).value m env
        = ∑ e, k.weight m (t.value m env) e := by
    rw [Term.value_sumOver]
    exact Finset.sum_congr rfl fun e _ => value_body hf env
  rw [← hsum]
  unfold existence
  split
  · rfl
  · rfl

/-- If a unique key is referenced there is one row that is referred to, and it counts once. -/
theorem sum_rows (hm : m.Keyed facts) (hlen : k.columns.length = k.refColumns.length)
    (hunique : facts.isUnique k.refTable k.refColumns = true) (h : k.Refers m d e) :
    ∑ e, k.weight m d e = 1 := by
  -- Without a squash the statement counts rows, and it is left without one only where a unique
  -- key says that there is no second row.
  obtain ⟨uk, huk, hcols⟩ := any_eq_true.mp hunique
  obtain ⟨hmem, htable⟩ := mem_filter.mp huk
  have htable : uk.table = k.refTable := of_decide_eq_true htable
  rw [Finset.sum_eq_single e]
  · unfold weight
    rw [if_pos h.2]
    have honce := hm.once uk hmem e
    have hin := h.1
    rw [htable] at honce
    omega
  · intro e' _ hne
    by_contra hweight
    have h' := weight_ne_zero.mp hweight
    refine hne (hm.unique uk hmem e' e (htable ▸ h'.1) (htable ▸ h.1) fun col hcol => ?_)
    exact h'.attr_eq h hlen (of_decide_eq_true (all_eq_true.mp hcols col hcol))
  · exact fun hnot => absurd (Finset.mem_univ e) hnot

/-- **The row exists.** Where the atom of the table is not zero, the statement is one. -/
theorem value_existence (hm : m.Keyed facts) (href : m.Referential facts)
    (hk : k ∈ facts.foreignKeys) (husable : k.isUsable facts = true)
    (hf : t.uses (.var f) = false) {env : Env D} (hrow : m.table k.table (t.value m env) ≠ 0) :
    (k.existence facts t (.var f)).value m env = 1 := by
  -- The bound variable is new, so the row that it speaks of is the one of the atom.
  obtain ⟨-, hlen, hnull⟩ := usable_iff.mp husable
  obtain ⟨e, he⟩ := href k hk hlen hnull _ hrow
  rw [value_existence_eq hf]
  split
  · next hunique => exact sum_rows hm hlen hunique he
  · refine if_neg fun hzero => ?_
    exact weight_ne_zero.mpr he (Finset.sum_eq_zero_iff.mp hzero e (Finset.mem_univ e))

/-- The statement mentions no variable but those of the row, its bound one apart. -/
theorem uses_of_free_existence {x : String} (h : (k.existence facts t (.var f)).Free x) :
    t.uses (.var x) = true := by
  have hbody : (Term.sumOver [.var f] (Term.product (.table k.refTable (.var f) ::
      (k.columns.zip k.refColumns).map fun p =>
        Term.eq (t.project p.1) ((Tuple.var f).project p.2)))).Free x := by
    unfold existence at h
    split at h
    · exact h
    · exact h
  obtain ⟨hbound, hfree⟩ := Term.free_sumOver.mp hbody
  have hself : ∀ {u : Tuple}, u.uses (.var x) = true → u ≠ .var f := by
    rintro u hu rfl
    refine hbound (mem_singleton.mpr ?_)
    simpa [Tuple.uses, eq_comm] using hu
  obtain ⟨u, hu, hfree⟩ := Term.free_product.mp hfree
  rcases mem_cons.mp hu with rfl | hu
  · exact absurd rfl (hself hfree)
  · obtain ⟨p, -, rfl⟩ := mem_map.mp hu
    rcases hfree with hleft | hright
    · exact Tuple.uses_of_uses_project hleft
    · exact absurd rfl (hself (Tuple.uses_of_uses_project hright))

end ForeignKey

/-! ## The keys of an atom -/

namespace Term

variable {facts : Facts} {row : Tuple} {n x : String} {ks : List ForeignKey} {out : Term}
  {s : FreshNames}

/-- What is done with the next key. -/
theorem run_referencing_cons (facts : Facts) (row : Tuple) (k : ForeignKey) (ks : List ForeignKey)
    (out : Term) (s : FreshNames) : (referencing facts row (k :: ks) out).run s
      = if k.isUsable facts then
          (referencing facts row ks (.mul out (k.existence facts row (.var s.pick.1)))).run s.pick.2
        else (referencing facts row ks out).run s := by
  rw [referencing]
  split
  · rfl
  · rfl

theorem grows_referencing (ks : List ForeignKey) (out : Term) (s : FreshNames) :
    s.Grows ((referencing facts row ks out).run s).2 := by
  induction ks generalizing out s with
  | nil => exact fun _ hx => hx
  | cons k ks ih =>
    rw [run_referencing_cons]
    split
    · exact fun x hx => ih _ _ x hx.pick
    · exact ih out s

theorem free_referencing (hrow : row.uses (.var x) = true → out.Free x) :
    ((referencing facts row ks out).run s).1.Free x ↔ out.Free x := by
  induction ks generalizing out s with
  | nil => exact Iff.rfl
  | cons k ks ih =>
    rw [run_referencing_cons]
    split
    · refine (ih fun hx => ?_).trans (or_iff_left_of_imp fun h => ?_)
      · exact .inl (hrow hx)
      · exact hrow (ForeignKey.uses_of_free_existence h)
    · exact ih hrow

/-! ## All atoms of a term -/

theorem grows_expandKeys (facts : Facts) (t : Term) (s : FreshNames) :
    s.Grows ((t.expandKeys facts).run s).2 := by
  induction t generalizing s with
  | table n row => exact grows_referencing _ _ s
  | pred n args | eq l r => exact fun _ hx => hx
  | add l r ihl ihr | mul l r ihl ihr => exact fun x hx => ihr _ x (ihl s x hx)
  | not t ih | squash t ih | sum vars body ih => exact ih s

theorem free_expandKeys (t : Term) (s : FreshNames) :
    ((t.expandKeys facts).run s).1.Free x ↔ t.Free x := by
  induction t generalizing s with
  | table n row => exact free_referencing id
  | pred n args | eq l r => exact Iff.rfl
  | add l r ihl ihr | mul l r ihl ihr => exact or_congr (ihl s) (ihr _)
  | not t ih | squash t ih => exact ih s
  | sum vars body ih => exact free_sumOver.trans (and_congr_right fun _ => ih s)

/-! ## Values -/

section Values

variable [Fintype D] [DecidableEq D] {m : Model D}

/-- Whatever is zero where the atom is zero keeps its value. Induction on the keys, since what was
multiplied before is zero there as well. -/
theorem value_referencing (hm : m.Keyed facts) (href : m.Referential facts)
    (hks : ∀ k ∈ ks, k ∈ facts.foreignKeysOf n)
    (hrow : ∀ x, row.uses (.var x) = true → s.Reserved x)
    (hout : ∀ env, out.value m env ≠ 0 → m.table n (row.value m env) ≠ 0) (env : Env D) :
    ((referencing facts row ks out).run s).1.value m env = out.value m env := by
  induction ks generalizing out s with
  | nil => rfl
  | cons k ks ih =>
    have hks' : ∀ k ∈ ks, k ∈ facts.foreignKeysOf n := fun k hk => hks k (mem_cons_of_mem _ hk)
    rw [run_referencing_cons]
    split
    · next husable =>
      obtain ⟨hk, htable⟩ := mem_filter.mp (hks k mem_cons_self)
      have htable : k.table = n := of_decide_eq_true htable
      have hnew : row.uses (.var s.pick.1) = false := by
        rw [Bool.eq_false_iff]
        exact fun hu => s.pick_not_reserved (hrow _ hu)
      -- In every environment, because the keys to come are multiplied to this product.
      have hmul : ∀ env, (Term.mul out (k.existence facts row (.var s.pick.1))).value m env
          = out.value m env := by
        intro env
        rw [value]
        by_cases hzero : out.value m env = 0
        · rw [hzero, Nat.zero_mul]
        · rw [ForeignKey.value_existence hm href hk husable hnew (htable ▸ hout env hzero),
            Nat.mul_one]
      rw [ih hks' (fun x hx => (hrow x hx).pick) fun env h => hout env (hmul env ▸ h), hmul]
    · exact ih hks' hrow hout

/-- The atoms of a term are expanded from left to right. -/
theorem value_expandKeys (hm : m.Keyed facts) (href : m.Referential facts) {t : Term}
    {s : FreshNames} (ht : ∀ x, t.uses (.var x) = true → s.Reserved x) (env : Env D) :
    ((t.expandKeys facts).run s).1.value m env = t.value m env := by
  induction t generalizing s env with
  | table n row =>
    refine value_referencing (n := n) hm href (fun _ hk => hk) ht (fun _ h => ?_) env
    exact h
  | pred n args | eq l r => rfl
  | add l r ihl ihr =>
    have hl := ihl (s := s) (fun x hx => ht x (by simp [uses, hx])) env
    -- The right side takes its new names after the left one.
    have hr := ihr (s := ((l.expandKeys facts).run s).2)
      (fun x hx => grows_expandKeys facts l s x (ht x (by simp [uses, hx]))) env
    exact congrArg₂ (· + ·) hl hr
  | mul l r ihl ihr =>
    have hl := ihl (s := s) (fun x hx => ht x (by simp [uses, hx])) env
    have hr := ihr (s := ((l.expandKeys facts).run s).2)
      (fun x hx => grows_expandKeys facts l s x (ht x (by simp [uses, hx]))) env
    exact congrArg₂ (· * ·) hl hr
  | not t ih => exact congrArg (fun n => if n = 0 then 1 else 0) (ih ht env)
  | squash t ih => exact congrArg (fun n => if n = 0 then 0 else 1) (ih ht env)
  | sum vars body ih =>
    have hbody : ((body.expandKeys facts).run s).1.value m = body.value m :=
      funext fun env => ih (fun x hx => ht x (by simp [uses, hx])) env
    show (sumOver vars ((body.expandKeys facts).run s).1).value m env = _
    rw [value_sumOver, hbody, value]

end Values

/-- **Expanding foreign keys keeps the meaning.** In every model in which the unique keys and the
foreign keys hold, the expanded term has the value of the term, and it has the same free
variables. -/
theorem expandForeignKeys_sound (t : Term) (facts : Facts) :
    (∀ v, v ∈ (t.expandForeignKeys facts).freeVars ↔ v ∈ t.freeVars) ∧
      ∀ (D : Type*) [Fintype D] [DecidableEq D] (m : Model D), m.Keyed facts →
        m.Referential facts → ∀ env, (t.expandForeignKeys facts).value m env = t.value m env := by
  have hreserved : ∀ x, t.uses (.var x) = true → FreshNames.Reserved ⟨"f", t.varNames, 0⟩ x :=
    fun x hx => .inl (mem_collectNames.mpr (.inr hx))
  unfold expandForeignKeys
  split
  · exact ⟨fun v => Iff.rfl, fun D _ _ m _ _ env => rfl⟩
  · refine ⟨fun v => ?_, fun D _ _ m hm href env => value_expandKeys hm href hreserved env⟩
    simp only [mem_freeVars, free_expandKeys]

/-- Rows of `S` refer to rows of `R` by a key of `R`, and to rows of `T` by two columns that are no
key. -/
def supplies : Facts :=
  ⟨[⟨"R", ["id"]⟩], [⟨"S", ["r"], "R", ["id"]⟩, ⟨"S", ["p", "q"], "T", ["a", "b"]⟩],
    [⟨"S", "r"⟩, ⟨"S", "p"⟩, ⟨"S", "q"⟩]⟩

/-- Two rows, which are their own columns: both are in `R` once and in `T` three times, and one of
them is in `S` twice. -/
def suppliedRows : Model Bool :=
  ⟨fun _ => false, fun _ d => d, fun _ _ => false,
    fun n d => if n = "R" then 1 else if n = "T" then 3 else 2 * d.toNat, fun _ _ => false,
    fun _ => rfl⟩

/-- `Sum{s}(S(s) * ||Sum{f0}(S(f0) * [f0.r = t.r])|| * not(S(null)))`. -/
def nestedSupplies : Term :=
  .sum [.var "s"] (.mul (.mul (.table "S" (.var "s"))
    (.squash (.sum [.var "f0"] (.mul (.table "S" (.var "f0"))
      (.eq (.attr (.var "f0") "r") (.attr (.var "t") "r"))))))
    (.not (.table "S" .null)))

/-- Two keys at three atoms, below a squash and a negation, where the first name for a new variable
is taken and the row of one atom is null. -/
theorem expandForeignKeys_sound_nested :
    (suppliedRows.Keyed supplies ∧ suppliedRows.Referential supplies) ∧
      (nestedSupplies.expandForeignKeys supplies).freeVars = [.var "t"] ∧
      (nestedSupplies.expandForeignKeys supplies).varNames
        = ["f0", "f1", "f2", "f3", "f4", "f5", "f6", "s", "t"] ∧
      (nestedSupplies.expandForeignKeys supplies).value suppliedRows (fun _ => true) = 2 := by
  have hkeyed : suppliedRows.Keyed supplies := ⟨by decide, by decide⟩
  have href : suppliedRows.Referential supplies := by
    unfold Model.Referential ForeignKey.Refers
    decide
  have hvalue : nestedSupplies.value suppliedRows (fun _ => true) = 2 := by decide
  refine ⟨⟨hkeyed, href⟩, by decide +kernel, by decide +kernel, ?_⟩
  rw [(expandForeignKeys_sound nestedSupplies supplies).2 Bool suppliedRows hkeyed href, hvalue]

end Term

end QueryRules
