import QueryRules.Proofs.JointTuples

/-!
# QueryRules — left joins keep every left row

A left join is the sum of two parts: the matching pairs, and the left rows without a match, padded
with null. For the second part the right side is copied, with new rows for its own. This module
shows that the sum counts as it should (`Denote.leftJoin_value`): over all rows of the right side, a
left row is counted once for each match, and once if there is none.
-/

namespace QueryRules

open List Walk

/-! ## Terms without summations -/

namespace Term

variable {x : String}

/-- No summation at any depth. -/
def sumless : Term → Bool
  | .table _ _ | .pred _ _ | .eq _ _ => true
  | .add l r | .mul l r => l.sumless && r.sumless
  | .not t | .squash t => t.sumless
  | .sum _ _ => false

/-- Without summations every variable is free. -/
theorem free_of_uses {t : Term} (ht : t.sumless = true) (h : t.uses (.var x) = true) :
    t.Free x := by
  induction t with
  | table n row | pred n args => exact h
  | eq l r => exact Bool.or_eq_true_iff.mp h
  | add l r ihl ihr | mul l r ihl ihr =>
    obtain ⟨hl, hr⟩ := Bool.and_eq_true_iff.mp ht
    exact (Bool.or_eq_true_iff.mp h).imp (ihl hl) (ihr hr)
  | not t ih | squash t ih => exact ih ht h
  | sum vars body => cases ht

variable {ts : List Term}

theorem sumless_foldl_mul {t : Term} (h : ∀ u ∈ t :: ts, u.sumless = true) :
    (ts.foldl .mul t).sumless = true := by
  induction ts generalizing t with
  | nil => exact h t mem_cons_self
  | cons u us ih =>
    refine ih fun v hv => ?_
    rcases mem_cons.mp hv with rfl | hv
    · exact Bool.and_eq_true_iff.mpr ⟨h t (by simp), h u (by simp)⟩
    · exact h v (by simp [hv])

theorem sumless_product (h : ∀ t ∈ ts, t.sumless = true) :
    (product ts).sumless = true := by
  cases ts with
  | nil => rfl
  | cons t ts => exact sumless_foldl_mul h

/-- A variable of a product is one of a factor. -/
theorem uses_foldl_mul {t : Term} (h : (ts.foldl .mul t).uses (.var x) = true) :
    ∃ u ∈ t :: ts, u.uses (.var x) = true := by
  induction ts generalizing t with
  | nil => exact ⟨t, mem_cons_self, h⟩
  | cons u us ih =>
    obtain ⟨v, hv, hx⟩ := ih h
    rcases mem_cons.mp hv with rfl | hv
    · rcases Bool.or_eq_true_iff.mp hx with hx | hx
      · exact ⟨t, by simp, hx⟩
      · exact ⟨u, by simp, hx⟩
    · exact ⟨v, by simp [hv], hx⟩

theorem uses_product? {p : Term} (hp : product? ts = some p)
    (h : p.uses (.var x) = true) : ∃ t ∈ ts, t.uses (.var x) = true := by
  cases ts with
  | nil => cases hp
  | cons t ts =>
    cases hp
    exact uses_foldl_mul h

theorem uses_product (h : (product ts).uses (.var x) = true) :
    ∃ t ∈ ts, t.uses (.var x) = true := by
  cases ts with
  | nil => simp [product, product?, unit, uses, Tuple.uses] at h
  | cons t ts => exact uses_foldl_mul h

theorem uses_sumOver {vars : List Tuple} {body : Term}
    (h : (sumOver vars body).uses (.var x) = true) : .var x ∈ vars ∨ body.uses (.var x) = true := by
  unfold sumOver at h
  split at h
  · exact .inr h
  · exact (Bool.or_eq_true_iff.mp h).imp_left of_decide_eq_true

end Term

namespace Denote

variable {owners : List (String × Tuple)}

variable {c : Condition}

theorem sumless_uninterpreted {t : Term} (h : uninterpreted owners c = .ok t) :
    t.sumless = true := by
  obtain ⟨args, -, h⟩ := bind_eq_ok.mp h
  cases h
  rfl

/-- A conjunct of a condition binds nothing. -/
theorem sumless_conjunctTerm {t : Term} (h : conjunctTerm owners c = .ok t) :
    t.sumless = true := by
  unfold conjunctTerm at h
  split at h
  · obtain ⟨l, -, h⟩ := bind_eq_ok.mp h
    obtain ⟨r, -, h⟩ := bind_eq_ok.mp h
    cases h
    rfl
  · obtain ⟨l, -, h⟩ := bind_eq_ok.mp h
    cases h
    rfl
  · obtain ⟨r, -, h⟩ := bind_eq_ok.mp h
    cases h
    rfl
  · split at h
    · obtain ⟨args, -, h⟩ := bind_eq_ok.mp h
      cases h
      rfl
    · exact sumless_uninterpreted h
  · exact sumless_uninterpreted h

/-- What holds of every factor that is made holds of all of them. -/
theorem forall_mem_mapM {α : Type} {P : Term → Prop} {as : List α}
    {f : α → Except DenoteError Term} {ts : List Term} (hf : ∀ a t, f a = .ok t → P t)
    (h : as.mapM f = .ok ts) : ∀ t ∈ ts, P t := by
  induction as generalizing ts with
  | nil =>
    cases h
    simp
  | cons a as ih =>
    rw [mapM_cons, bind_eq_ok] at h
    obtain ⟨t, ht, h⟩ := h
    obtain ⟨rest, hrest, h⟩ := bind_eq_ok.mp h
    cases h
    exact forall_mem_cons.mpr ⟨hf a t ht, ih hrest⟩

theorem sumless_filterTerm {t : Term} (h : filterTerm owners c = .ok t) :
    t.sumless = true := by
  obtain ⟨factors, hfactors, h⟩ := bind_eq_ok.mp h
  cases h
  exact Term.sumless_product (forall_mem_mapM (fun _ _ => sumless_conjunctTerm) hfactors)

theorem sumless_joinTerm {t : Term} (h : joinTerm owners c = .ok t) :
    t.sumless = true := by
  unfold joinTerm at h
  split at h
  · exact sumless_uninterpreted h
  · obtain ⟨factors, hfactors, h⟩ := bind_eq_ok.mp h
    cases h
    refine Term.sumless_product (forall_mem_mapM (fun pair u hu => ?_) hfactors)
    obtain ⟨l, -, hu⟩ := bind_eq_ok.mp hu
    obtain ⟨r, -, hu⟩ := bind_eq_ok.mp hu
    cases hu
    rfl

theorem sumless_itemTerms {pairs : List (Tuple × Item)} {eqs : List Term}
    (h : itemTerms owners pairs = .ok eqs) : ∀ t ∈ eqs, t.sumless = true := by
  induction pairs generalizing eqs with
  | nil =>
    cases h
    simp
  | cons pair pairs ih =>
    rw [itemTerms, bind_eq_ok] at h
    obtain ⟨t, -, h⟩ := h
    obtain ⟨rest, hrest, h⟩ := bind_eq_ok.mp h
    cases h
    exact forall_mem_cons.mpr ⟨rfl, ih hrest⟩

end Denote

/-! ## Names that are given out -/

namespace Walk

open Denote

variable {w w₁ w₂ : Walk} {opened : List Tuple} {x : String}

/-- The name of a row that was met, or of a row of a copy. The term of a plan uses no other names,
so the rows of a copy are new. -/
def Knows (w : Walk) (x : String) : Prop :=
  .var x ∈ w.metRows ∨ ∃ k < w.next, .var x = numberedRow k

theorem Knows.of_extends (h : w.Knows x) (hext : w.Extends w₁) : w₁.Knows x := by
  refine h.imp hext.mem_metRows fun hk => ?_
  obtain ⟨k, hk, heq⟩ := hk
  exact ⟨k, Nat.lt_of_lt_of_le hk hext.next, heq⟩

/-- Names with later numbers are not known. -/
theorem Sound.not_knows (hs : w.Sound opened) {k : Nat} (hk : w.next ≤ k)
    (hx : .var x = numberedRow k) : ¬ w.Knows x := by
  intro h
  have hnamed : .var x = rootRow ∨ ∃ j < w.next, .var x = numberedRow j :=
    h.elim (fun hmet => hs.named _ (mem_append_right _ hmet)) .inr
  rw [hx] at hnamed
  rcases hnamed with hroot | ⟨j, hj, heq⟩
  · exact numberedRow_ne_rootRow k hroot
  · have := numberedRow_inj heq
    omega

/-- A row that may be given out is not known. -/
theorem Sound.not_knows_of_gives (hs : w.Sound opened) (h : w.Gives w₁ (.var x)) :
    ¬ w.Knows x := by
  rcases h with ⟨k, hk, -, hx⟩ | ⟨hroot, hfirst, hx⟩
  · exact hs.not_knows hk hx
  · intro hknows
    rcases hknows with hmet | ⟨k, -, heq⟩
    · exact hfirst (hs.first hroot (hx ▸ hmet))
    · exact numberedRow_ne_rootRow k (heq.symm.trans hx)

theorem Sound.knows_of_reads (hs : w.Sound opened) {refs : List (String × String)}
    (h : Reads w.owners refs x) : w.Knows x :=
  .inl (h.mem hs.isVar_owners)

end Walk

variable {olds : List Tuple} {r : List Tuple × List Term × Term × Term} {cond rhs : Term}

namespace Denote

variable {p q : Plan} {u v : Bool} {w w' w₁ : Walk} {t : Term} {opened : List Tuple} {x : String}

theorem uses_dedup {distinct : Bool} : (dedup distinct t).uses (.var x) = t.uses (.var x) := by
  cases distinct <;> rfl

/-- What copying the rows of the right side does to names: the new rows have the numbers that come
next, and the old ones are gone. -/
theorem copyRows_uses
    (holds : ∀ old ∈ olds, old.isVar = true)
    (h : Runs (copyRows olds cond rhs) w r w') :
    (∀ new ∈ r.1, ∃ k, w.next ≤ k ∧ k < w'.next ∧ new = numberedRow k) ∧
      (r.2.2.1.uses (.var x) = true → (∃ k, w.next ≤ k ∧ k < w'.next ∧ .var x = numberedRow k) ∨
        (.var x ∉ olds ∧ cond.uses (.var x) = true)) ∧
      (r.2.2.2.uses (.var x) = true → (∃ k, w.next ≤ k ∧ k < w'.next ∧ .var x = numberedRow k) ∨
        (.var x ∉ olds ∧ rhs.uses (.var x) = true)) := by
  induction olds generalizing cond rhs w r with
  | nil =>
    obtain ⟨rfl, rfl⟩ := runs_pure.mp h
    exact ⟨by simp, fun hx => .inr ⟨by simp, hx⟩, fun hx => .inr ⟨by simp, hx⟩⟩
  | cons old olds ih =>
    obtain ⟨y, rfl⟩ := Tuple.exists_eq_var (holds old mem_cons_self)
    obtain ⟨new, w₁, hnew, h⟩ := runs_bind.mp h
    obtain ⟨s, w₂, hrest, h⟩ := runs_bind.mp h
    obtain ⟨rfl, rfl⟩ := runs_pure.mp h
    cases hnew
    have holds' : ∀ o ∈ olds, o.isVar = true := fun o ho => holds o (mem_cons_of_mem _ ho)
    have hnext : w.next < w'.next := by
      obtain ⟨rfl, -⟩ := copyRows_spec (x := "") holds' hrest
      show w.next < w.next + 1 + olds.length
      omega
    obtain ⟨hnews, hcond, hrhs⟩ := ih holds' hrest
    -- A variable of the copy is one of the later copies, the copy at hand, or an old variable.
    have hstep : ∀ {u : Term}, (∃ k, w.next + 1 ≤ k ∧ k < w'.next ∧ .var x = numberedRow k) ∨
        (.var x ∉ olds ∧ (u.subst (.var y) (numberedRow w.next)).uses (.var x) = true) →
        (∃ k, w.next ≤ k ∧ k < w'.next ∧ .var x = numberedRow k) ∨
          (.var x ∉ .var y :: olds ∧ u.uses (.var x) = true) := by
      intro u hx
      rcases hx with ⟨k, hk, hlt, heq⟩ | ⟨holdx, huses⟩
      · exact .inl ⟨k, by omega, hlt, heq⟩
      · rcases Term.uses_subst_var huses with rfl | ⟨hne, huses⟩
        · exact .inl ⟨w.next, Nat.le_refl _, hnext, rfl⟩
        · refine .inr ⟨fun hmem => ?_, huses⟩
          rcases mem_cons.mp hmem with heq | hmem
          · exact hne (Tuple.var.inj heq)
          · exact holdx hmem
    refine ⟨fun n hn => ?_, fun hx => hstep (hcond hx), fun hx => hstep (hrhs hx)⟩
    rcases mem_cons.mp hn with rfl | hn
    · exact ⟨w.next, Nat.le_refl _, hnext, rfl⟩
    · obtain ⟨k, hk, hlt, heq⟩ := hnews n hn
      exact ⟨k, Nat.le_of_succ_le hk, hlt, heq⟩

/-- The two parts of a left join: the matching pairs, and the left rows without a match. If the
right side has no rows, nothing is padded. -/
theorem leftJoinTerm_cases {cond lhs rhs : Term}
    (holds : ∀ old ∈ olds, old.isVar = true) (h : Runs (leftJoinTerm cond lhs rhs olds) w t w') :
    ∃ r padded, Runs (copyRows olds cond rhs) w r w' ∧
      t = .add (.mul (.mul cond lhs) rhs) (.mul lhs padded) ∧
      ((olds = [] ∧ padded = .not (.sumOver r.1 (.mul r.2.2.1 r.2.2.2))) ∨
        ∃ isNull, Term.product? (olds.map fun old => .eq old .null) = some isNull ∧
          padded = .mul isNull (.not (.sumOver r.1 (.mul r.2.2.1 r.2.2.2)))) := by
  unfold leftJoinTerm at h
  obtain ⟨r, w₁, hcopy, h⟩ := runs_bind.mp h
  obtain ⟨rfl, rfl⟩ := runs_pure.mp h
  obtain ⟨-, hnulls, -⟩ := copyRows_spec (x := "") holds hcopy
  cases olds with
  | nil =>
    refine ⟨r, _, hcopy, ?_, .inl ⟨rfl, rfl⟩⟩
    rw [hnulls]
    rfl
  | cons old olds =>
    refine ⟨r, _, hcopy, ?_, .inr ⟨_, rfl, rfl⟩⟩
    rw [hnulls]
    rfl

theorem extends_leftJoinTerm {cond lhs rhs : Term}
    (holds : ∀ old ∈ olds, old.isVar = true) (h : Runs (leftJoinTerm cond lhs rhs olds) w t w') :
    w.Extends w' := by
  obtain ⟨rfl, -⟩ := leftJoinTerm_spec holds h
  exact ⟨rfl, rfl, Nat.le_add_right _ _, ⟨[], by simp, by simp⟩, ⟨[], rfl, by simp⟩, .inl,
    fun _ => .inl⟩

/-- A left join uses the names of its parts, of the rows of the right side and of their copies. -/
theorem leftJoinTerm_knows {cond lhs rhs : Term} (hs : w.Sound opened)
    (holds : ∀ old ∈ olds, old ∈ w.scope.rows) (h : Runs (leftJoinTerm cond lhs rhs olds) w t w')
    (hparts : ∀ y, (cond.uses (.var y) = true ∨ lhs.uses (.var y) = true) ∨
      rhs.uses (.var y) = true → w.Knows y) (hx : t.uses (.var x) = true) : w'.Knows x := by
  have hvars : ∀ old ∈ olds, old.isVar = true := fun old hold => hs.isVar (holds old hold)
  have hext := extends_leftJoinTerm hvars h
  obtain ⟨r, padded, hcopy, rfl, hpadded⟩ := leftJoinTerm_cases hvars h
  obtain ⟨hnews, hcond, hrhs⟩ := copyRows_uses (x := x) hvars hcopy
  have hnumbered : (∃ k, w.next ≤ k ∧ k < w'.next ∧ .var x = numberedRow k) → w'.Knows x := by
    intro hk
    obtain ⟨k, -, hk, heq⟩ := hk
    exact .inr ⟨k, hk, heq⟩
  -- The negated part speaks of the copies, so its names are new ones or old ones.
  have hunmatched : (Term.not (.sumOver r.1 (.mul r.2.2.1 r.2.2.2))).uses (.var x) = true →
      w'.Knows x := by
    intro hx
    rcases Term.uses_sumOver hx with hmem | hx
    · exact hnumbered (hnews _ hmem)
    · rcases Bool.or_eq_true_iff.mp hx with hx | hx
      · exact (hcond hx).elim hnumbered fun hx => (hparts x (.inl (.inl hx.2))).of_extends hext
      · exact (hrhs hx).elim hnumbered fun hx => (hparts x (.inr hx.2)).of_extends hext
  have hnulls : ∀ old ∈ olds, (Term.eq old .null).uses (.var x) = true → w.Knows x := by
    intro old hold hx
    obtain ⟨y, rfl⟩ := Tuple.exists_eq_var (hvars old hold)
    have hyx : y = x := by simpa [Term.uses, Tuple.null, Tuple.uses] using hx
    exact .inl (hyx ▸ hs.owned _ (holds _ hold))
  simp only [Term.uses, Bool.or_eq_true] at hx
  rcases hx with hx | hx | hx
  · exact (hparts x hx).of_extends hext
  · exact (hparts x (.inl (.inr hx))).of_extends hext
  · rcases hpadded with ⟨-, rfl⟩ | ⟨isNull, hproduct, rfl⟩
    · exact hunmatched hx
    · rcases Bool.or_eq_true_iff.mp hx with hx | hx
      · obtain ⟨e, he, hx⟩ := Term.uses_product? hproduct hx
        obtain ⟨old, hold, rfl⟩ := mem_map.mp he
        exact (hnulls old hold hx).of_extends hext
      · exact hunmatched hx

/-- The joints of a projection read rows that were met. -/
theorem mem_metRows_of_joints {items : List Item} {aliasName : String} {joints : List Tuple}
    (hs : w.Sound opened) (h : Runs (jointsFor items aliasName) w joints w')
    (hx : Tuple.anyUses joints (.var x) = true) : .var x ∈ w'.metRows := by
  obtain ⟨side, hside, hx⟩ := anyUses_iff.mp hx
  rcases jointsFor_cases h with ⟨hj, -, rfl⟩ | ⟨-, pivot, hnew, rfl⟩
  · exact hs.joints _ hj side hside x hx
  · obtain ⟨item, -, rfl⟩ := mem_map.mp hside
    have hmem := newRow_mem hnew
    obtain ⟨y, rfl⟩ := Tuple.exists_eq_var ((hs.of_extends (.newRow hnew)).isVar hmem.1)
    have hyx : y = x := by simpa [Tuple.uses_project_var, Tuple.uses] using hx
    exact hyx ▸ hmem.2

/-- **The term of a plan uses known names only.** -/
theorem Walks.knows (h : Walks p u w t w') (hs : w.Sound opened) (hx : t.uses (.var x) = true) :
    w'.Knows x := by
  induction h generalizing opened x with
  | input hrow =>
    have hmem := newRow_mem hrow
    obtain ⟨y, rfl⟩ := Tuple.exists_eq_var ((hs.of_extends (.newRow hrow)).isVar hmem.1)
    have hyx : y = x := by simpa [Term.uses, Tuple.uses] using hx
    exact .inl (hyx ▸ hmem.2)
  | @proj p items distinct u aliasName w w₁ w₂ joints t eqs hjoints hp heqs ih =>
    have hs₁ := hs.of_extends (.jointsFor hjoints)
    have hext := hp.extends hs₁.enter
    have hs₂ := hs₁.enter.of_extends hext
    rw [uses_dedup] at hx
    -- A name of a projection is bound by it, met below it, or read by an item.
    show w₂.Knows x
    rcases Term.uses_sumOver hx with hmem | hx
    · exact .inl (hs₂.owned _ hmem)
    · obtain ⟨e, he, huses⟩ := Term.uses_product hx
      rcases mem_cons.mp he with rfl | he
      · exact ih hs₁.enter huses
      · have hfree := Term.free_of_uses (sumless_itemTerms heqs e he) huses
        rcases (free_eqs hjoints heqs).mp ⟨e, he, hfree⟩ with hx | hx
        · have hmet : .var x ∈ w₁.metRows := mem_metRows_of_joints hs hjoints hx
          exact .inl (hext.mem_metRows hmet)
        · exact hs₂.knows_of_reads hx
  | filter hp hcond ih =>
    rcases Bool.or_eq_true_iff.mp hx with hx | hx
    · have hfree := Term.free_of_uses (sumless_filterTerm hcond) hx
      exact (hp.sound hs).knows_of_reads ((free_filterTerm hcond).mp hfree)
    · exact ih hs hx
  | inSub hne hp hlhs hq ihp ihq =>
    have hs₁ := (hp.sound hs).handing_tuplesOf hlhs
    rcases Bool.or_eq_true_iff.mp hx with hx | hx
    · exact (ihp hs hx).of_extends (hq.extends hs₁).handing
    · exact ihq hs₁ hx
  | «exists» hp hq ihp ihq =>
    have hs₁ : (handing _ (some [])).Sound opened :=
      (hp.sound hs).handing (by simp)
    rcases Bool.or_eq_true_iff.mp hx with hx | hx
    · exact (ihp hs hx).of_extends (hq.extends hs₁).handing
    · exact ihq hs₁ hx
  | crossJoin hkind hl hr ihl ihr =>
    have hs₁ := hl.sound hs
    rcases Bool.or_eq_true_iff.mp hx with hx | hx
    · exact (ihl hs hx).of_extends (hr.extends hs₁)
    · exact ihr hs₁ hx
  | innerJoin hkind hl hr hcond ihl ihr =>
    have hs₁ := hl.sound hs
    have hs₂ := hr.sound hs₁
    rcases Bool.or_eq_true_iff.mp hx with hx | hx
    · rcases Bool.or_eq_true_iff.mp hx with hx | hx
      · have hfree := Term.free_of_uses (sumless_joinTerm hcond) hx
        exact hs₂.knows_of_reads ((free_joinTerm hcond).mp hfree)
      · exact (ihl hs hx).of_extends (hr.extends hs₁)
    · exact ihr hs₁ hx
  | leftJoin hl hr hcond hcopy ihl ihr =>
    have hs₁ := hl.sound hs
    have hs₂ := hr.sound hs₁
    -- The copies are made after both sides and the condition.
    refine leftJoinTerm_knows hs₂ (fun old hold => mem_of_mem_drop hold) hcopy ?_ hx
    intro y hy
    rcases hy with (hy | hy) | hy
    · have hfree := Term.free_of_uses (sumless_joinTerm hcond) hy
      exact hs₂.knows_of_reads ((free_joinTerm hcond).mp hfree)
    · exact (ihl hs hy).of_extends (hr.extends hs₁)
    · exact ihr hs₁ hy
  | innerUnion hl hr ihl ihr =>
    have hs₁ := hl.sound hs
    rw [uses_dedup] at hx
    rcases Bool.or_eq_true_iff.mp hx with hx | hx
    · exact (ihl hs hx).of_extends (hr.extends hs₁)
    · exact ihr hs₁ hx
  | outerUnion hjoint hl hr ihl ihr =>
    have hs₁ := hs.handing_newRow hjoint
    have hs₂ := hl.sound (hs₁ _)
    rw [uses_dedup] at hx
    rcases Bool.or_eq_true_iff.mp hx with hx | hx
    · have hknows := (ihl (hs₁ _) hx).of_extends (hr.extends hs₂)
      exact hknows
    · exact ihr hs₂ hx
  | sort hp ih | limit hp ih => exact ih hs hx

end Denote

/-! ## Rows that a walk adds -/

namespace Walk

open Denote

variable {w w₁ w₂ : Walk} {opened : List Tuple}

/-- The rows that were added to the scope at hand. They are distinct, so exactly one choice of rows
is null throughout. -/
def newRows (w w' : Walk) : List Tuple :=
  w'.scope.rows.drop w.scope.rows.length

theorem newRows_of_append {news : List Tuple} (h : w₁.scope.rows = w.scope.rows ++ news) :
    w.newRows w₁ = news := by
  rw [newRows, h, drop_left]

theorem Extends.rows_eq (h : w.Extends w₁) : w₁.scope.rows = w.scope.rows ++ w.newRows w₁ := by
  obtain ⟨news, hrows, -⟩ := h.rows
  rw [newRows_of_append hrows, hrows]

theorem Extends.gives_newRows (h : w.Extends w₁) : ∀ row ∈ w.newRows w₁, w.Gives w₁ row := by
  obtain ⟨news, hrows, hgives⟩ := h.rows
  rwa [newRows_of_append hrows]

/-- Rows that are added later differ from those of the scope. -/
theorem Sound.not_mem_rows_of_gives (hs : w.Sound opened) {row : Tuple} (h : w.Gives w₁ row) :
    row ∉ w.scope.rows := by
  intro hmem
  obtain ⟨x, rfl⟩ := Tuple.exists_eq_var (hs.isVar hmem)
  exact hs.not_knows_of_gives h (.inl (hs.owned _ hmem))

/-- New rows are distinct if those of both parts of a walk are. -/
theorem nodup_newRows_trans (hs : w₁.Sound opened) (h₁ : w.Extends w₁) (h₂ : w₁.Extends w₂)
    (hnodup₁ : (w.newRows w₁).Nodup) (hnodup₂ : (w₁.newRows w₂).Nodup) :
    (w.newRows w₂).Nodup := by
  have hrows : w₂.scope.rows = w.scope.rows ++ (w.newRows w₁ ++ w₁.newRows w₂) := by
    rw [h₂.rows_eq, h₁.rows_eq, append_assoc]
  rw [newRows_of_append hrows]
  refine hnodup₁.append hnodup₂ fun row hrow hnew => ?_
  refine hs.not_mem_rows_of_gives (h₂.gives_newRows row hnew) ?_
  rw [h₁.rows_eq]
  exact mem_append_right _ hrow

theorem nodup_newRows_newRow {owner : String} {row : Tuple} (h : Runs (newRow owner) w row w₁) :
    (w.newRows w₁).Nodup := by
  have hrows : w₁.scope.rows = w.scope.rows ++ [row] := by
    rcases newRow_cases h with ⟨-, -, -, rfl⟩ | ⟨-, -, rfl⟩ <;> rfl
  rw [newRows_of_append hrows]
  exact nodup_singleton row

theorem nodup_newRows_self (h : w₁.scope.rows = w.scope.rows) : (w.newRows w₁).Nodup := by
  have hrows : w₁.scope.rows = w.scope.rows ++ [] := by rw [h, append_nil]
  rw [newRows_of_append hrows]
  exact nodup_nil

end Walk

namespace Denote

variable {p q : Plan} {u v : Bool} {w w' : Walk} {t : Term} {opened : List Tuple}

/-- **A walk adds distinct rows.** -/
theorem Walks.nodup_newRows (h : Walks p u w t w') (hs : w.Sound opened) :
    (w.newRows w').Nodup := by
  induction h generalizing opened with
  | input hrow => exact nodup_newRows_newRow hrow
  | proj hjoints hp heqs ih =>
    -- The rows of the inner scope are gone, so only the row of the projection itself is new.
    rcases jointsFor_cases hjoints with ⟨-, -, rfl⟩ | ⟨-, pivot, hnew, -⟩
    · exact nodup_newRows_self rfl
    · have hnodup := nodup_newRows_newRow hnew
      exact hnodup
  | filter hp hcond ih => exact ih hs
  | inSub hne hp hlhs hq ihp ihq =>
    have hs₁ := hp.sound hs
    have hs₂ := hs₁.handing_tuplesOf hlhs
    exact nodup_newRows_trans hs₁ (hp.extends hs) (hq.extends hs₂).handing (ihp hs) (ihq hs₂)
  | «exists» hp hq ihp ihq =>
    have hs₁ := hp.sound hs
    have hs₂ : (handing _ (some [])).Sound opened := hs₁.handing (by simp)
    exact nodup_newRows_trans hs₁ (hp.extends hs) (hq.extends hs₂).handing (ihp hs) (ihq hs₂)
  | crossJoin hkind hl hr ihl ihr | innerJoin hkind hl hr hcond ihl ihr =>
    have hs₁ := hl.sound hs
    exact nodup_newRows_trans hs₁ (hl.extends hs) (hr.extends hs₁) (ihl hs) (ihr hs₁)
  | leftJoin hl hr hcond hcopy ihl ihr =>
    have hs₁ := hl.sound hs
    have hs₂ := hr.sound hs₁
    obtain ⟨rfl, -⟩ := leftJoinTerm_spec
      (fun row hrow => hs₂.isVar (mem_of_mem_drop hrow)) hcopy
    have hnodup := nodup_newRows_trans hs₁ (hl.extends hs) (hr.extends hs₁) (ihl hs) (ihr hs₁)
    exact hnodup
  | innerUnion hl hr ihl ihr =>
    have hs₁ := hl.sound hs
    exact nodup_newRows_trans hs₁ (hl.extends hs) (hr.extends hs₁) (ihl hs) (ihr hs₁)
  | outerUnion hjoint hl hr ihl ihr =>
    have hs₁ := hs.of_extends (.newRow hjoint)
    have hs₂ := hs₁.handing_project (newRow_mem hjoint).2
    have hs₃ := (hs₂ _).of_extends (hl.extends (hs₂ _))
    have hext := (hl.extends (hs₂ _)).trans (hr.extends hs₃)
    have hnodup := nodup_newRows_trans hs₃ (hl.extends (hs₂ _)) (hr.extends hs₃)
      (ihl (hs₂ _)) (ihr hs₃)
    exact nodup_newRows_trans hs₁ (.newRow hjoint) hext.handing
      (nodup_newRows_newRow hjoint) hnodup
  | sort hp ih | limit hp ih => exact ih hs

/-- Every node is reached by a sound walk. -/
theorem Reaches.sound {w₁ : Walk} (h : Reaches p u w q v w₁) (hs : w.Sound opened) :
    ∃ opened', w₁.Sound opened' := by
  induction h generalizing opened with
  | here => exact ⟨opened, hs⟩
  | proj hjoints h ih => exact ih (hs.of_extends (.jointsFor hjoints)).enter
  | filter h ih | inSubInput h ih => exact ih hs
  | inSubQuery hp hlhs h ih => exact ih ((hp.sound hs).handing_tuplesOf hlhs)
  | existsInput h ih => exact ih hs
  | existsQuery hp h ih => exact ih ((hp.sound hs).handing (by simp))
  | joinLeft h ih => exact ih hs
  | joinRight hl h ih => exact ih (hl.sound hs)
  | innerUnionLeft h ih => exact ih hs
  | innerUnionRight hl h ih => exact ih (hl.sound hs)
  | outerUnionLeft hjoint h ih =>
    exact ih (hs.handing_newRow hjoint _)
  | outerUnionRight hjoint hl h ih =>
    have hs₁ := hs.handing_newRow hjoint
    exact ih (hl.sound (hs₁ _))
  | sort h ih | limit h ih => exact ih hs

end Denote

/-! ## Values -/

/-- The rows that are to be copied are variables, and the names that come next are not in use. -/
structure Denote.Copyable (w : Walk) (olds : List Tuple) (cond rhs : Term) : Prop where
  vars : ∀ old ∈ olds, old.isVar = true
  rows : ∀ k, w.next ≤ k → numberedRow k ∉ olds
  cond : ∀ k, w.next ≤ k → cond.uses (numberedRow k) = false
  rhs : ∀ k, w.next ≤ k → rhs.uses (numberedRow k) = false

/-- After a row is copied, the other ones can be. -/
theorem Denote.Copyable.step {w : Walk} {y : String}
    (h : Copyable w (.var y :: olds) cond rhs) :
    Copyable { w with next := w.next + 1 } olds (cond.subst (.var y) (numberedRow w.next))
      (rhs.subst (.var y) (numberedRow w.next)) := by
  have hlater : ∀ {u : Term}, (∀ k, w.next ≤ k → u.uses (numberedRow k) = false) →
      ∀ k, w.next + 1 ≤ k →
        (u.subst (.var y) (numberedRow w.next)).uses (numberedRow k) = false := by
    intro u hu k hk
    rw [Bool.eq_false_iff]
    intro huses
    rcases Term.uses_subst_var huses with heq | ⟨-, huses⟩
    · have := numberedRow_inj (congrArg Tuple.var heq)
      omega
    · exact Bool.eq_false_iff.mp (hu k (by omega)) huses
  exact ⟨fun o ho => h.vars o (mem_cons_of_mem _ ho),
    fun k hk hmem => h.rows k (Nat.le_of_succ_le hk) (mem_cons_of_mem _ hmem),
    hlater h.cond, hlater h.rhs⟩

section Values

open Denote

variable {D : Type*} [Fintype D] [DecidableEq D] (m : Model D)

/-- There is exactly one choice of rows that are all null. -/
theorem Env.sumBinders_null {rows : List Tuple} (hvars : ∀ row ∈ rows, row.isVar = true)
    (hnodup : rows.Nodup) (env : Env D) :
    sumBinders rows (fun e => ((rows.map fun row => Term.eq row .null).map (·.value m e)).prod)
      env = 1 := by
  induction rows generalizing env with
  | nil => rfl
  | cons row rows ih =>
    obtain ⟨x, rfl⟩ := Tuple.exists_eq_var (hvars row mem_cons_self)
    obtain ⟨hnew, hnodup⟩ := nodup_cons.mp hnodup
    have hvars' : ∀ row ∈ rows, row.isVar = true := fun r hr => hvars r (mem_cons_of_mem _ hr)
    -- The other rows have no influence on the equality for the first one.
    have hignores : ∀ v ∈ rows, ∀ (e : Env D) (d : D),
        (Term.eq (.var x) .null).value m (e.bind v d) = (Term.eq (.var x) .null).value m e := by
      intro v hv e d
      obtain ⟨y, rfl⟩ := Tuple.exists_eq_var (hvars' v hv)
      have hne : x ≠ y := fun hxy => hnew (hxy ▸ hv)
      exact Term.value_bind_of_not_uses m (by simp [Term.uses, Tuple.null, Tuple.uses, hne]) e d
    have hrest : ∀ e : Env D, sumBinders rows
        (fun e => (((Tuple.var x :: rows).map fun row => Term.eq row .null).map (·.value m e)).prod)
          e = (Term.eq (.var x) .null).value m e := by
      intro e
      simp only [map_cons, prod_cons]
      rw [← Nat.one_mul ((Term.eq (.var x) .null).value m e), ← ih hvars' hnodup e,
        ← sumBinders_mul rows _ _ hignores e]
      simp only [Nat.mul_comm]
    calc sumBinders (.var x :: rows) _ env
        = ∑ d, (Term.eq (.var x) .null).value m (env.bind (.var x) d) :=
          Finset.sum_congr rfl fun d _ => hrest _
      _ = ∑ d, if d = m.const "null" then 1 else 0 := by
          simp [Term.value, Tuple.value, Tuple.null, bind]
      _ = 1 := by simp

/-- **The copy counts as the original**, summed over the new rows in the place of the old ones. -/
theorem Denote.copyRows_value {w w' : Walk}
    (hcopyable : Copyable w olds cond rhs)
    (h : Runs (copyRows olds cond rhs) w r w') (env : Env D) :
    Env.sumBinders r.1 ((Term.mul r.2.2.1 r.2.2.2).value m) env
      = Env.sumBinders olds ((Term.mul cond rhs).value m) env := by
  induction olds generalizing cond rhs w r env with
  | nil =>
    obtain ⟨rfl, rfl⟩ := runs_pure.mp h
    rfl
  | cons old olds ih =>
    obtain ⟨y, rfl⟩ := Tuple.exists_eq_var (hcopyable.vars old mem_cons_self)
    obtain ⟨new, w₁, hnew, h⟩ := runs_bind.mp h
    obtain ⟨s, w₂, hrest, h⟩ := runs_bind.mp h
    obtain ⟨rfl, rfl⟩ := runs_pure.mp h
    cases hnew
    have hcopied := ih hcopyable.step hrest
    have hrows := hcopyable.rows w.next (Nat.le_refl _)
    have hne : numberedRow w.next ≠ .var y := fun heq => hrows (heq ▸ mem_cons_self)
    have hbody : (Term.mul cond rhs).uses (numberedRow w.next) = false := by
      rw [Term.uses, hcopyable.cond _ (Nat.le_refl _), hcopyable.rhs _ (Nat.le_refl _)]
      rfl
    -- The rest is copied by induction, then the first row is renamed.
    calc Env.sumBinders (numberedRow w.next :: s.1) ((Term.mul s.2.2.1 s.2.2.2).value m) env
        = ∑ d, Env.sumBinders olds
            (((Term.mul cond rhs).subst (.var y) (numberedRow w.next)).value m)
            (env.bind (numberedRow w.next) d) := Finset.sum_congr rfl fun d _ => hcopied _
      _ = ∑ d, Env.sumBinders olds ((Term.mul cond rhs).value m) (env.bind (.var y) d) :=
          Env.sumBinders_rename m (fun heq => hne (congrArg Tuple.var heq.symm)) hbody olds
            (fun hmem => hrows (mem_cons_of_mem _ hmem)) env

/-- The old rows have no influence on the copy. -/
theorem Denote.value_bind_unmatched {w w' : Walk}
    (hcopyable : Copyable w olds cond rhs)
    (h : Runs (copyRows olds cond rhs) w r w') :
    ∀ v ∈ olds, ∀ (e : Env D) (d : D),
      (Term.not (.sumOver r.1 (.mul r.2.2.1 r.2.2.2))).value m (e.bind v d)
        = (Term.not (.sumOver r.1 (.mul r.2.2.1 r.2.2.2))).value m e := by
  intro v hv e d
  obtain ⟨x, rfl⟩ := Tuple.exists_eq_var (hcopyable.vars v hv)
  refine Term.value_bind_of_not_uses m ?_ e d
  rw [Bool.eq_false_iff]
  intro hx
  obtain ⟨hnews, hcond, hrhs⟩ := copyRows_uses (x := x) hcopyable.vars h
  have hnumbered : ¬ ∃ k, w.next ≤ k ∧ k < w'.next ∧ .var x = numberedRow k := by
    intro hk
    obtain ⟨k, hk, -, heq⟩ := hk
    exact hcopyable.rows k hk (heq ▸ hv)
  rcases Term.uses_sumOver hx with hmem | hx
  · exact hnumbered (hnews _ hmem)
  · rcases Bool.or_eq_true_iff.mp hx with hx | hx
    · exact (hcond hx).elim hnumbered fun hold => hold.1 hv
    · exact (hrhs hx).elim hnumbered fun hold => hold.1 hv

/-- **A left join counts a left row once for each match, and once if there is none.** -/
theorem Denote.leftJoinTerm_value {w w' : Walk} {cond lhs rhs t : Term}
    (hcopyable : Copyable w olds cond rhs) (hnodup : olds.Nodup)
    (hlhs : ∀ old ∈ olds, lhs.uses old = false) (h : Runs (leftJoinTerm cond lhs rhs olds) w t w')
    (env : Env D) :
    Env.sumBinders olds (t.value m) env = lhs.value m env *
      max 1 (Env.sumBinders olds (fun e => cond.value m e * rhs.value m e) env) := by
  obtain ⟨r, padded, hcopy, rfl, hpadded⟩ := leftJoinTerm_cases hcopyable.vars h
  have hunmatched : ∀ e : Env D, (Term.not (.sumOver r.1 (.mul r.2.2.1 r.2.2.2))).value m e
      = if Env.sumBinders olds (fun e => cond.value m e * rhs.value m e) e = 0 then 1 else 0 := by
    intro e
    rw [Term.value, Term.value_sumOver, copyRows_value m hcopyable hcopy e]
    rfl
  -- The padding is there for exactly one choice of rows.
  have hpadding : Env.sumBinders olds (padded.value m) env
      = (Term.not (.sumOver r.1 (.mul r.2.2.1 r.2.2.2))).value m env := by
    rcases hpadded with ⟨rfl, rfl⟩ | ⟨isNull, hproduct, rfl⟩
    · rfl
    · have hnull : Env.sumBinders olds (isNull.value m) env = 1 := by
        have hvalue : isNull.value m = _ := funext fun e => Term.value_product? m e hproduct
        rw [hvalue]
        exact Env.sumBinders_null m hcopyable.vars hnodup env
      have hout := Env.sumBinders_mul olds (isNull.value m) _
        (value_bind_unmatched m hcopyable hcopy) env
      rw [hnull, Nat.one_mul] at hout
      exact hout
  have hleft : ∀ v ∈ olds, ∀ (e : Env D) (d : D), lhs.value m (e.bind v d) = lhs.value m e := by
    intro v hv e d
    obtain ⟨x, rfl⟩ := Tuple.exists_eq_var (hcopyable.vars v hv)
    exact Term.value_bind_of_not_uses m (hlhs _ hv) e d
  have hparts : (Term.add (.mul (.mul cond lhs) rhs) (.mul lhs padded)).value m
      = fun e => (cond.value m e * rhs.value m e + padded.value m e) * lhs.value m e := by
    funext e
    simp only [Term.value]
    ring
  rw [hparts, Env.sumBinders_mul olds _ _ hleft, Env.sumBinders_add, hpadding, hunmatched,
    Nat.mul_comm]
  congr 1
  split
  · next hzero =>
    rw [hzero]
    rfl
  · next hpos => omega

end Values

/-- **A left join keeps every left row.** Wherever in a plan a left join with a condition is
translated, its parts were: the left side, the right side after it, and the condition with the rows
of both. Over all values of the rows that the right side adds to the scope at hand, the term of the
join counts a left row as often as it has matches, and once if it has none. -/
theorem Denote.leftJoin_value {p l r : Plan} {c : Condition} {u : Bool} {w w' : Walk} {t : Term}
    (hreach : Reaches p false .start (.join .left l r (some c)) u w)
    (h : Runs (ofPlan (.join .left l r (some c)) u) w t w') :
    ∃ w₁ w₂ lhs rhs cond, Runs (ofPlan l false) w lhs w₁ ∧ Runs (ofPlan r false) w₁ rhs w₂ ∧
      joinTerm w₂.owners c = .ok cond ∧
      ∀ {D : Type*} [Fintype D] [DecidableEq D] (m : Model D) (env : Env D),
        Env.sumBinders (w₂.scope.rows.drop w₁.scope.rows.length) (t.value m) env
          = lhs.value m env * max 1 (Env.sumBinders (w₂.scope.rows.drop w₁.scope.rows.length)
              (fun e => cond.value m e * rhs.value m e) env) := by
  obtain ⟨opened, hs⟩ := hreach.sound sound_start
  cases walks_of_runs h with
  | innerJoin hkind hl hr hcond => exact absurd rfl hkind.2
  | @leftJoin _ _ _ _ _ w₁ w₂ _ lhs rhs cond _ hl hr hcond hcopy =>
    have hs₁ := hl.sound hs
    have hext := hr.extends hs₁
    have hs₂ := hs₁.of_extends hext
    -- What is numbered from here on occurs in no term made so far.
    have hlater : ∀ {v : Term}, (∀ x, v.uses (.var x) = true → w₂.Knows x) →
        ∀ k, w₂.next ≤ k → v.uses (numberedRow k) = false := by
      intro v hv k hk
      rw [Bool.eq_false_iff]
      exact fun huses => hs₂.not_knows hk rfl (hv _ huses)
    have hcondKnows : ∀ x, cond.uses (.var x) = true → w₂.Knows x := fun x hx =>
      hs₂.knows_of_reads
        ((free_joinTerm hcond).mp (Term.free_of_uses (sumless_joinTerm hcond) hx))
    have hcopyable : Copyable w₂ (w₁.newRows w₂) cond rhs :=
      { vars := fun row hrow => hs₂.isVar (mem_of_mem_drop hrow)
        rows := fun k hk hmem =>
          hs₂.not_knows hk rfl (.inl (hs₂.owned _ (mem_of_mem_drop hmem)))
        cond := hlater hcondKnows
        rhs := hlater fun x hx => hr.knows hs₁ hx }
    -- The left side was made before there were the rows of the right side.
    have hlhs : ∀ row ∈ w₁.newRows w₂, lhs.uses row = false := by
      intro row hrow
      obtain ⟨x, rfl⟩ := Tuple.exists_eq_var (hcopyable.vars row hrow)
      rw [Bool.eq_false_iff]
      exact fun huses => hs₁.not_knows_of_gives (hext.gives_newRows _ hrow) (hl.knows hs huses)
    refine ⟨w₁, w₂, lhs, rhs, cond, runs_of_walks hl, runs_of_walks hr, hcond, ?_⟩
    intro D _ _ m env
    exact leftJoinTerm_value m hcopyable (hr.nodup_newRows hs₁) hlhs hcopy env

/-- `S s LEFT JOIN Q q ON s.b = q.b`. -/
def Plan.optionalMatch : Plan :=
  .join .left (.input "S" "s" ["a", "b"]) (.input "Q" "q" ["b"])
    (some (.eq (.column "s" "b") (.column "q" "b")))

/-- `R r LEFT JOIN (S s LEFT JOIN Q q ON s.b = q.b) ON r.a = s.a`. -/
def Plan.nestedMatch : Plan :=
  .join .left (.input "R" "r" ["a"]) .optionalMatch
    (some (.eq (.column "r" "a") (.column "s" "a")))

/-- `[s.b = q.b] * [NotNull(q.b)] * S(s) * Q(q)
+ S(s) * ([q = null] * not(Sum{c}([s.b = c.b] * [NotNull(c.b)] * Q(c))))`. -/
def Denote.optionalTerm (s q c : Tuple) : Term :=
  .add (.mul (.mul (nullSafeEq (.attr s "b") (.attr q "b")) (.table "S" s)) (.table "Q" q))
    (.mul (.table "S" s) (.mul (.eq q .null)
      (.not (.sum [c] (.mul (nullSafeEq (.attr s "b") (.attr c "b")) (.table "Q" c))))))

/-- In a projection, a left join whose right side is a left join: two rows are copied, together with
the copy that is already there. -/
theorem Denote.leftJoin_value_nested :
    ∃ w w' t, Reaches (.proj .nestedMatch [⟨.column "r" "a", "a"⟩] false "v") false .start
        .nestedMatch false w ∧
      Runs (ofPlan .nestedMatch false) w t w' ∧
      ∀ {D : Type} [Fintype D] [DecidableEq D] (m : Model D) (env : Env D),
        Env.sumBinders [numberedRow 1, numberedRow 2] (t.value m) env
          = (Term.table "R" (numberedRow 0)).value m env *
            max 1 (Env.sumBinders [numberedRow 1, numberedRow 2] (fun e =>
              (nullSafeEq (.attr (numberedRow 0) "a") (.attr (numberedRow 1) "a")).value m e *
                (optionalTerm (numberedRow 1) (numberedRow 2) (numberedRow 3)).value m e) env) := by
  have hreach : Reaches (.proj .nestedMatch [⟨.column "r" "a", "a"⟩] false "v") false .start
      .nestedMatch false (start.bindRow "v" rootRow).enter := .proj rfl .here
  have hruns : Runs (ofPlan .nestedMatch false) (start.bindRow "v" rootRow).enter _ _ := rfl
  obtain ⟨w₁, w₂, lhs, rhs, cond, hl, hr, hcond, hvalue⟩ := leftJoin_value.{0} hreach hruns
  have hl' : Runs (ofPlan (.input "R" "r" ["a"]) false) (start.bindRow "v" rootRow).enter
      (.table "R" (numberedRow 0))
      ⟨⟨false, [numberedRow 0], none⟩, [("r", numberedRow 0), ("v", rootRow)], 1⟩ := rfl
  obtain ⟨rfl, rfl⟩ := hl'.unique hl
  have hr' : Runs (ofPlan .optionalMatch false)
      ⟨⟨false, [numberedRow 0], none⟩, [("r", numberedRow 0), ("v", rootRow)], 1⟩
      (optionalTerm (numberedRow 1) (numberedRow 2) (numberedRow 3))
      ⟨⟨false, [numberedRow 0, numberedRow 1, numberedRow 2], none⟩,
        [("q", numberedRow 2), ("s", numberedRow 1), ("r", numberedRow 0), ("v", rootRow)], 4⟩ :=
    rfl
  obtain ⟨rfl, rfl⟩ := hr'.unique hr
  obtain rfl := Except.ok.inj hcond
  exact ⟨_, _, _, hreach, hruns, hvalue⟩

end QueryRules
