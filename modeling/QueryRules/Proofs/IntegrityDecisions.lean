import Mathlib.Data.List.Zip
import QueryRules.Proofs.SearchBounds

/-!
# QueryRules — decisions on integrity constraints agree

The integrity constraints of one kind are decided one after the other, and what was decided before
can force a later decision. This module says what the decisions come to as a whole.
-/

namespace QueryRules

open List

namespace Choice

variable {c : Choice} {kind : ConstraintKind} {earlier : List (Constraint × Bool)}
  {e e₁ e₂ e₃ : Constraint}

/-! ## Equal symbols -/

theorem isEq_iff {a b : Symbol} : c.isEq a b = true ↔
    a = b ∨ (a.kind = b.kind ∧ ∃ i, c.blocks.lookup a = some i ∧ c.blocks.lookup b = some i) := by
  unfold isEq
  rw [Bool.or_eq_true, Bool.and_eq_true, decide_eq_true_eq, decide_eq_true_eq]
  refine or_congr Iff.rfl (and_congr_right fun _ => ?_)
  cases ha : c.blocks.lookup a with
  | none => simp
  | some i =>
    cases hb : c.blocks.lookup b with
    | none => simp
    | some j => simp [eq_comm]

theorem isEq_refl (c : Choice) (a : Symbol) : c.isEq a a = true :=
  isEq_iff.mpr (.inl rfl)

theorem isEq_trans {a b d : Symbol} (hab : c.isEq a b = true) (hbd : c.isEq b d = true) :
    c.isEq a d = true := by
  rw [isEq_iff] at hab hbd ⊢
  rcases hab with rfl | ⟨hkind, i, ha, hb⟩
  · exact hbd
  rcases hbd with rfl | ⟨hkind', j, hb', hd⟩
  · exact .inr ⟨hkind, i, ha, hb⟩
  -- both blocks are that of `b`
  have hij : i = j := Option.some.inj (hb.symm.trans hb')
  exact .inr ⟨hkind.trans hkind', i, ha, hij ▸ hd⟩

/-! ## Constraints about equal attribute lists

The relation compares attribute lists by their place in the constraint, so it is an equivalence
relation only among constraints with the same number of places. -/

theorem alike_symm (h : c.alike e₁ e₂ = true) : c.alike e₂ e₁ = true := by
  unfold alike at h ⊢
  rw [all_eq_true] at h ⊢
  rintro ⟨⟨t₂, b⟩, ⟨t₁, a⟩⟩ hmem
  have hswap : ((t₁, a), (t₂, b)) ∈ (columnsOf e₁).zip (columnsOf e₂) := by
    rw [← zip_swap]
    exact mem_map_of_mem hmem
  show c.isEq b a = true
  rw [isEq_comm]
  exact h _ hswap

theorem alike_trans (h₁₂ : e₁.kind = e₂.kind) (h₂₃ : e₂.kind = e₃.kind)
    (h : c.alike e₁ e₂ = true) (h' : c.alike e₂ e₃ = true) : c.alike e₁ e₃ = true := by
  cases e₁ <;> cases e₂ <;> cases h₁₂ <;> cases e₃ <;> cases h₂₃ <;>
    simp only [alike, columnsOf, zip_cons_cons, zip_nil_right, all_cons,
      all_nil, Bool.and_true, Bool.and_eq_true] at h h' ⊢
  · exact isEq_trans h h'
  · exact isEq_trans h h'
  · exact ⟨isEq_trans h.1 h'.1, isEq_trans h.2 h'.2⟩

/-- A reference that is about the same attribute lists as a trivial one is trivial. -/
theorem isTrivialReference_of_alike (hkind : e₁.kind = e₂.kind) (h : c.alike e₁ e₂ = true)
    (htriv : c.isTrivialReference e₁ = true) : c.isTrivialReference e₂ = true := by
  cases e₁ with
  | reference table attrs refTable refAttrs =>
    cases e₂ with
    | reference table' attrs' refTable' refAttrs' =>
      obtain ⟨hattrs, hrefs⟩ :
          c.isEq attrs attrs' = true ∧ c.isEq refAttrs refAttrs' = true := by
        simpa [alike, columnsOf] using h
      rw [isEq_comm] at hattrs
      exact isEq_trans hattrs (isEq_trans htriv hrefs)
    | _ => cases hkind
  | _ => exact absurd htriv Bool.false_ne_true

/-! ## Forced decisions -/

/-- A constraint is forced on if it conforms and is a trivial reference, or by one alike that
conforms and is on. -/
theorem mustEnable_iff : (c.forced earlier e).mustEnable = true ↔
    c.conforms e = true ∧ (c.isTrivialReference e = true ∨
      ∃ x ∈ earlier, x.2 = true ∧ c.conforms x.1 = true ∧ c.alike x.1 e = true) := by
  cases hconf : c.conforms e with
  | false => simp [forced, hconf, Forced.disable]
  | true => simp [forced_of_conforms hconf, and_assoc]

/-- What decisions on constraints of one kind come to. What is on conforms, constraints about equal
attribute lists have the same flag, and trivial references are on. -/
structure Agrees (c : Choice) (kind : ConstraintKind) (decided : List (Constraint × Bool)) :
    Prop where
  kinds : ∀ x ∈ decided, x.1.kind = kind
  conforms : ∀ x ∈ decided, x.2 = true → c.conforms x.1 = true
  alike : ∀ x ∈ decided, ∀ y ∈ decided, c.conforms x.1 = true → c.conforms y.1 = true →
    c.alike x.1 y.1 = true → x.2 = y.2
  trivial : ∀ x ∈ decided, c.conforms x.1 = true → c.isTrivialReference x.1 = true → x.2 = true

theorem agrees_nil (c : Choice) (kind : ConstraintKind) : c.Agrees kind [] where
  kinds _ hx := absurd hx not_mem_nil
  conforms _ hx := absurd hx not_mem_nil
  alike _ hx := absurd hx not_mem_nil
  trivial _ hx := absurd hx not_mem_nil

/-- A decision that keeps to what is forced. -/
def Allows (f : Forced) (flag : Bool) : Prop :=
  if flag then f.mustDisable = false else f.mustEnable = false

/-- A decision that agrees with the earlier ones keeps to what they force. -/
theorem Agrees.allows {flag : Bool} (h : c.Agrees kind (earlier ++ [(e, flag)])) :
    Allows (c.forced earlier e) flag := by
  have hlast : (e, flag) ∈ earlier ++ [(e, flag)] := mem_append_right _ mem_cons_self
  cases flag with
  | true =>
    show (c.forced earlier e).mustDisable = false
    rw [Bool.eq_false_iff, Ne, mustDisable_iff]
    rintro (hconf | ⟨x, hx, hoff, hxconf, halike⟩)
    · rw [h.conforms _ hlast rfl] at hconf
      cases hconf
    · have hsame := h.alike x (mem_append_left _ hx) _ hlast hxconf (h.conforms _ hlast rfl)
        halike
      rw [hoff] at hsame
      cases hsame
  | false =>
    show (c.forced earlier e).mustEnable = false
    rw [Bool.eq_false_iff, Ne, mustEnable_iff]
    rintro ⟨hconf, htriv | ⟨x, hx, hon, hxconf, halike⟩⟩
    · exact absurd (h.trivial _ hlast hconf htriv) Bool.false_ne_true
    · have hsame := h.alike x (mem_append_left _ hx) _ hlast hxconf hconf halike
      rw [hon] at hsame
      cases hsame

/-- One more decision. If it is allowed, it has the flag of every earlier one that it is alike. -/
theorem Agrees.concat {flag : Bool} (h : c.Agrees kind earlier) (hkind : e.kind = kind)
    (hallow : Allows (c.forced earlier e) flag) : c.Agrees kind (earlier ++ [(e, flag)]) := by
  have hcases : ∀ {x}, x ∈ earlier ++ [(e, flag)] → x ∈ earlier ∨ x = (e, flag) := by
    intro x hx
    rwa [mem_append, mem_singleton] at hx
  -- The decisions about equal attribute lists have forced this one.
  have hsame : ∀ x ∈ earlier, c.conforms x.1 = true → c.conforms e = true →
      c.alike x.1 e = true → x.2 = flag := by
    intro x hx hxconf hconf halike
    cases flag with
    | true =>
      by_contra hoff
      have hdisable := mustDisable_iff.mpr
        (.inr ⟨x, hx, Bool.eq_false_iff.mpr hoff, hxconf, halike⟩)
      rw [show (c.forced earlier e).mustDisable = false from hallow] at hdisable
      cases hdisable
    | false =>
      by_contra hon
      have henable := mustEnable_iff.mpr
        ⟨hconf, .inr ⟨x, hx, Bool.of_not_eq_false hon, hxconf, halike⟩⟩
      rw [show (c.forced earlier e).mustEnable = false from hallow] at henable
      cases henable
  refine ⟨fun x hx => ?_, fun x hx hon => ?_, fun x hx y hy hxconf hyconf halike => ?_,
    fun x hx hconf htriv => ?_⟩
  · rcases hcases hx with hx | rfl
    · exact h.kinds x hx
    · exact hkind
  · rcases hcases hx with hx | rfl
    · exact h.conforms x hx hon
    · by_contra hconf
      have hdisable : (c.forced earlier e).mustDisable = true :=
        mustDisable_iff.mpr (.inl (Bool.eq_false_iff.mpr hconf))
      rw [show flag = true from hon] at hallow
      rw [show (c.forced earlier e).mustDisable = false from hallow] at hdisable
      cases hdisable
  · rcases hcases hx with hx | rfl <;> rcases hcases hy with hy | rfl
    · exact h.alike x hx y hy hxconf hyconf halike
    · exact hsame x hx hxconf hyconf halike
    · exact (hsame y hy hyconf hxconf (alike_symm halike)).symm
    · rfl
  · rcases hcases hx with hx | rfl
    · exact h.trivial x hx hconf htriv
    · cases flag with
      | true => rfl
      | false =>
        have henable : (c.forced earlier e).mustEnable = true :=
          mustEnable_iff.mpr ⟨hconf, .inl htriv⟩
        rw [show (c.forced earlier e).mustEnable = false from hallow] at henable
        cases henable

/-- **Decisions agree exactly if each keeps to what is forced by those before it.** -/
theorem agrees_concat {flag : Bool} : c.Agrees kind (earlier ++ [(e, flag)]) ↔
    c.Agrees kind earlier ∧ e.kind = kind ∧ Allows (c.forced earlier e) flag := by
  constructor
  · intro h
    have hsub : ∀ {x}, x ∈ earlier → x ∈ earlier ++ [(e, flag)] := mem_append_left _
    refine ⟨⟨fun x hx => h.kinds x (hsub hx), fun x hx => h.conforms x (hsub hx),
      fun x hx y hy => h.alike x (hsub hx) y (hsub hy), fun x hx => h.trivial x (hsub hx)⟩,
      h.kinds _ (mem_append_right _ mem_cons_self), h.allows⟩
  · rintro ⟨h, hkind, hallow⟩
    exact h.concat hkind hallow

/-- Decisions that agree force nothing both ways: what forces a constraint on and what forces it
off would be alike, since both are alike the constraint. -/
theorem Agrees.forced_ne_conflict (h : c.Agrees kind earlier) (hkind : e.kind = kind) :
    c.forced earlier e ≠ .conflict := by
  intro hconflict
  have henable : (c.forced earlier e).mustEnable = true := by rw [hconflict]; rfl
  have hdisable : (c.forced earlier e).mustDisable = true := by rw [hconflict]; rfl
  obtain ⟨hconf, hon⟩ := mustEnable_iff.mp henable
  rcases mustDisable_iff.mp hdisable with hnot | ⟨x, hx, hoff, hxconf, hxe⟩
  · rw [hconf] at hnot
    cases hnot
  have hxkind : x.1.kind = e.kind := (h.kinds x hx).trans hkind.symm
  rcases hon with htriv | ⟨y, hy, hyon, hyconf, hye⟩
  · have hxtriv := isTrivialReference_of_alike hxkind.symm (alike_symm hxe) htriv
    rw [h.trivial x hx hxconf hxtriv] at hoff
    cases hoff
  · have hykind : e.kind = y.1.kind := hkind.trans (h.kinds y hy).symm
    have hxy := alike_trans hxkind hykind hxe (alike_symm hye)
    rw [h.alike x hx y hy hxconf hyconf hxy, hyon] at hoff
    cases hoff

end Choice

end QueryRules
