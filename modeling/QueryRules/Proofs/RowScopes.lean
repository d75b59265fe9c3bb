import QueryRules.Proofs.PlanReads

/-!
# QueryRules — rows of a walk

Row variables are given out with increasing numbers, and only the first relation of a whole query
gets the row `t`. So a row that is given out later differs from every row of a scope that was closed
before.
-/

namespace QueryRules

open List

/-! ## Walks only add rows -/

variable {row : Tuple} {joints : List Tuple}

namespace Walk

open Denote

variable {w w₁ w₂ : Walk} {opened : List Tuple}

/-- `Gives w w' row`: a walk from `w` to `w'` may give this row to a relation. -/
def Gives (w w' : Walk) (row : Tuple) : Prop :=
  (∃ k, w.next ≤ k ∧ k < w'.next ∧ row = numberedRow k) ∨
    (w.scope.isRoot = true ∧ rootRow ∉ w.scope.rows ∧ row = rootRow)

/-- What every walk through a plan keeps: it adds rows to the scope at hand and to the aliases, and
all of them are new. -/
structure Extends (w w' : Walk) : Prop where
  isRoot : w'.scope.isRoot = w.scope.isRoot
  joints : w'.scope.joints = w.scope.joints
  next : w.next ≤ w'.next
  rows : ∃ news, w'.scope.rows = w.scope.rows ++ news ∧ ∀ row ∈ news, w.Gives w' row
  owners : ∃ news, w'.owners = news ++ w.owners ∧ ∀ o ∈ news, w.Gives w' o.2
  root : rootRow ∈ w'.metRows → rootRow ∈ w.metRows ∨ rootRow ∈ w'.scope.rows
  owned : ∀ row ∈ w'.scope.rows, row ∈ w.scope.rows ∨ row ∈ w'.metRows

theorem Extends.mem_rows (h : w₁.Extends w₂) (hrow : row ∈ w₁.scope.rows) :
    row ∈ w₂.scope.rows := by
  obtain ⟨news, heq, -⟩ := h.rows
  rw [heq]
  exact mem_append_left _ hrow

theorem Extends.mem_metRows (h : w₁.Extends w₂) (hrow : row ∈ w₁.metRows) :
    row ∈ w₂.metRows := by
  obtain ⟨news, heq, -⟩ := h.owners
  unfold metRows
  rw [heq, map_append]
  exact mem_append_right _ hrow

theorem Extends.refl (w : Walk) : w.Extends w where
  isRoot := rfl
  joints := rfl
  next := Nat.le_refl _
  rows := ⟨[], by simp, by simp⟩
  owners := ⟨[], rfl, by simp⟩
  root := .inl
  owned _ := .inl

theorem Gives.mono (h₁ : w.Extends w₁) (h₂ : w₁.Extends w₂)
    (h : w.Gives w₁ row ∨ w₁.Gives w₂ row) : w.Gives w₂ row := by
  have hnext₁ := h₁.next
  have hnext₂ := h₂.next
  rcases h with (⟨k, hge, hlt, rfl⟩ | hroot) | (⟨k, hge, hlt, rfl⟩ | ⟨hroot, hrows, rfl⟩)
  · exact .inl ⟨k, hge, by omega, rfl⟩
  · exact .inr hroot
  · exact .inl ⟨k, by omega, hlt, rfl⟩
  · exact .inr ⟨h₁.isRoot ▸ hroot, fun hmem => hrows (h₁.mem_rows hmem), rfl⟩

/-- Walks that follow each other only add. -/
theorem Extends.trans (h₁ : w.Extends w₁) (h₂ : w₁.Extends w₂) : w.Extends w₂ where
  isRoot := h₂.isRoot.trans h₁.isRoot
  joints := h₂.joints.trans h₁.joints
  next := Nat.le_trans h₁.next h₂.next
  rows := by
    obtain ⟨news₁, heq₁, hgives₁⟩ := h₁.rows
    obtain ⟨news₂, heq₂, hgives₂⟩ := h₂.rows
    refine ⟨news₁ ++ news₂, by rw [heq₂, heq₁, append_assoc], fun row hrow => ?_⟩
    exact Gives.mono h₁ h₂ ((mem_append.mp hrow).imp (hgives₁ row) (hgives₂ row))
  owners := by
    obtain ⟨news₁, heq₁, hgives₁⟩ := h₁.owners
    obtain ⟨news₂, heq₂, hgives₂⟩ := h₂.owners
    refine ⟨news₂ ++ news₁, by rw [heq₂, heq₁, append_assoc], fun o ho => ?_⟩
    exact Gives.mono h₁ h₂ ((mem_append.mp ho).symm.imp (hgives₁ o) (hgives₂ o))
  root hroot := by
    rcases h₂.root hroot with hroot | hroot
    · exact (h₁.root hroot).imp_right h₂.mem_rows
    · exact .inr hroot
  owned row hrow := by
    rcases h₂.owned row hrow with hrow | hmet
    · exact (h₁.owned row hrow).imp_right h₂.mem_metRows
    · exact .inr hmet

theorem newRow_mem {owner : String} (h : Runs (newRow owner) w row w₁) :
    row ∈ w₁.scope.rows ∧ row ∈ w₁.metRows := by
  rcases newRow_cases h with ⟨-, -, -, rfl⟩ | ⟨-, -, rfl⟩
  · exact ⟨mem_append_right _ mem_cons_self, mem_cons_self⟩
  · exact ⟨mem_append_right _ mem_cons_self, mem_cons_self⟩

/-- A new row adds to the walk. -/
theorem Extends.newRow {owner : String} (h : Runs (newRow owner) w row w₁) :
    w.Extends w₁ := by
  -- The one row that is new belongs to the one alias that is new.
  have howned : ∀ r ∈ w.scope.rows ++ [row], r ∈ w.scope.rows ∨ r ∈ row :: w.metRows := by
    intro r hr
    rcases mem_append.mp hr with hold | hnew
    · exact .inl hold
    · exact .inr (mem_singleton.mp hnew ▸ mem_cons_self)
  rcases newRow_cases h with ⟨hroot, hrows, rfl, rfl⟩ | ⟨-, rfl, rfl⟩
  · have hgives : w.Gives (w.bindRow owner rootRow) rootRow := .inr ⟨hroot, hrows, rfl⟩
    exact ⟨rfl, rfl, Nat.le_refl _, ⟨_, rfl, by simpa using hgives⟩,
      ⟨[(owner, rootRow)], rfl, by simpa using hgives⟩,
      fun _ => .inr (mem_append_right _ mem_cons_self), howned⟩
  · have hgives : w.Gives ({ w with next := w.next + 1 }.bindRow owner (numberedRow w.next))
        (numberedRow w.next) := .inl ⟨w.next, Nat.le_refl _, Nat.lt_succ_self _, rfl⟩
    refine ⟨rfl, rfl, Nat.le_succ _, ⟨_, rfl, by simpa using hgives⟩,
      ⟨[(owner, numberedRow w.next)], rfl, by simpa using hgives⟩, fun hroot => ?_, howned⟩
    rcases mem_cons.mp hroot with heq | hmem
    · exact absurd heq.symm (numberedRow_ne_rootRow _)
    · exact .inl hmem

theorem Extends.jointsFor {items : List Item} {aliasName : String}
    (h : Runs (jointsFor items aliasName) w joints w₁) : w.Extends w₁ := by
  rcases jointsFor_cases h with ⟨-, -, rfl⟩ | ⟨-, pivot, hnew, -⟩
  · exact .refl _
  · exact .newRow hnew

/-- Handing down joints and taking them back changes nothing else. -/
theorem Extends.handing {joints : Option (List Tuple)} (h : (w.handing joints).Extends w₁) :
    w.Extends (w₁.handing w.scope.joints) :=
  ⟨h.isRoot, rfl, h.next, h.rows, h.owners, h.root, h.owned⟩

/-- The rows of an inner scope are numbered. -/
theorem Gives.numbered_of_enter
    (hrow : w.enter.Gives w₁ row) : ∃ k, w.next ≤ k ∧ k < w₁.next ∧ row = numberedRow k := by
  rcases hrow with hk | ⟨hroot, -⟩
  · exact hk
  · cases hroot

/-- Leaving an inner scope drops its rows from the scope at hand. The aliases stay. -/
theorem Extends.leaveTo (h : w.enter.Extends w₁) : w.Extends (w₁.leaveTo w) where
  isRoot := rfl
  joints := rfl
  next := h.next
  rows := ⟨[], by simp [Walk.leaveTo], by simp⟩
  owners := by
    obtain ⟨news, heq, hgives⟩ := h.owners
    exact ⟨news, heq, fun o ho => .inl ((hgives o ho).numbered_of_enter)⟩
  root hroot := by
    rcases h.root hroot with hroot | hroot
    · exact .inl hroot
    · obtain ⟨news, heq, hgives⟩ := h.rows
      obtain ⟨k, -, -, hk⟩ := (hgives rootRow (by simpa [heq, enter] using hroot)).numbered_of_enter
      exact absurd hk.symm (numberedRow_ne_rootRow k)
  owned _ := .inl

end Walk

/-! ## Rows are variables -/

/-- What holds of every walk that a plan can start from, where `opened` are the rows of the scopes
around the one at hand. Rows are `t` or numbered below the next number. The row of the whole query
is in an open scope, and in the outermost scope if that is at hand. Rows of the scope at hand belong
to an alias, and joints read no other rows than those met. -/
structure Walk.Sound (opened : List Tuple) (w : Walk) : Prop where
  named : ∀ row ∈ opened ++ w.scope.rows ++ w.metRows,
    row = Denote.rootRow ∨ ∃ k < w.next, row = Denote.numberedRow k
  root : Denote.rootRow ∈ w.metRows → Denote.rootRow ∈ opened ++ w.scope.rows
  first : w.scope.isRoot = true → Denote.rootRow ∈ w.metRows → Denote.rootRow ∈ w.scope.rows
  owned : ∀ row ∈ w.scope.rows, row ∈ w.metRows
  joints : ∀ js, w.scope.joints = some js → ∀ t ∈ js, ∀ x, t.uses (.var x) = true →
    .var x ∈ w.metRows

namespace Walk

open Denote

variable {w w₁ w₂ : Walk} {opened : List Tuple}

theorem sound_start : Walk.Sound [] .start where
  named := by simp [start, metRows]
  root := by simp [start, metRows]
  first := by simp [start, metRows]
  owned := by simp [start]
  joints := by simp [start]

theorem Sound.isVar (h : w.Sound opened) (hrow : row ∈ w.scope.rows) :
    row.isVar = true := by
  rcases h.named row (by simp [hrow]) with rfl | ⟨k, -, rfl⟩ <;> rfl

/-- A row that was given out is no row of a closed scope. -/
theorem Sound.not_gives (h : w.Sound opened) (hmet : row ∈ w.metRows)
    (hclosed : row ∉ opened ++ w.scope.rows) : ¬ w.Gives w₁ row := by
  intro hgives
  rcases h.named row (mem_append_right _ hmet) with rfl | ⟨k, hk, rfl⟩
  · exact hclosed (h.root hmet)
  · rcases hgives with ⟨j, hj, -, heq⟩ | ⟨-, -, heq⟩
    · have := numberedRow_inj heq
      omega
    · exact numberedRow_ne_rootRow k heq

/-- **A walk stays sound.** -/
theorem Sound.of_extends (h : w.Sound opened) (hext : w.Extends w₁) : w₁.Sound opened where
  named row hrow := by
    have hnext := hext.next
    have hnew : w.Gives w₁ row → row = rootRow ∨ ∃ k < w₁.next, row = numberedRow k := by
      intro hgives
      rcases hgives with ⟨k, -, hk, heq⟩ | ⟨-, -, heq⟩
      · exact .inr ⟨k, hk, heq⟩
      · exact .inl heq
    have hold : row ∈ opened ++ w.scope.rows ++ w.metRows →
        row = rootRow ∨ ∃ k < w₁.next, row = numberedRow k := by
      intro hmem
      refine (h.named row hmem).imp_right fun hk => ?_
      obtain ⟨k, hk, heq⟩ := hk
      exact ⟨k, by omega, heq⟩
    -- A row is an old one, or one that the walk gave.
    obtain ⟨rows, hrows, hgivesRows⟩ := hext.rows
    obtain ⟨owners, howners, hgivesOwners⟩ := hext.owners
    unfold metRows at hrow
    rw [hrows, howners, map_append] at hrow
    simp only [mem_append] at hrow hold
    rcases hrow with (hrow | hrow | hrow) | hrow | hrow
    · exact hold (.inl (.inl hrow))
    · exact hold (.inl (.inr hrow))
    · exact hnew (hgivesRows row hrow)
    · obtain ⟨o, ho, rfl⟩ := mem_map.mp hrow
      exact hnew (hgivesOwners o ho)
    · exact hold (.inr hrow)
  root hroot := by
    rcases hext.root hroot with hroot | hroot
    · have hopen := mem_append.mp (h.root hroot)
      exact mem_append.mpr (hopen.imp_right hext.mem_rows)
    · exact mem_append_right _ hroot
  first hisRoot hroot := by
    rcases hext.root hroot with hroot | hroot
    · exact hext.mem_rows (h.first (hext.isRoot ▸ hisRoot) hroot)
    · exact hroot
  owned row hrow := (hext.owned row hrow).elim (fun hrow => hext.mem_metRows (h.owned row hrow)) id
  joints js hjs t ht x hx := by
    rw [hext.joints] at hjs
    exact hext.mem_metRows (h.joints js hjs t ht x hx)

theorem Sound.enter (h : w.Sound opened) : w.enter.Sound (opened ++ w.scope.rows) where
  named row hrow := h.named row (by simpa [Walk.enter, metRows] using hrow)
  root hroot := mem_append_left _ (h.root hroot)
  first hisRoot := by cases hisRoot
  owned row hrow := by cases hrow
  joints js hjs := by cases hjs

theorem Sound.handing (h : w.Sound opened)
    (hjoints : ∀ t ∈ joints, ∀ x, t.uses (.var x) = true → .var x ∈ w.metRows) :
    (w.handing (some joints)).Sound opened where
  named := h.named
  root := h.root
  first := h.first
  owned := h.owned
  joints js hjs := by
    cases hjs
    exact hjoints

theorem Sound.isVar_owners (h : w.Sound opened) : ∀ o ∈ w.owners, o.2.isVar = true := by
  intro o ho
  have hmet : o.2 ∈ w.metRows := mem_map.mpr ⟨o, ho, rfl⟩
  rcases h.named o.2 (mem_append_right _ hmet) with heq | ⟨k, -, heq⟩
  · rw [heq]
    rfl
  · rw [heq]
    rfl

/-- The tuples of expressions can be handed down. -/
theorem Sound.handing_tuplesOf (h : w.Sound opened) {ss : List Scalar}
    (hjoints : tuplesOf w.owners ss = .ok joints) : (w.handing (some joints)).Sound opened := by
  refine h.handing fun t ht x hx => ?_
  have hany : Tuple.anyUses joints (.var x) = true := anyUses_iff.mpr ⟨t, ht, hx⟩
  exact ((anyUses_tuplesOf ss hjoints).mp hany).mem h.isVar_owners

/-- The projections of a row that was met can be handed down. -/
theorem Sound.handing_project (h : w.Sound opened) (hrow : row ∈ w.metRows)
    (columns : List String) : (w.handing (some (columns.map row.project))).Sound opened := by
  refine h.handing fun t ht x hx => ?_
  obtain ⟨column, -, rfl⟩ := mem_map.mp ht
  rw [Tuple.uses_project_var] at hx
  obtain ⟨o, ho, rfl⟩ := mem_map.mp hrow
  obtain ⟨y, hy⟩ := Tuple.exists_eq_var (h.isVar_owners o ho)
  rw [hy] at hx hrow
  have hyx : y = x := by simpa [Tuple.uses] using hx
  exact hyx ▸ hrow

/-- A new row can be joined to, column by column. -/
theorem Sound.handing_newRow (h : w.Sound opened) {owner : String}
    (hrow : Runs (newRow owner) w row w₁) (columns : List String) :
    (w₁.handing (some (columns.map row.project))).Sound opened :=
  (h.of_extends (.newRow hrow)).handing_project (newRow_mem hrow).2 columns

end Walk

/-- **Every walk through a plan only adds rows.** -/
theorem Denote.Walks.extends {p : Plan} {u : Bool} {w w' : Walk} {t : Term} {opened : List Tuple}
    (h : Walks p u w t w') (hs : w.Sound opened) : w.Extends w' := by
  induction h generalizing opened with
  | input hrow => exact .newRow hrow
  | proj hjoints hp heqs ih =>
    have hext := Walk.Extends.jointsFor hjoints
    exact hext.trans (ih (hs.of_extends hext).enter).leaveTo
  | filter hp hcond ih => exact ih hs
  | inSub hne hp hlhs hq ihp ihq =>
    have hext := ihp hs
    exact hext.trans (ihq ((hs.of_extends hext).handing_tuplesOf hlhs)).handing
  | «exists» hp hq ihp ihq =>
    have hext := ihp hs
    exact hext.trans (ihq ((hs.of_extends hext).handing (by simp))).handing
  | crossJoin hkind hl hr ihl ihr => exact (ihl hs).trans (ihr (hs.of_extends (ihl hs)))
  | innerJoin hkind hl hr hcond ihl ihr => exact (ihl hs).trans (ihr (hs.of_extends (ihl hs)))
  | leftJoin hl hr hcond hcopy ihl ihr =>
    have hext := (ihl hs).trans (ihr (hs.of_extends (ihl hs)))
    obtain ⟨rfl, -⟩ := leftJoinTerm_spec (fun row hrow =>
      (hs.of_extends hext).isVar (mem_of_mem_drop hrow)) hcopy
    exact hext.trans ⟨rfl, rfl, Nat.le_add_right _ _, ⟨[], by simp, by simp⟩,
      ⟨[], rfl, by simp⟩, .inl, fun _ => .inl⟩
  | innerUnion hl hr ihl ihr => exact (ihl hs).trans (ihr (hs.of_extends (ihl hs)))
  | outerUnion hjoint hl hr ihl ihr =>
    have hext := Walk.Extends.newRow hjoint
    have hsound := hs.handing_newRow hjoint
    have hleft := ihl (hsound _)
    exact hext.trans (hleft.trans (ihr ((hsound _).of_extends hleft))).handing
  | sort hp ih | limit hp ih => exact ih hs

theorem Denote.Walks.sound {p : Plan} {u : Bool} {w w' : Walk} {t : Term} {opened : List Tuple}
    (h : Walks p u w t w') (hs : w.Sound opened) : w'.Sound opened :=
  hs.of_extends (h.extends hs)

end QueryRules
