import QueryRules.Proofs.RowScopes

/-!
# QueryRules — the scope of column references

A projection closes the query inside it, and the rows of that query are bound by its sum. The
aliases of the closed query stay known to the walk, so a reference to one of them is still resolved,
to a row that no sum around it binds. This module says on the plan alone which references those are,
and shows that they are the only way for a row to escape.
-/

namespace QueryRules

open List

/-! ## References to closed queries -/

namespace Plan

/-- Whether joints that are handed down reach a projection. A relation takes no joints, a subquery
has joints of its own, and so has a union that is not below another one. -/
def tiesJoints : Plan → (underUnion : Bool) → Bool
  | .input .., _ => false
  | .proj .., _ => true
  | .filter p _, _ | .inSub p _ _, _ | .exists p _, _ => p.tiesJoints false
  | .join _ l r _, _ => l.tiesJoints false || r.tiesJoints false
  | .setOp _ _ l r, underUnion => underUnion && (l.tiesJoints true || r.tiesJoints true)
  | .sort p, underUnion | .limit p _, underUnion => p.tiesJoints underUnion
  | .agg .., _ => false

/-- The aliases that a plan binds, the latest first, each with whether its relation is still in the
query at hand at the end of the plan. `handed` is the number of joints that are handed down, if any
are. -/
def binds : Plan → (underUnion : Bool) → (handed : Option Nat) → List (String × Bool)
  | .input _ aliasName _, _, _ => [(aliasName, true)]
  | .proj p _ _ aliasName, _, handed =>
    (p.binds false none).map (fun b => (b.1, false)) ++
      if handed.isNone then [(aliasName, true)] else []
  | .filter p _, _, handed => p.binds false handed
  | .inSub p lhs q, _, handed => q.binds false (some lhs.length) ++ p.binds false handed
  | .exists p q, _, handed => q.binds false (some 0) ++ p.binds false handed
  | .join _ l r _, _, handed => r.binds false handed ++ l.binds false handed
  | .setOp _ _ l r, true, handed => r.binds true handed ++ l.binds true handed
  | .setOp _ _ l r, false, _ =>
    let handed := some l.outputColumns.length
    r.binds true handed ++ (l.binds true handed ++ [(l.outputOwner, true)])
  | .sort p, underUnion, handed | .limit p _, underUnion, handed => p.binds underUnion handed
  | .agg .., _, _ => []

/-- The references whose alias was last bound in a query that is closed. -/
def hiddenAmong (known : List (String × Bool)) (refs : List (String × String)) :
    List (String × String) :=
  refs.filter fun ref => known.lookup ref.1 = some false

/-- The references of a plan that its term mentions and whose alias was last bound in a query that
is closed at the place of the reference. `known` are the aliases bound before. -/
def hidden : Plan → (underUnion : Bool) → (handed : Option Nat) → (known : List (String × Bool)) →
    List (String × String)
  | .input .., _, _, _ => []
  | .proj p items _ aliasName, _, handed, known =>
    let outer := (if handed.isNone then [(aliasName, true)] else []) ++ known
    -- Without joints to compare with, the items are not looked at.
    let refs := if handed = some 0 then [] else items.flatMap fun i => i.expr.columns
    p.hidden false none outer ++ hiddenAmong (p.binds false none ++ outer) refs
  | .filter p c, _, handed, known =>
    p.hidden false handed known ++ hiddenAmong (p.binds false handed ++ known) c.columns
  | .inSub p lhs q, _, handed, known =>
    let met := p.binds false handed ++ known
    let refs := if q.tiesJoints false then Scalar.columnsAll lhs else []
    p.hidden false handed known ++ (hiddenAmong met refs ++ q.hidden false (some lhs.length) met)
  | .exists p q, _, handed, known =>
    p.hidden false handed known ++ q.hidden false (some 0) (p.binds false handed ++ known)
  | .join _ l r condition, _, handed, known =>
    let met := l.binds false handed ++ known
    l.hidden false handed known ++ (r.hidden false handed met ++
      hiddenAmong (r.binds false handed ++ met) (condition.toList.flatMap Condition.columns))
  | .setOp _ _ l r, true, handed, known =>
    l.hidden true handed known ++ r.hidden true handed (l.binds true handed ++ known)
  | .setOp _ _ l r, false, _, known =>
    let handed := some l.outputColumns.length
    let outer := (l.outputOwner, true) :: known
    l.hidden true handed outer ++ r.hidden true handed (l.binds true handed ++ outer)
  | .sort p, underUnion, handed, known | .limit p _, underUnion, handed, known =>
    p.hidden underUnion handed known
  | .agg .., _, _, _ => []

/-- The references of a whole plan to aliases of a query that is closed. -/
def hiddenColumns (p : Plan) : List (String × String) :=
  p.hidden false none []

/-- The operator at the root, below sorting and limiting, is a projection. -/
def isProjection : Plan → Bool
  | .proj .. => true
  | .sort p | .limit p _ => p.isProjection
  | _ => false

end Plan

/-! ## Open and closed rows -/

variable {row : Tuple}

namespace Walk

open Denote

variable {w w₁ w₂ : Walk} {opened : List Tuple} {x : String}

/-- The aliases of a walk, each with whether its row is in an open scope. -/
def marks (opened : List Tuple) (w : Walk) : List (String × Bool) :=
  w.owners.map fun o => (o.1, decide (o.2 ∈ opened ++ w.scope.rows))

/-- How many joints are handed down, if any are. -/
def handed (w : Walk) : Option Nat :=
  w.scope.joints.map List.length

theorem Extends.handed (h : w.Extends w₁) : w₁.handed = w.handed := by
  unfold Walk.handed
  rw [h.joints]

theorem handed_handing (w : Walk) (joints : List Tuple) :
    (w.handing (some joints)).handed = some joints.length :=
  rfl

theorem marks_handing (w : Walk) (joints : Option (List Tuple)) :
    (w.handing joints).marks opened = w.marks opened :=
  rfl

/-- A row variable whose scope is closed. -/
def Closed (opened : List Tuple) (w : Walk) (x : String) : Prop :=
  .var x ∈ w.metRows ∧ .var x ∉ opened ++ w.scope.rows

/-- Rows that were met before do not come into scope later. -/
theorem Sound.mem_open_iff (hs : w.Sound opened) (hext : w.Extends w₁)
    (hmet : row ∈ w.metRows) :
    row ∈ opened ++ w₁.scope.rows ↔ row ∈ opened ++ w.scope.rows := by
  obtain ⟨news, hrows, hgives⟩ := hext.rows
  rw [hrows, ← append_assoc]
  constructor
  · intro hmem
    rcases mem_append.mp hmem with hopen | hnew
    · exact hopen
    · by_contra hclosed
      exact hs.not_gives hmet hclosed (hgives row hnew)
  · exact mem_append_left _

theorem Closed.of_extends (h : w.Closed opened x) (hs : w.Sound opened) (hext : w.Extends w₁) :
    w₁.Closed opened x :=
  ⟨hext.mem_metRows h.1, fun hmem => h.2 ((hs.mem_open_iff hext h.1).mp hmem)⟩

theorem Closed.leaveTo (h : w₁.Closed (opened ++ w.scope.rows) x) :
    (w₁.leaveTo w).Closed opened x :=
  ⟨h.1, fun hmem => h.2 (mem_append_left _ hmem)⟩

/-- A walk marks the aliases that it adds and keeps the marks of the others. -/
theorem Sound.marks_of_extends (hs : w.Sound opened) (hext : w.Extends w₁)
    {news : List (String × Tuple)} (howners : w₁.owners = news ++ w.owners) :
    w₁.marks opened
      = news.map (fun o => (o.1, decide (o.2 ∈ opened ++ w₁.scope.rows))) ++ w.marks opened := by
  unfold marks
  rw [howners, map_append]
  congr 1
  refine map_congr_left fun o ho => ?_
  rw [decide_eq_decide.mpr (hs.mem_open_iff hext (mem_map.mpr ⟨o, ho, rfl⟩))]

theorem Sound.marks_newRow (hs : w.Sound opened) {owner : String}
    (h : Runs (newRow owner) w row w₁) : w₁.marks opened = (owner, true) :: w.marks opened := by
  have hmem : row ∈ opened ++ w₁.scope.rows := mem_append_right _ (newRow_mem h).1
  have howners : w₁.owners = [(owner, row)] ++ w.owners := by
    rcases newRow_cases h with ⟨-, -, -, rfl⟩ | ⟨-, -, rfl⟩
    · rfl
    · rfl
  rw [hs.marks_of_extends (.newRow h) howners]
  simp only [map_cons, map_nil, cons_append, nil_append, decide_eq_true hmem]

theorem marks_enter (w : Walk) : w.enter.marks (opened ++ w.scope.rows) = w.marks opened := by
  simp [marks, enter]

/-- On leaving an inner scope all that it bound is hidden. -/
theorem Sound.marks_leaveTo (hs : w.Sound opened) (hext : w.enter.Extends w₁)
    {bs : List (String × Bool)}
    (h : w₁.marks (opened ++ w.scope.rows) = bs ++ w.marks opened) :
    (w₁.leaveTo w).marks opened = bs.map (fun b => (b.1, false)) ++ w.marks opened := by
  obtain ⟨news, howners, hgives⟩ := hext.owners
  have hinner := hs.enter.marks_of_extends hext howners
  rw [marks_enter, h] at hinner
  rw [append_cancel_right hinner, hs.marks_of_extends hext.leaveTo howners, map_map]
  congr 1
  refine map_congr_left fun o ho => ?_
  -- What was given out inside has a number that no open row has.
  have hclosed : o.2 ∉ opened ++ (w₁.leaveTo w).scope.rows := by
    intro hmem
    obtain ⟨k, hk, -, heq⟩ := (hgives o ho).numbered_of_enter
    rcases hs.named o.2 (mem_append_left _ hmem) with hroot | ⟨j, hj, heq'⟩
    · exact numberedRow_ne_rootRow k (heq ▸ hroot)
    · have := numberedRow_inj (heq.symm.trans heq')
      omega
  simp only [Function.comp_apply, decide_eq_false hclosed]

theorem lookup_marks (w : Walk) (aliasName : String) : (w.marks opened).lookup aliasName
    = (w.owners.lookup aliasName).map fun row => decide (row ∈ opened ++ w.scope.rows) := by
  unfold marks
  induction w.owners with
  | nil => rfl
  | cons o os ih =>
    rw [map_cons, lookup_cons, lookup_cons, ih]
    cases aliasName == o.1 <;> rfl

/-- References that are not hidden read rows of open scopes. -/
theorem Sound.mem_open_of_reads (hs : w.Sound opened) {refs : List (String × String)}
    (hidden : Plan.hiddenAmong (w.marks opened) refs = []) (h : Reads w.owners refs x) :
    .var x ∈ opened ++ w.scope.rows := by
  obtain ⟨ref, href, row, hlookup, huses⟩ := h
  have hmem : (ref.1, row) ∈ w.owners := by
    obtain ⟨before, after, heq, -⟩ := lookup_eq_some_iff.mp hlookup
    rw [heq]
    exact mem_append_right _ mem_cons_self
  obtain ⟨y, rfl⟩ := Tuple.exists_eq_var (hs.isVar_owners _ hmem)
  have hyx : y = x := by simpa [Tuple.uses] using huses
  rw [← hyx]
  by_contra hclosed
  refine filter_eq_nil_iff.mp hidden ref href ?_
  rw [decide_eq_true_eq, lookup_marks, hlookup, Option.map_some, decide_eq_false hclosed]

/-- A hidden reference reads a row of a closed scope. -/
theorem Sound.exists_closed_of_hidden (hs : w.Sound opened) {refs : List (String × String)}
    (hidden : Plan.hiddenAmong (w.marks opened) refs ≠ []) :
    ∃ x, Reads w.owners refs x ∧ w.Closed opened x := by
  obtain ⟨ref, hmem⟩ := exists_mem_of_ne_nil _ hidden
  obtain ⟨href, hmark⟩ := mem_filter.mp hmem
  rw [decide_eq_true_eq, lookup_marks, Option.map_eq_some_iff] at hmark
  obtain ⟨row, hlookup, hclosed⟩ := hmark
  have hmem : (ref.1, row) ∈ w.owners := by
    obtain ⟨before, after, heq, -⟩ := lookup_eq_some_iff.mp hlookup
    rw [heq]
    exact mem_append_right _ mem_cons_self
  obtain ⟨x, rfl⟩ := Tuple.exists_eq_var (hs.isVar_owners _ hmem)
  refine ⟨x, ⟨ref, href, _, hlookup, by simp [Tuple.uses]⟩, ?_, of_decide_eq_false hclosed⟩
  exact mem_map.mpr ⟨_, hmem, rfl⟩

end Walk

variable {joints : List Tuple} {owners : List (String × Tuple)} {items : List Item}
  {aliasName : String}

namespace Denote

variable {p : Plan} {u : Bool} {w w' : Walk} {t : Term} {opened : List Tuple} {x : String}

theorem length_tuplesOf {ss : List Scalar} {ts : List Tuple}
    (h : tuplesOf owners ss = .ok ts) : ts.length = ss.length := by
  induction ss generalizing ts with
  | nil =>
    cases h
    rfl
  | cons s ss ih =>
    rw [tuplesOf, bind_eq_ok] at h
    obtain ⟨t, -, h⟩ := h
    obtain ⟨rest, hrest, h⟩ := bind_eq_ok.mp h
    cases h
    rw [length_cons, length_cons, ih hrest]

theorem marks_jointsFor
    (hs : w.Sound opened) (h : Runs (jointsFor items aliasName) w joints w') :
    w'.marks opened = (if w.handed.isNone then [(aliasName, true)] else []) ++ w.marks opened := by
  rcases jointsFor_cases h with ⟨hj, -, rfl⟩ | ⟨hj, pivot, hnew, -⟩
  · simp [Walk.handed, hj]
  · rw [hs.marks_newRow hnew]
    simp [Walk.handed, hj]

/-- **The walk marks the aliases as the plan says.** -/
theorem Walks.marks (h : Walks p u w t w') (hs : w.Sound opened) :
    w'.marks opened = p.binds u w.handed ++ w.marks opened := by
  induction h generalizing opened with
  | input hrow => exact hs.marks_newRow hrow
  | proj hjoints hp heqs ih =>
    have hs₁ := hs.of_extends (.jointsFor hjoints)
    have hinner := ih hs₁.enter
    rw [Walk.marks_enter] at hinner
    rw [hs₁.marks_leaveTo (hp.extends hs₁.enter) hinner, marks_jointsFor hs hjoints, Plan.binds,
      append_assoc]
    rfl
  | filter hp hcond ih => exact ih hs
  | inSub hne hp hlhs hq ihp ihq =>
    have hs₁ := hp.sound hs
    rw [Walk.marks_handing, ihq (hs₁.handing_tuplesOf hlhs), Walk.handed_handing,
      Walk.marks_handing, ihp hs, length_tuplesOf hlhs, Plan.binds, append_assoc]
  | «exists» hp hq ihp ihq =>
    have hs₁ := hp.sound hs
    rw [Walk.marks_handing, ihq (hs₁.handing (by simp)), Walk.handed_handing, Walk.marks_handing,
      ihp hs, length_nil, Plan.binds, append_assoc]
  | crossJoin hkind hl hr ihl ihr | innerJoin hkind hl hr hcond ihl ihr =>
    have hext := hl.extends hs
    rw [ihr (hs.of_extends hext), ihl hs, hext.handed, Plan.binds, append_assoc]
  | leftJoin hl hr hcond hcopy ihl ihr =>
    have hext := hl.extends hs
    have hs₂ := hr.sound (hs.of_extends hext)
    obtain ⟨rfl, -⟩ := leftJoinTerm_spec (fun row hrow =>
      hs₂.isVar (mem_of_mem_drop hrow)) hcopy
    refine (ihr (hs.of_extends hext)).trans ?_
    rw [ihl hs, hext.handed, Plan.binds, append_assoc]
  | innerUnion hl hr ihl ihr =>
    have hext := hl.extends hs
    rw [ihr (hs.of_extends hext), ihl hs, hext.handed, Plan.binds, append_assoc]
  | outerUnion hjoint hl hr ihl ihr =>
    have hs₁ := hs.handing_newRow hjoint
    have hext := hl.extends (hs₁ _)
    rw [Walk.marks_handing, ihr ((hs₁ _).of_extends hext), ihl (hs₁ _), hext.handed,
      Walk.handed_handing, Walk.marks_handing, hs.marks_newRow hjoint, length_map, Plan.binds]
    simp
  | sort hp ih | limit hp ih => exact ih hs

end Denote

/-! ## Joints are compared -/

/-- Whether a term has an equality with `side` on one of its sides, and no sum around it binds a
variable of `side`. -/
def Term.Equates (side : Tuple) : Term → Prop
  | .table .. | .pred .. => False
  | .eq l r => l = side ∨ r = side
  | .add l r | .mul l r => l.Equates side ∨ r.Equates side
  | .not t | .squash t => t.Equates side
  | .sum vars body => (∀ x, .var x ∈ vars → side.uses (.var x) = false) ∧ body.Equates side

namespace Term

variable {side : Tuple} {t : Term}

/-- An equation has the variables of its side. -/
theorem Equates.free {x : String} (h : t.Equates side) (hx : side.uses (.var x) = true) :
    t.Free x := by
  induction t with
  | table name row | pred name args => exact h.elim
  | eq l r =>
    rcases h with rfl | rfl
    · exact .inl hx
    · exact .inr hx
  | add l r ihl ihr | mul l r ihl ihr => exact h.imp ihl ihr
  | not t ih | squash t ih => exact ih h
  | sum vars body ih =>
    refine ⟨fun hmem => ?_, ih h.2⟩
    rw [h.1 x hmem] at hx
    cases hx

theorem equates_foldl_mul {ts : List Term} (h : ∃ u ∈ t :: ts, u.Equates side) :
    (ts.foldl .mul t).Equates side := by
  induction ts generalizing t with
  | nil => simpa using h
  | cons u us ih =>
    apply ih
    simpa [Equates, or_assoc] using h

theorem equates_product {ts : List Term} (h : ∃ u ∈ ts, u.Equates side) :
    (product ts).Equates side := by
  cases ts with
  | nil => simp at h
  | cons u us => exact equates_foldl_mul h

theorem equates_sumOver {vars : List Tuple}
    (hvars : ∀ x, .var x ∈ vars → side.uses (.var x) = false)
    (h : t.Equates side) : (sumOver vars t).Equates side := by
  unfold sumOver
  split
  · exact h
  · exact ⟨hvars, h⟩

end Term

variable {distinct : Bool} {joint : Tuple}

namespace Denote

variable {p : Plan} {u : Bool} {w w' : Walk} {t : Term} {opened : List Tuple} {x : String}

theorem equates_dedup {side : Tuple} :
    (dedup distinct t).Equates side ↔ t.Equates side := by
  cases distinct <;> exact Iff.rfl

theorem free_dedup : (dedup distinct t).Free x ↔ t.Free x := by
  cases distinct <;> exact Iff.rfl

/-- Each joint has its equation among those of the items. -/
theorem exists_equates_itemTerms
    {eqs : List Term} (hlength : joints.length = items.length)
    (h : itemTerms owners (joints.zip items) = .ok eqs) (hjoint : joint ∈ joints) :
    ∃ e ∈ eqs, e.Equates joint := by
  induction joints generalizing items eqs with
  | nil => cases hjoint
  | cons j js ih =>
    cases items with
    | nil => cases hlength
    | cons item items =>
      rw [zip_cons_cons, itemTerms, bind_eq_ok] at h
      obtain ⟨s, -, h⟩ := h
      obtain ⟨rest, hrest, h⟩ := bind_eq_ok.mp h
      cases h
      rcases mem_cons.mp hjoint with rfl | hmem
      · exact ⟨_, mem_cons_self, .inl rfl⟩
      · obtain ⟨e, he, hequates⟩ := ih (Nat.succ.inj hlength) hrest hmem
        exact ⟨e, mem_cons_of_mem _ he, hequates⟩

/-- What was met before is not bound by an inner scope. -/
theorem not_mem_inner {w₁ : Walk} (hs : w.Sound opened) (hext : w.enter.Extends w₁)
    (hmet : .var x ∈ w.metRows) : .var x ∉ w₁.scope.rows := by
  intro hmem
  obtain ⟨news, hrows, hgives⟩ := hext.rows
  rw [hrows] at hmem
  obtain ⟨k, hk, -, heq⟩ := (hgives _ hmem).numbered_of_enter
  rcases hs.named _ (mem_append_right _ hmet) with hroot | ⟨j, hj, heq'⟩
  · exact numberedRow_ne_rootRow k (heq ▸ hroot)
  · have := numberedRow_inj (heq.symm.trans heq')
    omega

/-- **Joints that reach a projection are compared.** -/
theorem Walks.equates (h : Walks p u w t w') (hs : w.Sound opened) (hties : p.tiesJoints u = true)
    {js : List Tuple} (hjs : w.scope.joints = some js) (hjoint : joint ∈ js) :
    t.Equates joint := by
  induction h generalizing opened with
  | input hrow => cases hties
  | proj hjoints hp heqs ih =>
    rcases jointsFor_cases hjoints with ⟨hj, hlength, rfl⟩ | ⟨hj, -⟩
    · obtain rfl := Option.some.inj (hj.symm.trans hjs)
      have hitem := exists_equates_itemTerms (hlength (ne_nil_of_mem hjoint)) heqs hjoint
      rw [equates_dedup]
      refine Term.equates_sumOver (fun x hx => ?_) (Term.equates_product ?_)
      · -- The variables of a joint were met before the sum binds its own.
        rw [Bool.eq_false_iff]
        intro huses
        exact not_mem_inner hs (hp.extends hs.enter) (hs.joints _ hj _ hjoint x huses) hx
      · obtain ⟨e, he, hequates⟩ := hitem
        exact ⟨e, mem_cons_of_mem _ he, hequates⟩
    · rw [hj] at hjs
      cases hjs
  | filter hp hcond ih => exact .inr (ih hs hties hjs)
  | inSub hne hp hlhs hq ihp ihq => exact .inl (ihp hs hties hjs)
  | «exists» hp hq ihp ihq => exact .inl (ihp hs hties hjs)
  | crossJoin hkind hl hr ihl ihr =>
    have hext := hl.extends hs
    rcases Bool.or_eq_true_iff.mp hties with hties | hties
    · exact .inl (ihl hs hties hjs)
    · exact .inr (ihr (hs.of_extends hext) hties (hext.joints.trans hjs))
  | innerJoin hkind hl hr hcond ihl ihr =>
    have hext := hl.extends hs
    rcases Bool.or_eq_true_iff.mp hties with hties | hties
    · exact .inl (.inr (ihl hs hties hjs))
    · exact .inr (ihr (hs.of_extends hext) hties (hext.joints.trans hjs))
  | leftJoin hl hr hcond hcopy ihl ihr =>
    have hext := hl.extends hs
    have hs₂ := hr.sound (hs.of_extends hext)
    obtain ⟨-, ⟨padded, rfl⟩, -⟩ := leftJoinTerm_spec (fun row hrow =>
      hs₂.isVar (mem_of_mem_drop hrow)) hcopy
    rcases Bool.or_eq_true_iff.mp hties with hties | hties
    · exact .inl (.inl (.inr (ihl hs hties hjs)))
    · exact .inl (.inr (ihr (hs.of_extends hext) hties (hext.joints.trans hjs)))
  | innerUnion hl hr ihl ihr =>
    have hext := hl.extends hs
    rw [equates_dedup]
    rcases Bool.or_eq_true_iff.mp hties with hties | hties
    · exact .inl (ihl hs hties hjs)
    · exact .inr (ihr (hs.of_extends hext) hties (hext.joints.trans hjs))
  | outerUnion hjoint hl hr ihl ihr => cases hties
  | sort hp ih | limit hp ih => exact ih hs hties hjs

/-! ## Free variables -/

/-- The equalities of a projection read its joints and, if there are any joints, its items. -/
theorem free_eqs {eqs : List Term}
    (hjoints : Runs (jointsFor items aliasName) w joints w')
    (heqs : itemTerms owners (joints.zip items) = .ok eqs) :
    (∃ e ∈ eqs, e.Free x) ↔ Tuple.anyUses joints (.var x) = true ∨ Reads owners
      (if w.handed = some 0 then [] else items.flatMap fun i => i.expr.columns) x := by
  rcases jointsFor_cases hjoints with ⟨hj, hlength, rfl⟩ | ⟨hj, pivot, -, rfl⟩
  · cases joints with
    | nil =>
      cases heqs
      simp [Walk.handed, hj, Tuple.anyUses, not_reads_nil]
    | cons joint joints =>
      rw [free_itemTerms (hlength (cons_ne_nil _ _)) heqs, if_neg]
      simp [Walk.handed, hj]
  · rw [free_itemTerms (length_map _) heqs, if_neg]
    simp [Walk.handed, hj]

end Denote

/-- The joints that are handed down read rows of open scopes. -/
def Walk.JointsOpen (opened : List Tuple) (w : Walk) : Prop :=
  ∀ js, w.scope.joints = some js → ∀ x, Tuple.anyUses js (.var x) = true →
    .var x ∈ opened ++ w.scope.rows

namespace Walk

variable {w w₁ : Walk} {opened : List Tuple}

theorem Extends.mem_open (hext : w.Extends w₁) (h : row ∈ opened ++ w.scope.rows) :
    row ∈ opened ++ w₁.scope.rows :=
  mem_append.mpr ((mem_append.mp h).imp_right hext.mem_rows)

theorem JointsOpen.of_extends (h : w.JointsOpen opened) (hext : w.Extends w₁) :
    w₁.JointsOpen opened := by
  intro js hjs x hx
  rw [hext.joints] at hjs
  exact hext.mem_open (h js hjs x hx)

theorem jointsOpen_project (opened : List Tuple) (hvar : row.isVar = true)
    (hrow : row ∈ w.scope.rows) (columns : List String) :
    (w.handing (some (columns.map row.project))).JointsOpen opened := by
  intro js hjs x hx
  cases hjs
  obtain ⟨t, ht, huses⟩ := Denote.anyUses_iff.mp hx
  obtain ⟨column, -, rfl⟩ := mem_map.mp ht
  obtain ⟨y, rfl⟩ := Tuple.exists_eq_var hvar
  rw [Tuple.uses_project_var] at huses
  have hyx : y = x := by simpa [Tuple.uses] using huses
  exact mem_append_right _ (hyx ▸ hrow)

end Walk

namespace Denote

variable {p : Plan} {u : Bool} {w w' : Walk} {t : Term} {opened : List Tuple} {x : String}

theorem free_table_row {name : String} (hvar : row.isVar = true)
    (hx : (Term.table name row).Free x) : row = .var x := by
  obtain ⟨y, rfl⟩ := Tuple.exists_eq_var hvar
  have hyx : y = x := by simpa [Term.Free, Tuple.uses] using hx
  rw [hyx]

/-! The hidden references of a plan in terms of the marks of the walk, one equation for each
operator that has references or parts with different marks. -/

section Hidden

variable {l r q : Plan} {w₁ w₂ : Walk} {lhs rhs : Term}

/-- What a projection hides: columns below it, and those its items read. -/
theorem hidden_proj
    (hs : w.Sound opened) (hjoints : Runs (jointsFor items aliasName) w joints w₁)
    (hp : Walks p false w₁.enter t w₂) :
    (Plan.proj p items distinct aliasName).hidden u w.handed (w.marks opened)
      = p.hidden false w₁.enter.handed (w₁.enter.marks (opened ++ w₁.scope.rows)) ++
        Plan.hiddenAmong (w₂.marks (opened ++ w₁.scope.rows))
          (if w.handed = some 0 then [] else items.flatMap fun i => i.expr.columns) := by
  have hs₁ := hs.of_extends (.jointsFor hjoints)
  rw [hp.marks hs₁.enter, Walk.marks_enter, marks_jointsFor hs hjoints]
  rfl

theorem hidden_filter {c : Condition} (hs : w.Sound opened) (hp : Walks p false w t w₁) :
    (Plan.filter p c).hidden u w.handed (w.marks opened)
      = p.hidden false w.handed (w.marks opened) ++
        Plan.hiddenAmong (w₁.marks opened) c.columns := by
  rw [hp.marks hs]
  rfl

theorem hidden_inSub {ss : List Scalar} (hs : w.Sound opened)
    (hp : Walks p false w t w₁) (hjoints : tuplesOf w₁.owners ss = .ok joints) :
    (Plan.inSub p ss q).hidden u w.handed (w.marks opened)
      = p.hidden false w.handed (w.marks opened) ++
        (Plan.hiddenAmong (w₁.marks opened)
            (if q.tiesJoints false then Scalar.columnsAll ss else []) ++
          q.hidden false (w₁.handing (some joints)).handed
            ((w₁.handing (some joints)).marks opened)) := by
  rw [Walk.handed_handing, Walk.marks_handing, length_tuplesOf hjoints, hp.marks hs]
  rfl

theorem hidden_exists (hs : w.Sound opened) (hp : Walks p false w t w₁) :
    (Plan.exists p q).hidden u w.handed (w.marks opened)
      = p.hidden false w.handed (w.marks opened) ++
        q.hidden false (w₁.handing (some [])).handed ((w₁.handing (some [])).marks opened) := by
  rw [Walk.handed_handing, Walk.marks_handing, hp.marks hs]
  rfl

theorem hidden_join {kind : JoinKind} {c : Option Condition} (hs : w.Sound opened)
    (hl : Walks l false w lhs w₁) (hr : Walks r false w₁ rhs w₂) :
    (Plan.join kind l r c).hidden u w.handed (w.marks opened)
      = l.hidden false w.handed (w.marks opened) ++
        (r.hidden false w₁.handed (w₁.marks opened) ++
          Plan.hiddenAmong (w₂.marks opened) (c.toList.flatMap Condition.columns)) := by
  have hext := hl.extends hs
  rw [hr.marks (hs.of_extends hext), hext.handed, hl.marks hs]
  rfl

theorem hidden_innerUnion {kind : SetOpKind} (hs : w.Sound opened)
    (hl : Walks l true w lhs w₁) :
    (Plan.setOp kind distinct l r).hidden true w.handed (w.marks opened)
      = l.hidden true w.handed (w.marks opened) ++ r.hidden true w₁.handed (w₁.marks opened) := by
  rw [(hl.extends hs).handed, hl.marks hs]
  rfl

theorem hidden_outerUnion {kind : SetOpKind}
    (hs : w.Sound opened) (hjoint : Runs (newRow l.outputOwner) w joint w₁)
    (hl : Walks l true (w₁.handing (some (l.outputColumns.map joint.project))) lhs w₂) :
    (Plan.setOp kind distinct l r).hidden false w.handed (w.marks opened)
      = l.hidden true (w₁.handing (some (l.outputColumns.map joint.project))).handed
          ((w₁.handing (some (l.outputColumns.map joint.project))).marks opened) ++
        r.hidden true w₂.handed (w₂.marks opened) := by
  have hs₁ := hs.handing_newRow hjoint
    l.outputColumns
  rw [(hl.extends hs₁).handed, hl.marks hs₁, Walk.handed_handing, Walk.marks_handing,
    hs.marks_newRow hjoint, length_map]
  rfl

end Hidden

/-! ### Rows of open scopes -/

/-- Without hidden references only rows of open scopes are free. -/
def Opens (p : Plan) (u : Bool) (w : Walk) (t : Term) (w' : Walk) : Prop :=
  ∀ {opened : List Tuple} {x : String}, w.Sound opened →
    (p.tiesJoints u = true → w.JointsOpen opened) → p.hidden u w.handed (w.marks opened) = [] →
    t.Free x → .var x ∈ opened ++ w'.scope.rows

section Opens

variable {l r q : Plan} {w₁ w₂ : Walk} {lhs rhs : Term}

/-- Two parts, one after the other. Joints are handed to both. -/
theorem Opens.parts (hl : Walks l u w lhs w₁) (hr : Walks r u w₁ rhs w₂) (ihl : Opens l u w lhs w₁)
    (ihr : Opens r u w₁ rhs w₂) (hs : w.Sound opened)
    (hopen : (l.tiesJoints u || r.tiesJoints u) = true → w.JointsOpen opened)
    (hhidden : l.hidden u w.handed (w.marks opened) = [])
    (hhidden' : r.hidden u w₁.handed (w₁.marks opened) = []) (hx : lhs.Free x ∨ rhs.Free x) :
    .var x ∈ opened ++ w₂.scope.rows := by
  have hext := hl.extends hs
  have hs₁ := hs.of_extends hext
  rcases hx with hx | hx
  · exact (hr.extends hs₁).mem_open
      (ihl hs (fun h => hopen (Bool.or_eq_true_iff.mpr (.inl h))) hhidden hx)
  · exact ihr hs₁ (fun h => (hopen (Bool.or_eq_true_iff.mpr (.inr h))).of_extends hext) hhidden' hx

/-- A join, of whatever kind, reads the columns of its condition and has the variables of its
sides. -/
theorem Opens.join {kind : JoinKind} {c : Option Condition} (hl : Walks l false w lhs w₁)
    (hr : Walks r false w₁ rhs w₂) (ihl : Opens l false w lhs w₁) (ihr : Opens r false w₁ rhs w₂)
    (hs : w.Sound opened)
    (hopen : (l.tiesJoints false || r.tiesJoints false) = true → w.JointsOpen opened)
    (hhidden : (Plan.join kind l r c).hidden u w.handed (w.marks opened) = [])
    (hx : Reads w₂.owners (c.toList.flatMap Condition.columns) x ∨ lhs.Free x ∨ rhs.Free x) :
    .var x ∈ opened ++ w₂.scope.rows := by
  have hs₁ := hl.sound hs
  rw [hidden_join hs hl hr, append_eq_nil_iff, append_eq_nil_iff] at hhidden
  rcases hx with hx | hx
  · exact (hr.sound hs₁).mem_open_of_reads hhidden.2.2 hx
  · exact ihl.parts hl hr ihr hs hopen hhidden.1 hhidden.2.1 hx

theorem Opens.proj {eqs : List Term} (hjoints : Runs (jointsFor items aliasName) w joints w₁)
    (hp : Walks p false w₁.enter t w₂) (heqs : itemTerms w₂.owners (joints.zip items) = .ok eqs)
    (ih : Opens p false w₁.enter t w₂) :
    Opens (.proj p items distinct aliasName) u w
      (dedup distinct (.sumOver w₂.scope.rows (.product (t :: eqs)))) (w₂.leaveTo w₁) := by
  intro opened x hs hopen hhidden hx
  have hs₁ := hs.of_extends (.jointsFor hjoints)
  rw [hidden_proj hs hjoints hp, append_eq_nil_iff] at hhidden
  rw [free_dedup, Term.free_sumOver, Term.free_product, exists_mem_cons_iff,
    free_eqs hjoints heqs] at hx
  obtain ⟨hbound, hx⟩ := hx
  -- The sum binds the rows of the inner scope, so an open row is one of the scopes around it.
  have hout : .var x ∈ opened ++ w₁.scope.rows ++ w₂.scope.rows →
      .var x ∈ opened ++ w₁.scope.rows :=
    fun hmem => (mem_append.mp hmem).resolve_right hbound
  rcases hx with hx | hx | hx
  · refine hout (ih hs₁.enter (fun _ => ?_) hhidden.1 hx)
    intro js hjs
    cases hjs
  · rcases jointsFor_cases hjoints with ⟨hj, -, rfl⟩ | ⟨-, pivot, hnew, rfl⟩
    · exact hopen rfl _ hj x hx
    · have hmem := (Walk.newRow_mem hnew).1
      refine Walk.jointsOpen_project opened (hs₁.isVar hmem) hmem (items.map Item.name) _ ?_ x hx
      rw [map_map]
      rfl
  · exact hout ((hp.sound hs₁.enter).mem_open_of_reads hhidden.2 hx)

theorem Opens.inSub {ss : List Scalar} (hp : Walks p false w lhs w₁)
    (hjoints : tuplesOf w₁.owners ss = .ok joints)
    (hq : Walks q false (w₁.handing (some joints)) rhs w₂) (ihp : Opens p false w lhs w₁)
    (ihq : Opens q false (w₁.handing (some joints)) rhs w₂) :
    Opens (.inSub p ss q) u w (.mul lhs (.squash rhs)) (w₂.handing w₁.scope.joints) := by
  intro opened x hs hopen hhidden hx
  have hs₁ := hp.sound hs
  have hs₂ := hs₁.handing_tuplesOf hjoints
  rw [hidden_inSub hs hp hjoints, append_eq_nil_iff, append_eq_nil_iff] at hhidden
  rcases hx with hx | hx
  · exact (hq.extends hs₂).handing.mem_open (ihp hs hopen hhidden.1 hx)
  · refine ihq hs₂ (fun hties => ?_) hhidden.2.2 hx
    -- Joints that reach a projection are mentioned, so their references are not hidden.
    intro js hjs y hy
    cases hjs
    rw [if_pos hties] at hhidden
    exact hs₁.mem_open_of_reads hhidden.2.1 ((anyUses_tuplesOf _ hjoints).mp hy)

end Opens

/-- **Without hidden references only rows of open scopes are free.** -/
theorem Walks.mem_open (h : Walks p u w t w') (hs : w.Sound opened)
    (hopen : p.tiesJoints u = true → w.JointsOpen opened)
    (hidden : p.hidden u w.handed (w.marks opened) = []) (hx : t.Free x) :
    .var x ∈ opened ++ w'.scope.rows := by
  induction h generalizing opened x with
  | input hrow =>
    have hmem := (Walk.newRow_mem hrow).1
    have hvar := (hs.of_extends (.newRow hrow)).isVar hmem
    exact free_table_row hvar hx ▸ mem_append_right _ hmem
  | proj hjoints hp heqs ih => exact Opens.proj hjoints hp heqs ih hs hopen hidden hx
  | filter hp hcond ih =>
    rw [hidden_filter hs hp, append_eq_nil_iff] at hidden
    rcases hx with hx | hx
    · rw [free_filterTerm hcond] at hx
      exact (hp.sound hs).mem_open_of_reads hidden.2 hx
    · exact ih hs hopen hidden.1 hx
  | inSub hne hp hlhs hq ihp ihq => exact Opens.inSub hp hlhs hq ihp ihq hs hopen hidden hx
  | «exists» hp hq ihp ihq =>
    have hs₁ := hp.sound hs
    have hs₂ : (Walk.handing _ (some [])).Sound opened := hs₁.handing (by simp)
    rw [hidden_exists hs hp, append_eq_nil_iff] at hidden
    rcases hx with hx | hx
    · exact (hq.extends hs₂).handing.mem_open (ihp hs hopen hidden.1 hx)
    · refine ihq hs₂ (fun _ => ?_) hidden.2 hx
      -- No joints are handed to the subquery.
      intro js hjs y hy
      cases hjs
      cases hy
  | crossJoin hkind hl hr ihl ihr => exact Opens.join hl hr ihl ihr hs hopen hidden (.inr hx)
  | innerJoin hkind hl hr hcond ihl ihr =>
    refine Opens.join hl hr ihl ihr hs hopen hidden ?_
    rw [Option.toList_some, flatMap_singleton, ← free_joinTerm hcond]
    exact or_assoc.mp hx
  | @leftJoin l r c u w w₁ w₂ w₃ lhs rhs cond t hl hr hcond hcopy ihl ihr =>
    have hs₁ := hl.sound hs
    have hs₂ := hr.sound hs₁
    obtain ⟨rfl, -, hfree⟩ := leftJoinTerm_spec (fun row hrow =>
      hs₂.isVar (mem_of_mem_drop hrow)) hcopy
    rcases (hfree x).mp hx with hx | hx
    · have hread : Reads w₂.owners ((some c).toList.flatMap Condition.columns) x ∨
          lhs.Free x ∨ rhs.Free x := by
        rw [Option.toList_some, flatMap_singleton, ← free_joinTerm hcond]
        exact or_assoc.mp hx
      have hmem := Opens.join hl hr ihl ihr hs hopen hidden hread
      exact hmem
    -- The rows of the right side are tested for null.
    · exact mem_append_right _ (mem_of_mem_drop hx)
  | innerUnion hl hr ihl ihr =>
    rw [hidden_innerUnion hs hl, append_eq_nil_iff] at hidden
    exact Opens.parts hl hr ihl ihr hs hopen hidden.1 hidden.2 (free_dedup.mp hx)
  | outerUnion hjoint hl hr ihl ihr =>
    have hs₁ := hs.of_extends (.newRow hjoint)
    have hs₂ := hs₁.handing_project (Walk.newRow_mem hjoint).2
    have hmem := (Walk.newRow_mem hjoint).1
    have hjoints := Walk.jointsOpen_project opened (hs₁.isVar hmem) hmem
    rw [hidden_outerUnion hs hjoint hl, append_eq_nil_iff] at hidden
    have hrow := Opens.parts hl hr ihl ihr (hs₂ _) (fun _ => hjoints _) hidden.1 hidden.2
      (free_dedup.mp hx)
    exact hrow
  | sort hp ih | limit hp ih => exact ih hs hopen hidden hx

/-! ### Rows of closed scopes -/

/-- With a hidden reference a row of a closed scope is free. -/
def Leaks (p : Plan) (u : Bool) (w : Walk) (t : Term) (w' : Walk) : Prop :=
  ∀ {opened : List Tuple}, w.Sound opened → p.hidden u w.handed (w.marks opened) ≠ [] →
    ∃ x, t.Free x ∧ w'.Closed opened x

section Leaks

variable {l r q : Plan} {w₁ w₂ : Walk} {lhs rhs : Term}

/-- Two parts, one after the other. A closed row stays closed. -/
theorem Leaks.parts (hl : Walks l u w lhs w₁) (hr : Walks r u w₁ rhs w₂) (ihl : Leaks l u w lhs w₁)
    (ihr : Leaks r u w₁ rhs w₂) (hs : w.Sound opened)
    (hhidden : l.hidden u w.handed (w.marks opened) ≠ [] ∨
      r.hidden u w₁.handed (w₁.marks opened) ≠ []) :
    ∃ x, (lhs.Free x ∨ rhs.Free x) ∧ w₂.Closed opened x := by
  have hs₁ := hl.sound hs
  rcases hhidden with hhidden | hhidden
  · obtain ⟨x, hx, hclosed⟩ := ihl hs hhidden
    exact ⟨x, .inl hx, hclosed.of_extends hs₁ (hr.extends hs₁)⟩
  · obtain ⟨x, hx, hclosed⟩ := ihr hs₁ hhidden
    exact ⟨x, .inr hx, hclosed⟩

theorem Leaks.join {kind : JoinKind} {c : Option Condition} (hl : Walks l false w lhs w₁)
    (hr : Walks r false w₁ rhs w₂) (ihl : Leaks l false w lhs w₁) (ihr : Leaks r false w₁ rhs w₂)
    (hs : w.Sound opened)
    (hhidden : (Plan.join kind l r c).hidden u w.handed (w.marks opened) ≠ []) :
    ∃ x, (Reads w₂.owners (c.toList.flatMap Condition.columns) x ∨ lhs.Free x ∨ rhs.Free x) ∧
      w₂.Closed opened x := by
  have hs₁ := hl.sound hs
  rw [hidden_join hs hl hr, ← append_assoc, Ne, append_eq_nil_iff, append_eq_nil_iff, not_and_or,
    not_and_or] at hhidden
  rcases hhidden with hhidden | hhidden
  · obtain ⟨x, hx, hclosed⟩ := ihl.parts hl hr ihr hs hhidden
    exact ⟨x, .inr hx, hclosed⟩
  · obtain ⟨x, hx, hclosed⟩ := (hr.sound hs₁).exists_closed_of_hidden hhidden
    exact ⟨x, .inl hx, hclosed⟩

theorem Leaks.proj {eqs : List Term} (hjoints : Runs (jointsFor items aliasName) w joints w₁)
    (hp : Walks p false w₁.enter t w₂) (heqs : itemTerms w₂.owners (joints.zip items) = .ok eqs)
    (ih : Leaks p false w₁.enter t w₂) :
    Leaks (.proj p items distinct aliasName) u w
      (dedup distinct (.sumOver w₂.scope.rows (.product (t :: eqs)))) (w₂.leaveTo w₁) := by
  intro opened hs hhidden
  have hs₁ := hs.of_extends (.jointsFor hjoints)
  -- The sum binds rows that are open inside it.
  have hout : ∀ x, w₂.Closed (opened ++ w₁.scope.rows) x → (t.Free x ∨ ∃ e ∈ eqs, e.Free x) →
      ∃ x, (dedup distinct (.sumOver w₂.scope.rows (.product (t :: eqs)))).Free x ∧
        (w₂.leaveTo w₁).Closed opened x := by
    intro x hclosed hx
    refine ⟨x, ?_, hclosed.leaveTo⟩
    rw [free_dedup, Term.free_sumOver, Term.free_product, exists_mem_cons_iff]
    exact ⟨fun hmem => hclosed.2 (mem_append_right _ hmem), hx⟩
  rw [hidden_proj hs hjoints hp, Ne, append_eq_nil_iff, not_and_or] at hhidden
  rcases hhidden with hhidden | hhidden
  · obtain ⟨x, hx, hclosed⟩ := ih hs₁.enter hhidden
    exact hout x hclosed (.inl hx)
  · obtain ⟨x, hx, hclosed⟩ :=
      (hp.sound hs₁.enter).exists_closed_of_hidden hhidden
    exact hout x hclosed (.inr ((free_eqs hjoints heqs).mpr (.inr hx)))

theorem Leaks.inSub {ss : List Scalar} (hp : Walks p false w lhs w₁)
    (hjoints : tuplesOf w₁.owners ss = .ok joints)
    (hq : Walks q false (w₁.handing (some joints)) rhs w₂) (ihp : Leaks p false w lhs w₁)
    (ihq : Leaks q false (w₁.handing (some joints)) rhs w₂) :
    Leaks (.inSub p ss q) u w (.mul lhs (.squash rhs)) (w₂.handing w₁.scope.joints) := by
  intro opened hs hhidden
  have hs₁ := hp.sound hs
  have hs₂ := hs₁.handing_tuplesOf hjoints
  have hext := (hq.extends hs₂).handing
  rw [hidden_inSub hs hp hjoints, Ne, append_eq_nil_iff, append_eq_nil_iff, not_and_or,
    not_and_or] at hhidden
  rcases hhidden with hhidden | hhidden | hhidden
  · obtain ⟨x, hx, hclosed⟩ := ihp hs hhidden
    exact ⟨x, .inl hx, hclosed.of_extends hs₁ hext⟩
  · obtain ⟨x, hx, hclosed⟩ := hs₁.exists_closed_of_hidden hhidden
    refine ⟨x, .inr ?_, hclosed.of_extends hs₁ hext⟩
    split at hx
    · next hties =>
      -- The joint that reads the row is compared in the subquery.
      rw [← anyUses_tuplesOf _ hjoints] at hx
      obtain ⟨joint, hjoint, huses⟩ := anyUses_iff.mp hx
      exact (hq.equates hs₂ hties rfl hjoint).free huses
    · exact absurd hx not_reads_nil
  · obtain ⟨x, hx, hclosed⟩ := ihq hs₂ hhidden
    exact ⟨x, .inr hx, hclosed⟩

end Leaks

/-- **With a hidden reference a row of a closed scope is free.** -/
theorem Walks.exists_closed (h : Walks p u w t w') (hs : w.Sound opened)
    (hidden : p.hidden u w.handed (w.marks opened) ≠ []) :
    ∃ x, t.Free x ∧ w'.Closed opened x := by
  induction h generalizing opened with
  | input hrow => exact absurd rfl hidden
  | proj hjoints hp heqs ih => exact Leaks.proj hjoints hp heqs ih hs hidden
  | filter hp hcond ih =>
    rw [hidden_filter hs hp, Ne, append_eq_nil_iff, not_and_or] at hidden
    rcases hidden with hidden | hidden
    · obtain ⟨x, hx, hclosed⟩ := ih hs hidden
      exact ⟨x, .inr hx, hclosed⟩
    · obtain ⟨x, hx, hclosed⟩ := (hp.sound hs).exists_closed_of_hidden hidden
      exact ⟨x, .inl ((free_filterTerm hcond).mpr hx), hclosed⟩
  | inSub hne hp hlhs hq ihp ihq => exact Leaks.inSub hp hlhs hq ihp ihq hs hidden
  | «exists» hp hq ihp ihq =>
    have hs₁ := hp.sound hs
    have hs₂ : (Walk.handing _ (some [])).Sound opened := hs₁.handing (by simp)
    rw [hidden_exists hs hp, Ne, append_eq_nil_iff, not_and_or] at hidden
    rcases hidden with hidden | hidden
    · obtain ⟨x, hx, hclosed⟩ := ihp hs hidden
      exact ⟨x, .inl hx, hclosed.of_extends hs₁ (hq.extends hs₂).handing⟩
    · obtain ⟨x, hx, hclosed⟩ := ihq hs₂ hidden
      exact ⟨x, .inr hx, hclosed⟩
  | crossJoin hkind hl hr ihl ihr =>
    obtain ⟨x, hx, hclosed⟩ := Leaks.join hl hr ihl ihr hs hidden
    exact ⟨x, hx.resolve_left not_reads_nil, hclosed⟩
  | innerJoin hkind hl hr hcond ihl ihr =>
    obtain ⟨x, hx, hclosed⟩ := Leaks.join hl hr ihl ihr hs hidden
    rw [Option.toList_some, flatMap_singleton, ← free_joinTerm hcond] at hx
    exact ⟨x, or_assoc.mpr hx, hclosed⟩
  | leftJoin hl hr hcond hcopy ihl ihr =>
    have hs₁ := hl.sound hs
    have hs₂ := hr.sound hs₁
    obtain ⟨rfl, -, hfree⟩ := leftJoinTerm_spec (fun row hrow =>
      hs₂.isVar (mem_of_mem_drop hrow)) hcopy
    obtain ⟨x, hx, hclosed⟩ := Leaks.join hl hr ihl ihr hs hidden
    rw [Option.toList_some, flatMap_singleton, ← free_joinTerm hcond] at hx
    exact ⟨x, (hfree x).mpr (.inl (or_assoc.mpr hx)), hclosed⟩
  | innerUnion hl hr ihl ihr =>
    rw [hidden_innerUnion hs hl, Ne, append_eq_nil_iff, not_and_or] at hidden
    obtain ⟨x, hx, hclosed⟩ := Leaks.parts hl hr ihl ihr hs hidden
    exact ⟨x, free_dedup.mpr hx, hclosed⟩
  | outerUnion hjoint hl hr ihl ihr =>
    have hs₁ := hs.handing_newRow hjoint
    rw [hidden_outerUnion hs hjoint hl, Ne, append_eq_nil_iff, not_and_or] at hidden
    obtain ⟨x, hx, hclosed⟩ := Leaks.parts hl hr ihl ihr (hs₁ _) hidden
    exact ⟨x, free_dedup.mpr hx, hclosed⟩
  | sort hp ih | limit hp ih => exact ih hs hidden

/-- A projection at the root gives the row of the query to its output and closes all else. -/
theorem Walks.rows_of_isProjection (h : Walks p u w t w') (hp : p.isProjection = true)
    (hw : w.scope = ⟨true, [], none⟩) : w'.scope.rows = [rootRow] := by
  induction h with
  | @proj p items distinct u aliasName w w₁ w₂ joints t eqs hjoints hp heqs ih =>
    show w₁.scope.rows = [rootRow]
    rcases jointsFor_cases hjoints with ⟨hj, -⟩ | ⟨-, pivot, hnew, -⟩
    · rw [hw] at hj
      cases hj
    · -- The scope is the one of the whole query and has no row yet.
      rcases newRow_cases hnew with ⟨-, -, rfl, rfl⟩ | ⟨hfirst, -⟩
      · simp [Walk.bindRow, hw]
      · rw [hw] at hfirst
        cases hfirst rfl
  | sort hp' ih | limit hp' ih => exact ih hp hw
  | _ => cases hp

end Denote

/-- **Only the row of the query escapes, unless a reference is hidden.** The term of a plan with a
projection at its root has no other free variable than the row of the query exactly if no reference
goes to an alias whose query is closed. -/
theorem Plan.freeVars_denote_iff {p : Plan} {d : Denotation} (hroot : p.isProjection = true)
    (h : p.denote = .ok d) : (∀ v ∈ d.freeVars, v = Denote.rootRow) ↔ p.hiddenColumns = [] := by
  obtain ⟨w, hwalk, hfree⟩ := p.walks_of_denote h
  have hrows := hwalk.rows_of_isProjection hroot rfl
  rw [hfree]
  constructor
  · intro hall
    by_contra hidden
    obtain ⟨x, hx, hclosed⟩ := hwalk.exists_closed Walk.sound_start hidden
    refine hclosed.2 ?_
    rw [hall _ (Term.mem_freeVars.mpr ⟨x, rfl, hx⟩), hrows]
    exact mem_cons_self
  · intro hidden v hv
    obtain ⟨x, rfl, hx⟩ := Term.mem_freeVars.mp hv
    have hopen := hwalk.mem_open Walk.sound_start (fun _ js hjs => by cases hjs) hidden hx
    rw [hrows] at hopen
    exact mem_singleton.mp hopen

/-- `SELECT r.a FROM R r WHERE EXISTS (SELECT s.b FROM S s WHERE s.b = r.a)`: the subquery refers to
the query around it, which is still open. -/
def Plan.correlated : Plan :=
  .proj
    (.exists (.input "R" "r" ["a"])
      (.proj (.filter (.input "S" "s" ["b"]) (.eq (.column "s" "b") (.column "r" "a")))
        [⟨.column "s" "b", "b"⟩] false "v"))
    [⟨.column "r" "a", "a"⟩] false "q"

/-- The reference to the open query is not hidden, and only the row of the query escapes. -/
theorem Plan.freeVars_denote_correlated :
    Plan.correlated.isProjection = true ∧ Plan.correlated.hiddenColumns = [] ∧
      ∃ d, Plan.correlated.denote = .ok d ∧ ∀ v ∈ d.freeVars, v = Denote.rootRow := by
  refine ⟨rfl, rfl, _, rfl, ?_⟩
  exact (Plan.freeVars_denote_iff (p := Plan.correlated) rfl rfl).mpr rfl

/-- `SELECT r.a FROM (SELECT r.a FROM R r) x`: the outer query refers to an alias of the inner one.
-/
def Plan.leaking : Plan :=
  .proj (.proj (.input "R" "r" ["a"]) [⟨.column "r" "a", "a"⟩] false "x")
    [⟨.column "r" "a", "a"⟩] false "q"

/-- The reference to the closed query is resolved all the same, and the row of that query escapes
beside the row of the query. -/
theorem Plan.freeVars_denote_leaking :
    Plan.leaking.isProjection = true ∧ Plan.leaking.hiddenColumns = [("r", "a")] ∧
      ∃ d, Plan.leaking.denote = .ok d ∧ d.freeVars = [Denote.rootRow, Denote.numberedRow 1] :=
  ⟨rfl, rfl, _, rfl, rfl⟩

end QueryRules
