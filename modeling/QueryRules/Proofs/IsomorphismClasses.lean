import QueryRules.Proofs.AlikeForms

/-!
# QueryRules — isomorphism is an equivalence

The search of `Disj.isIsomorphic` succeeds exactly on disjunctions that are alike
(`Disj.isIsomorphic_iff`), as long as binders are variables that a list names once and no variable
looks like a tag (`Disj.WellNamed`). So isomorphism is reflexive, symmetric and transitive there.
-/

namespace QueryRules

open List

/-! ## The order of tuple expressions -/

mutual

/-- Comparing the other way round swaps the answer. -/
theorem Tuple.compare_swap : (a b : Tuple) → a.compare b = (b.compare a).swap
  | .var m, .var n => Std.OrientedOrd.eq_swap (a := m) (b := n)
  | .const m, .const n => Std.OrientedOrd.eq_swap (a := m) (b := n)
  | .attr a m, .attr b n => by
    rw [Tuple.compare, Tuple.compare, Ordering.swap_then, ← Tuple.compare_swap a b,
      ← Std.OrientedOrd.eq_swap (a := m) (b := n)]
  | .call m as, .call n bs => by
    rw [Tuple.compare, Tuple.compare, Ordering.swap_then, ← Tuple.compareList_swap as bs,
      ← Std.OrientedOrd.eq_swap (a := m) (b := n)]
  | .var _, .const _ => rfl
  | .var _, .attr _ _ => rfl
  | .var _, .call _ _ => rfl
  | .const _, .var _ => rfl
  | .const _, .attr _ _ => rfl
  | .const _, .call _ _ => rfl
  | .attr _ _, .var _ => rfl
  | .attr _ _, .const _ => rfl
  | .attr _ _, .call _ _ => rfl
  | .call _ _, .var _ => rfl
  | .call _ _, .const _ => rfl
  | .call _ _, .attr _ _ => rfl

theorem Tuple.compareList_swap : (as bs : List Tuple) →
    Tuple.compareList as bs = (Tuple.compareList bs as).swap
  | [], [] => rfl
  | [], _ :: _ => rfl
  | _ :: _, [] => rfl
  | a :: as, b :: bs => by
    rw [Tuple.compareList, Tuple.compareList, Ordering.swap_then, ← Tuple.compare_swap a b,
      ← Tuple.compareList_swap as bs]

end

/-- Oriented equalities are the same exactly if their sides are, up to turning one of them. -/
theorem Tuple.orient_eq_iff {l r l' r' : Tuple} :
    (if l.le r then PredAtom.eq l r else .eq r l) = (if l'.le r' then .eq l' r' else .eq r' l') ↔
      (l = l' ∧ r = r') ∨ (l = r' ∧ r = l') := by
  -- Turning the sides does not matter: where the order leaves both ways open, they are equal.
  have hturn : ∀ a b : Tuple, (if a.le b then PredAtom.eq a b else .eq b a)
      = if b.le a then .eq b a else .eq a b := by
    intro a b
    have hswap : b.le a = (a.compare b).swap.isLE := congrArg Ordering.isLE (compare_swap b a)
    rw [hswap]
    unfold le
    cases hcmp : a.compare b with
    | lt => rfl
    | eq =>
      rw [eq_of_compare a b hcmp]
      rfl
    | gt => rfl
  constructor
  · intro h
    split at h
    · split at h
      · exact .inl (PredAtom.eq.inj h)
      · exact .inr (PredAtom.eq.inj h)
    · split at h
      · exact .inr (PredAtom.eq.inj h).symm
      · exact .inl (PredAtom.eq.inj h).symm
  · rintro (⟨rfl, rfl⟩ | ⟨rfl, rfl⟩)
    · rfl
    · exact hturn _ _

/-! ## Renamings that agree -/

namespace Tuple

variable {R : Pairing} {f g : String → String}

mutual

/-- Corresponding variables that get the same name make the expressions the same. -/
theorem Renamed.rename_eq {t t' : Tuple} : t.Renamed R t' →
    (∀ x y, t.uses (.var x) = true → t'.uses (.var y) = true → R x y → f x = g y) →
      t.rename f = t'.rename g
  | .var h, hfg => congrArg Tuple.var (hfg _ _ (by simp [uses]) (by simp [uses]) h)
  | .const c, _ => rfl
  | .attr h a, hfg => by
    rw [rename, rename,
      h.rename_eq fun x y hx hy => hfg x y (by simp [uses, hx]) (by simp [uses, hy])]
  | .call k h, hfg => by
    rw [rename, rename,
      h.rename_eq fun x y hx hy => hfg x y (by simp [uses, hx]) (by simp [uses, hy])]

theorem RenamedAll.rename_eq {ts ts' : List Tuple} : RenamedAll R ts ts' →
    (∀ x y, anyUses ts (.var x) = true → anyUses ts' (.var y) = true → R x y → f x = g y) →
      renameAll f ts = renameAll g ts'
  | .nil, _ => rfl
  | .cons h hs, hfg => by
    rw [renameAll, renameAll,
      h.rename_eq fun x y hx hy => hfg x y (by simp [anyUses, hx]) (by simp [anyUses, hy]),
      hs.rename_eq fun x y hx hy => hfg x y (by simp [anyUses, hx]) (by simp [anyUses, hy])]

end

theorem rename_fold (f : String → String) (t : Tuple) : t.fold.rename f = t.rename f :=
  rename_rename id f t

/-- Two renamings make two expressions the same exactly if these are alike, where variables that get
the same name correspond. -/
theorem rename_eq_rename_iff {t t' : Tuple}
    (h : ∀ x y, t.uses (.var x) = true → t'.uses (.var y) = true → (f x = g y ↔ R x y)) :
    t.rename f = t'.rename g ↔ t.Alike R t' := by
  constructor
  · intro heq
    -- Either expression is its renamed form with the old names put back.
    have hleft : (t.rename f).Renamed (fun z x => z = f x ∧ t.uses (.var x) = true) t.fold :=
      renamed_rename t fun x hx => ⟨rfl, hx⟩
    have hright : (t.rename f).Renamed (fun z y => z = g y ∧ t'.uses (.var y) = true) t'.fold :=
      heq ▸ renamed_rename t' fun y hy => ⟨rfl, hy⟩
    refine (hleft.symm.trans hright).mono ?_
    rintro x y ⟨z, ⟨hzx, hx⟩, hzy, hy⟩
    exact (h x y hx hy).mp (hzx.symm.trans hzy)
  · intro halike
    rw [← rename_fold f t, ← rename_fold g t']
    exact Renamed.rename_eq halike fun x y hx hy =>
      (h x y (uses_fold.mp hx) (uses_fold.mp hy)).mpr

end Tuple

/-! ## Tags as labels -/

namespace Labels

/-- The tags that replace variables by their labels. -/
def tags (σ : Labels) : Tags :=
  σ.map fun p => (p.1, .var p.2)

/-- Binders that are matched one after the other get the next tags, from the number `k` on. -/
def push : (σ : Labels) → (k : Nat) → List Tuple → Labels
  | σ, _, [] => σ
  | σ, k, v :: vs => push ((v, Tags.tagName k) :: σ) (k + 1) vs

theorem next_tags (σ : Labels) : σ.tags.next = .var (Tags.tagName σ.length) := by
  unfold Tags.next tags Tags.tagName
  rw [length_map]

theorem mapTuple_var (σ : Labels) (x : String) : σ.tags.mapTuple (.var x) = .var (σ.name x) := by
  unfold name
  rw [Tags.mapTuple]
  induction σ with
  | nil => rfl
  | cons p σ ih =>
    show ((List.lookup (Tuple.var x) ((p.1, Tuple.var p.2) :: tags σ)).getD _) = _
    rw [lookup_cons, lookup_cons]
    split
    · rfl
    · exact ih

mutual

theorem mapTuple_tags (σ : Labels) : (t : Tuple) → σ.tags.mapTuple t = t.rename σ.name
  | .var x => mapTuple_var σ x
  | .const _ => rfl
  | .attr base a => by rw [Tags.mapTuple, mapTuple_tags σ base, Tuple.rename]
  | .call f args => by rw [Tags.mapTuple, mapTuples_tags σ args, Tuple.rename]

theorem mapTuples_tags (σ : Labels) : (ts : List Tuple) →
    σ.tags.mapTuples ts = Tuple.renameAll σ.name ts
  | [] => rfl
  | t :: ts => by rw [Tags.mapTuples, mapTuple_tags σ t, mapTuples_tags σ ts, Tuple.renameAll]

end

/-- The labels of both sides are tags, and variables that correspond are those with the same one. -/
structure Pairs (R : Pairing) (σ τ : Labels) : Prop where
  left_tag : ∀ p ∈ σ, ∃ j < σ.length, p.2 = Tags.tagName j
  right_tag : ∀ p ∈ τ, ∃ j < σ.length, p.2 = Tags.tagName j
  name_eq_iff : ∀ x y, IsPlain x → IsPlain y → (σ.name x = τ.name y ↔ R x y)

theorem pairs_nil : Pairs Eq [] [] :=
  ⟨fun _ hp => absurd hp not_mem_nil, fun _ hp => absurd hp not_mem_nil,
    fun _ _ _ _ => Iff.rfl⟩

/-- A plain variable does not have the next tag. -/
theorem name_ne_tagName {σ : Labels} {k : Nat} (h : ∀ p ∈ σ, ∃ j < k, p.2 = Tags.tagName j)
    {x : String} (hx : IsPlain x) : σ.name x ≠ Tags.tagName k := by
  unfold name
  cases hlook : σ.lookup (.var x) with
  | none =>
    rintro rfl
    exact Tags.not_isPlain_tagName k hx
  | some n =>
    obtain ⟨l₁, l₂, hσ, -⟩ := lookup_eq_some_iff.mp hlook
    obtain ⟨j, hj, rfl⟩ := h (.var x, n) (by simp [hσ])
    intro heq
    exact absurd (FreshNames.append_repr_inj heq) (Nat.ne_of_lt hj)

/-- A pair of binders that get the next tag. -/
theorem Pairs.push {R : Pairing} {σ τ : Labels} (h : Pairs R σ τ) (a b : String) :
    Pairs (R.bind [(.var a, .var b)]) ((.var a, Tags.tagName σ.length) :: σ)
      ((.var b, Tags.tagName σ.length) :: τ) := by
  have htag : ∀ (v : Tuple) {ρ : Labels}, (∀ p ∈ ρ, ∃ j < σ.length, p.2 = Tags.tagName j) →
      ∀ p ∈ (v, Tags.tagName σ.length) :: ρ, ∃ j < σ.length + 1, p.2 = Tags.tagName j := by
    intro v ρ hρ p hp
    rcases mem_cons.mp hp with rfl | hp
    · exact ⟨σ.length, Nat.lt_succ_self _, rfl⟩
    · obtain ⟨j, hj, hname⟩ := hρ p hp
      exact ⟨j, Nat.lt_succ_of_lt hj, hname⟩
  refine ⟨htag _ h.left_tag, htag _ h.right_tag, fun x y hx hy => ?_⟩
  rw [name_cons, name_cons]
  have hbind : R.bind [(.var a, .var b)] x y ↔ (x = a ∧ y = b) ∨ (x ≠ a ∧ y ≠ b ∧ R x y) := by
    simp [Pairing.bind]
  -- The new tag is the label of no other variable, on either side.
  rw [hbind]
  by_cases hxa : x = a
  · by_cases hyb : y = b
    · simp [hxa, hyb]
    · simp [hxa, hyb, (name_ne_tagName h.right_tag hy).symm]
  · by_cases hyb : y = b
    · simp [hxa, hyb, name_ne_tagName h.left_tag hx]
    · simp [hxa, hyb, h.name_eq_iff x y hx hy]

/-- Binders that are matched one after the other: the pairing is extended by all of them, since none
hides another. -/
theorem Pairs.pushAll {R : Pairing} {σ τ : Labels} (h : Pairs R σ τ) {vs ws : List Tuple}
    (hlen : vs.length = ws.length) (hvs : ∀ v ∈ vs, ∃ x, v = .var x)
    (hws : ∀ w ∈ ws, ∃ x, w = .var x) (hvsn : vs.Nodup) (hwsn : ws.Nodup) :
    Pairs (R.bind (vs.zip ws)) (σ.push σ.length vs) (τ.push σ.length ws) := by
  induction vs generalizing ws σ τ R with
  | nil =>
    obtain rfl : ws = [] := length_eq_zero_iff.mp hlen.symm
    rw [zip_nil_left, Pairing.bind_nil]
    exact h
  | cons v vs ih =>
    cases ws with
    | nil => cases hlen
    | cons w ws =>
      rw [length_cons, length_cons] at hlen
      rw [forall_mem_cons] at hvs hws
      rw [nodup_cons] at hvsn hwsn
      obtain ⟨⟨a, rfl⟩, hvs⟩ := hvs
      obtain ⟨⟨b, rfl⟩, hws⟩ := hws
      -- The first pair becomes part of what the others extend.
      have hrest := ih (h.push a b) (Nat.succ.inj hlen) hvs hws hvsn.2 hwsn.2
      rw [Pairing.bind_cons, length_cons] at hrest
      · exact hrest
      · rw [map_fst_zip (Nat.succ.inj hlen).le]
        exact hvsn.1
      · rw [map_snd_zip (Nat.succ.inj hlen).ge]
        exact hwsn.1

namespace Pairs

variable {R : Pairing} {σ τ : Labels}

theorem mapTuple_eq_iff (h : Pairs R σ τ) {t t' : Tuple} (ht : PlainNames t.uses)
    (ht' : PlainNames t'.uses) : σ.tags.mapTuple t = τ.tags.mapTuple t' ↔ t.Alike R t' := by
  rw [mapTuple_tags, mapTuple_tags]
  exact Tuple.rename_eq_rename_iff fun x y hx hy => h.name_eq_iff x y (ht x hx) (ht' y hy)

/-- Tagged tuples are equal just if the tuples correspond. -/
theorem mapTuples_eq_iff (h : Pairs R σ τ) {ts ts' : List Tuple}
    (hts : PlainNames (Tuple.anyUses ts)) (hts' : PlainNames (Tuple.anyUses ts')) :
    σ.tags.mapTuples ts = τ.tags.mapTuples ts' ↔ List.Forall₂ (Tuple.Alike R) ts ts' := by
  induction ts generalizing ts' with
  | nil =>
    cases ts' with
    | nil | cons t' ts' => simp [Tags.mapTuples]
  | cons t ts ih =>
    cases ts' with
    | nil => simp [Tags.mapTuples]
    | cons t' ts' =>
      have ht : PlainNames t.uses := hts.of_imp fun v hv => by simp [Tuple.anyUses, hv]
      have ht' : PlainNames t'.uses := hts'.of_imp fun v hv => by simp [Tuple.anyUses, hv]
      have hrest : PlainNames (Tuple.anyUses ts) :=
        hts.of_imp fun v hv => by simp [Tuple.anyUses, hv]
      have hrest' : PlainNames (Tuple.anyUses ts') :=
        hts'.of_imp fun v hv => by simp [Tuple.anyUses, hv]
      rw [Tags.mapTuples, Tags.mapTuples, List.cons.injEq, h.mapTuple_eq_iff ht ht',
        ih hrest hrest', forall₂_cons]

theorem mapTable_eq_iff (h : Pairs R σ τ) {a b : TableAtom} (ha : PlainNames a.row.uses)
    (hb : PlainNames b.row.uses) : σ.tags.mapTable a = τ.tags.mapTable b ↔ a.Alike R b := by
  unfold Tags.mapTable
  rw [TableAtom.mk.injEq, h.mapTuple_eq_iff ha hb]
  exact ⟨fun hab => ⟨hab.1, hab.2⟩, fun hab => ⟨hab.name, hab.row⟩⟩

/-- Equalities are compared after orienting them, so they may be turned. -/
theorem mapPred_eq_iff (h : Pairs R σ τ) {p q : PredAtom} (hp : PlainNames fun v => p.uses v)
    (hq : PlainNames fun v => q.uses v) : σ.tags.mapPred p = τ.tags.mapPred q ↔ p.Alike R q := by
  cases p with
  | pred n args =>
    cases q with
    | pred n' args' =>
      rw [Tags.mapPred, Tags.mapPred, PredAtom.pred.injEq, h.mapTuples_eq_iff hp hq]
      constructor
      · rintro ⟨rfl, hargs⟩
        exact .pred n hargs
      · rintro ⟨⟩
        exact ⟨rfl, ‹_›⟩
    | eq l' r' =>
      constructor
      · intro heq
        unfold Tags.mapPred at heq
        dsimp only at heq
        split at heq <;> cases heq
      · rintro ⟨⟩
  | eq l r =>
    have hl : PlainNames l.uses := hp.of_imp fun v hv => by simp [PredAtom.uses, hv]
    have hr : PlainNames r.uses := hp.of_imp fun v hv => by simp [PredAtom.uses, hv]
    cases q with
    | pred n' args' =>
      constructor
      · intro heq
        unfold Tags.mapPred at heq
        dsimp only at heq
        split at heq <;> cases heq
      · rintro ⟨⟩
    | eq l' r' =>
      have hl' : PlainNames l'.uses := hq.of_imp fun v hv => by simp [PredAtom.uses, hv]
      have hr' : PlainNames r'.uses := hq.of_imp fun v hv => by simp [PredAtom.uses, hv]
      -- An equality may have been turned round on either side.
      rw [Tags.mapPred, Tags.mapPred, Tuple.orient_eq_iff, h.mapTuple_eq_iff hl hl',
        h.mapTuple_eq_iff hr hr', h.mapTuple_eq_iff hl hr', h.mapTuple_eq_iff hr hl']
      constructor
      · rintro (⟨hll, hrr⟩ | ⟨hlr, hrl⟩)
        · exact .eq hll hrr
        · exact .turned hlr hrl
      · intro halike
        cases halike with
        | eq hll hrr => exact .inl ⟨hll, hrr⟩
        | turned hlr hrl => exact .inr ⟨hlr, hrl⟩

end Pairs

end Labels

/-! ## Well-named forms -/

/-- Binders are variables, a binder list has no repeats, and no variable looks like a tag. Inner
binders may hide outer ones. -/
structure Conj.WellNamed (c : Conj) : Prop where
  base : c.BaseBinders
  distinct : c.Distinct
  plain : PlainNames c.uses

/-- All conjunctions are well named. -/
def Disj.WellNamed (d : Disj) : Prop :=
  ∀ c ∈ d, c.WellNamed

namespace Conj.WellNamed

variable {c : Conj}

theorem vars (h : c.WellNamed) : ∀ v ∈ c.vars, ∃ x, v = .var x :=
  ((hereditary_baseBinders c).mp h.base).1

theorem nodup (h : c.WellNamed) : c.vars.Nodup :=
  ((hereditary_distinct c).mp h.distinct).1

theorem nested (h : c.WellNamed) {d : Disj} (hd : c.Nests d) : Disj.WellNamed d := by
  intro e he
  have huses : ∀ v, e.uses v = true → c.uses v = true := by
    intro v hv
    have hdv : Disj.uses d v = true := Disj.uses_iff.mpr ⟨e, he, hv⟩
    refine Conj.uses_iff.mpr (.inr (.inr ?_))
    rcases hd with hd | hd
    · exact .inl (by rw [hd]; exact hdv)
    · exact .inr (by rw [hd]; exact hdv)
  exact ⟨((hereditary_baseBinders c).mp h.base).2 d hd e he,
    ((hereditary_distinct c).mp h.distinct).2 d hd e he, h.plain.of_imp huses⟩

end Conj.WellNamed

/-! ## The search over binders -/

theorem exists_mem_picks {α : Type} {a : α} {l : List α} (h : a ∈ l) :
    ∃ rest, (a, rest) ∈ picks l := by
  induction l with
  | nil => cases h
  | cons b l ih =>
    rcases mem_cons.mp h with rfl | h
    · exact ⟨l, mem_cons_self⟩
    · obtain ⟨rest, hrest⟩ := ih h
      exact ⟨b :: rest, mem_cons_of_mem _ (mem_map.mpr ⟨(a, rest), hrest, rfl⟩)⟩

/-- The search finds every order of the right side in which partners range over the same tables. -/
theorem Conj.matchBinders_iff {a b : Conj} {accept : Tags → Tags → Bool} {vars unused : List Tuple}
    {σ τ : Labels} (hlen : vars.length = unused.length) :
    Conj.matchBinders a b accept vars unused σ.tags τ.tags = true ↔
      ∃ ws, unused.Perm ws ∧
        List.Forall₂ (fun v w => (a.tablesOver v).Perm (b.tablesOver w)) vars ws ∧
        accept (σ.push σ.length vars).tags (τ.push σ.length ws).tags = true := by
  -- That partners range over the same tables is no restriction: the tables are paired off.
  induction vars generalizing unused σ τ with
  | nil =>
    obtain rfl : unused = [] := length_eq_zero_iff.mp hlen.symm
    constructor
    · exact fun h => ⟨[], .refl _, .nil, h⟩
    · rintro ⟨ws, hws, -, h⟩
      rw [nil_perm.mp hws] at h
      exact h
  | cons v vs ih =>
    -- One binder is matched; the tags of both sides get the same next entry.
    have hstep : ∀ (w : Tuple) (rest : List Tuple), vs.length = rest.length →
        (Conj.matchBinders a b accept vs rest ((v, σ.tags.next) :: σ.tags)
            ((w, σ.tags.next) :: τ.tags) = true ↔
          ∃ ws, rest.Perm ws ∧
            List.Forall₂ (fun v w => (a.tablesOver v).Perm (b.tablesOver w)) vs ws ∧
            accept (σ.push σ.length (v :: vs)).tags (τ.push σ.length (w :: ws)).tags = true) := by
      intro w rest hrest
      rw [σ.next_tags]
      exact ih (σ := (v, Tags.tagName σ.length) :: σ) (τ := (w, Tags.tagName σ.length) :: τ) hrest
    have hcount : ∀ {w : Tuple} {rest : List Tuple}, unused.Perm (w :: rest) →
        vs.length = rest.length := by
      intro w rest hperm
      have heq := hlen.trans hperm.length_eq
      rw [length_cons, length_cons] at heq
      exact Nat.succ.inj heq
    rw [Conj.matchBinders, any_eq_true]
    simp only [Bool.and_eq_true, isPerm_iff]
    constructor
    · rintro ⟨⟨w, rest⟩, hpick, htables, hmatch⟩
      have hperm := perm_of_mem_picks hpick
      obtain ⟨ws, hws, hall, haccept⟩ := (hstep w rest (hcount hperm)).mp hmatch
      exact ⟨w :: ws, hperm.trans (hws.cons w), .cons htables hall, haccept⟩
    · rintro ⟨ws, hws, hall, haccept⟩
      cases hall with
      | @cons _ w _ ws htables hall =>
        -- The search tries every binder that is left, so also the partner of the first one.
        obtain ⟨rest, hpick⟩ := exists_mem_picks (hws.mem_iff.mpr mem_cons_self)
        have hperm := perm_of_mem_picks hpick
        have hrest : rest.Perm ws := (hperm.symm.trans hws).cons_inv
        exact ⟨(w, rest), hpick, htables,
          (hstep w rest (hcount hperm)).mpr ⟨ws, hrest, hall, haccept⟩⟩

/-! ## Tables over a binder -/

theorem Tuple.fold_eq_var {t : Tuple} {x : String} : t.fold = .var x ↔ t = .var x := by
  constructor
  · intro h
    cases t with
    | var y => exact h
    | const c | call f args => cases h
    | attr base a =>
      have hproject : base.fold.project a = .var x := h
      unfold Tuple.project at hproject
      split at hproject
      · next hnull =>
        rw [hnull] at hproject
        cases hproject
      · cases hproject
  · rintro rfl
    rfl

/-- An expression is a variable exactly if the one that is like it is a variable that
corresponds. -/
theorem Tuple.Alike.eq_var_iff {R : Pairing} {t t' : Tuple} (h : t.Alike R t') {a b : String}
    (hR : ∀ x y, R x y → (x = a ↔ y = b)) : t = .var a ↔ t' = .var b := by
  rw [← fold_eq_var, ← fold_eq_var (t := t')]
  unfold Tuple.Alike at h
  -- Folded expressions that correspond have the same constructor.
  generalize t.fold = u at h ⊢
  generalize t'.fold = u' at h ⊢
  cases h with
  | var hxy => simpa using hR _ _ hxy
  | const c | attr hbase n | call f hargs => simp

/-- Binders at the same place range over the same tables, if the tables can be paired off. -/
theorem Conj.tablesOver_perm {R : Pairing} {a b : Conj} {vs ws : List Tuple}
    (hlen : vs.length = ws.length) (hvs : ∀ v ∈ vs, ∃ x, v = .var x)
    (hws : ∀ w ∈ ws, ∃ x, w = .var x) (hvsn : vs.Nodup) (hwsn : ws.Nodup)
    (h : Multiset.Rel (TableAtom.Alike (R.bind (vs.zip ws))) a.tables b.tables) :
    List.Forall₂ (fun v w => (a.tablesOver v).Perm (b.tablesOver w)) vs ws := by
  refine forall₂_iff_get.mpr ⟨hlen, fun i hi hi' => ?_⟩
  rw [get_eq_getElem, get_eq_getElem]
  obtain ⟨x, hx⟩ := hvs vs[i] (getElem_mem hi)
  obtain ⟨y, hy⟩ := hws ws[i] (getElem_mem hi')
  have hbinder : ∀ x' y', R.bind (vs.zip ws) x' y' → (x' = x ↔ y' = y) := by
    intro x' y' hxy
    have hplace := Pairing.getElem_eq_iff hlen hvsn hwsn hxy hi hi'
    rw [hx, hy] at hplace
    simpa [eq_comm] using hplace
  refine perm_map_filter_of_rel h fun a b hab => ⟨?_, hab.name⟩
  rw [hx, hy, decide_eq_decide]
  exact hab.row.eq_var_iff hbinder

/-! ## Matches -/

/-- Disjunctions match exactly if they are alike, given this for the conjunctions. -/
theorem Disj.isMatch_iff_of_forall {R : Pairing} {σ τ : Labels} {d d' : Disj}
    (h : ∀ c ∈ d, ∀ c' ∈ d', Conj.isMatch c c' σ.tags τ.tags = true ↔ c.Alike R c') :
    Disj.isMatch d d' σ.tags τ.tags = true ↔ Disj.Alike R d d' := by
  induction d generalizing d' with
  | nil =>
    rw [Disj.isMatch, List.isEmpty_iff]
    constructor
    · rintro rfl
      exact .nil
    · rintro ⟨⟩
      rfl
  | cons c cs ih =>
    have hothers : ∀ {c' : Conj} {rest : Disj}, d'.Perm (c' :: rest) →
        (Disj.isMatch cs rest σ.tags τ.tags = true ↔ Disj.Alike R cs rest) := by
      intro c' rest hperm
      exact ih fun e he e' he' => h e (mem_cons_of_mem _ he) e'
        (hperm.mem_iff.mpr (mem_cons_of_mem _ he'))
    rw [Disj.isMatch, any_eq_true]
    simp only [Bool.and_eq_true]
    constructor
    · rintro ⟨⟨c', rest⟩, hpick, hhead, htail⟩
      have hperm := perm_of_mem_picks hpick
      have hmem : c' ∈ d' := hperm.mem_iff.mpr mem_cons_self
      exact .cons hperm ((h c mem_cons_self c' hmem).mp hhead) ((hothers hperm).mp htail)
    · intro halike
      cases halike with
      | @cons _ _ c' _ cs' _ hperm hhead htail =>
        -- What is left after the partner was picked is the rest up to order.
        have hmem : c' ∈ d' := hperm.mem_iff.mpr mem_cons_self
        obtain ⟨rest, hpick⟩ := exists_mem_picks hmem
        have hperm' := perm_of_mem_picks hpick
        have hrest : rest.Perm cs' := (hperm'.symm.trans hperm).cons_inv
        exact ⟨(c', rest), hpick, (h c mem_cons_self c' hmem).mpr hhead,
          (hothers hperm').mpr (htail.perm_right hrest.symm)⟩

/-- Matching of optional parts, given matching of what they hold. -/
theorem Disj.isMatchOption_iff_of_forall {R : Pairing} {σ τ : Labels} {d d' : Option Disj}
    (h : ∀ e, d = some e → ∀ e', d' = some e' → ∀ c ∈ e, ∀ c' ∈ e',
      Conj.isMatch c c' σ.tags τ.tags = true ↔ c.Alike R c') :
    Disj.isMatchOption d d' σ.tags τ.tags = true ↔ Disj.AlikeOption R d d' := by
  cases d with
  | none =>
    cases d' with
    | none => exact ⟨fun _ => .none, fun _ => rfl⟩
    | some e' =>
      constructor
      · intro hmatch
        cases hmatch
      · intro halike
        cases halike
  | some e =>
    cases d' with
    | none =>
      constructor
      · intro hmatch
        cases hmatch
      · intro halike
        cases halike
    | some e' =>
      have hdisj := Disj.isMatch_iff_of_forall (h e rfl e' rfl)
      rw [Disj.isMatchOption, Bool.and_eq_true, hdisj, beq_iff_eq]
      constructor
      · exact fun hm => .some hm.2
      · intro ha
        cases ha with
        | some ha => exact ⟨ha.length_eq, ha⟩

theorem Conj.FactorsAlike.sameCounts {R : Pairing} {c c' : Conj} (h : c.FactorsAlike R c')
    (hvars : c.vars.length = c'.vars.length) : c.sameCounts c' = true := by
  have hoption : ∀ {d d' : Option Disj}, Disj.AlikeOption R d d' → d.isSome = d'.isSome := by
    intro d d' hd
    cases hd with
    | none | some _ => rfl
  have htables : c.tables.length = c'.tables.length := Multiset.card_eq_card_of_rel h.tables
  have hpreds : c.preds.length = c'.preds.length := Multiset.card_eq_card_of_rel h.preds
  simp only [Conj.sameCounts, Bool.and_eq_true, beq_iff_eq]
  exact ⟨⟨⟨⟨hvars, htables⟩, hpreds⟩, hoption h.squash⟩, hoption h.negation⟩

/-- What a match of two conjunctions compares below matched binders. -/
def Conj.acceptsBelow (a b : Conj) (left right : Tags) : Bool :=
  (a.tables.map left.mapTable).isPerm (b.tables.map right.mapTable)
    && (a.preds.map left.mapPred).isPerm (b.preds.map right.mapPred)
    && Disj.isMatchOption a.squash b.squash left right
    && Disj.isMatchOption a.negation b.negation left right

theorem Conj.isMatch_eq (a b : Conj) (left right : Tags) : Conj.isMatch a b left right
    = (a.sameCounts b && Conj.matchBinders a b (a.acceptsBelow b) a.vars b.vars left right) := by
  obtain ⟨vars, tables, preds, squash, negation⟩ := a
  rw [Conj.isMatch]
  rfl

/-- **A match is a pairing.** By induction on the nested conjunctions: the matched binders extend
the pairing, and below them the tags tell apart what the pairing does. -/
theorem Conj.isMatch_iff {R : Pairing} {σ τ : Labels} (hpairs : Labels.Pairs R σ τ) {c c' : Conj}
    (hc : c.WellNamed) (hc' : c'.WellNamed) :
    Conj.isMatch c c' σ.tags τ.tags = true ↔ c.Alike R c' := by
  induction c using Conj.nested_induction generalizing R σ τ c' with
  | _ c ih =>
    obtain ⟨hatoms, -⟩ := Conj.plainNames_parts hc.plain
    obtain ⟨hatoms', -⟩ := Conj.plainNames_parts hc'.plain
    have hbelow : ∀ {ws : List Tuple}, c'.vars.Perm ws → c.vars.length = ws.length →
        (c.acceptsBelow c' (σ.push σ.length c.vars).tags (τ.push σ.length ws).tags = true ↔
          c.FactorsAlike (R.bind (c.vars.zip ws)) c') := by
      intro ws hws hlen
      have hpushed := hpairs.pushAll hlen hc.vars (fun w hw => hc'.vars w (hws.mem_iff.mpr hw))
        hc.nodup (hws.nodup_iff.mp hc'.nodup)
      have htables := isPerm_map_iff fun a ha b hb =>
        hpushed.mapTable_eq_iff (hatoms.1 a ha) (hatoms'.1 b hb)
      have hpreds := isPerm_map_iff fun p hp q hq =>
        hpushed.mapPred_eq_iff (hatoms.2 p hp) (hatoms'.2 q hq)
      have hnested : ∀ {d d' : Disj}, c.Nests d → c'.Nests d' → ∀ e ∈ d, ∀ e' ∈ d',
          (Conj.isMatch e e' (σ.push σ.length c.vars).tags (τ.push σ.length ws).tags = true ↔
            e.Alike (R.bind (c.vars.zip ws)) e') := fun hd hd' e he e' he' =>
        ih _ hd e he hpushed (hc.nested hd e he) (hc'.nested hd' e' he')
      have hsquash := Disj.isMatchOption_iff_of_forall fun d (hd : c.squash = some d) d'
        (hd' : c'.squash = some d') => hnested (.inl hd) (.inl hd')
      have hnegation := Disj.isMatchOption_iff_of_forall fun d (hd : c.negation = some d) d'
        (hd' : c'.negation = some d') => hnested (.inr hd) (.inr hd')
      unfold acceptsBelow
      rw [Bool.and_eq_true, Bool.and_eq_true, Bool.and_eq_true, htables, hpreds, hsquash, hnegation]
      exact ⟨fun h => ⟨h.1.1.1, h.1.1.2, h.1.2, h.2⟩,
        fun h => ⟨⟨⟨h.tables, h.preds⟩, h.squash⟩, h.negation⟩⟩
    rw [Conj.isMatch_eq, Bool.and_eq_true, Conj.alike_iff_exists_order]
    constructor
    · rintro ⟨hcounts, hmatch⟩
      have hlen : c.vars.length = c'.vars.length := by
        simp only [Conj.sameCounts, Bool.and_eq_true, beq_iff_eq] at hcounts
        exact hcounts.1.1.1.1
      obtain ⟨ws, hws, -, haccept⟩ := (Conj.matchBinders_iff hlen).mp hmatch
      have hlen' : c.vars.length = ws.length := hlen.trans hws.length_eq
      exact ⟨ws, hws, hlen', (hbelow hws hlen').mp haccept⟩
    · rintro ⟨ws, hws, hlen, hfactors⟩
      -- The tables over matched binders need no test of their own.
      have hover := Conj.tablesOver_perm hlen hc.vars (fun w hw => hc'.vars w (hws.mem_iff.mpr hw))
        hc.nodup (hws.nodup_iff.mp hc'.nodup) hfactors.tables
      have hlen' : c.vars.length = c'.vars.length := hlen.trans hws.length_eq.symm
      refine ⟨hfactors.sameCounts hlen', (Conj.matchBinders_iff hlen').mpr ?_⟩
      exact ⟨ws, hws, hover, (hbelow hws hlen).mpr hfactors⟩

namespace Disj

variable {a b : Disj}

/-- **Isomorphism is being alike**: the search decides whether two disjunctions differ in order,
orientation, names of bound variables and folded projections only. -/
theorem isIsomorphic_iff (ha : a.WellNamed) (hb : b.WellNamed) :
    a.isIsomorphic b = true ↔ Disj.Alike Eq a b := by
  have hmatch : Disj.isMatch a b [] [] = true ↔ Disj.Alike Eq a b :=
    isMatch_iff_of_forall (σ := []) (τ := []) fun c hc c' hc' =>
      Conj.isMatch_iff Labels.pairs_nil (ha c hc) (hb c' hc')
  unfold isIsomorphic
  rw [Bool.and_eq_true, hmatch, beq_iff_eq]
  exact ⟨And.right, fun h => ⟨h.length_eq, h⟩⟩

/-- **Isomorphism is an equivalence** on disjunctions whose binders are variables without repeats
inside one list and in which no variable name starts with `#`. -/
theorem isIsomorphic_equivalence :
    Equivalence fun a b : { d : Disj // d.WellNamed } => a.1.isIsomorphic b.1 = true := by
  refine ⟨fun a => ?_, fun {a b} hab => ?_, fun {a b c} hab hbc => ?_⟩
  · exact (isIsomorphic_iff a.2 a.2).mpr (Alike.refl a.1)
  · have halike := (isIsomorphic_iff a.2 b.2).mp hab
    exact (isIsomorphic_iff b.2 a.2).mpr (halike.symm.mono fun _ _ h => h.symm)
  · have halike := (isIsomorphic_iff a.2 b.2).mp hab
    have halike' := (isIsomorphic_iff b.2 c.2).mp hbc
    have hmiddle : ∀ e ∈ b.1, e.Distinct := fun e he => (b.2 e he).distinct
    refine (isIsomorphic_iff a.2 c.2).mpr ((halike.trans hmiddle halike').mono ?_)
    rintro x z ⟨y, hxy, hyz⟩
    exact hxy.trans hyz

end Disj

end QueryRules
