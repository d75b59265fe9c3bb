import QueryRules.Proofs.Freshness
import QueryRules.Proofs.NormalFormValue
import QueryRules.Search.Oracle

/-!
# QueryRules — isomorphic normal forms have the same value

A matching of two disjunctions pairs their conjunctions and the binders of these, and compares
atoms after matched binders were replaced by common tags. If there is one, both sides have the same
value in every model and environment, as long as no variable looks like a tag.
-/

namespace QueryRules

open List

variable {D : Type*}

/-! ## Tags -/

/-- A name that is not a tag. -/
def IsPlain (x : String) : Prop :=
  x.toList.head? ≠ some '#'

instance (x : String) : Decidable (IsPlain x) :=
  inferInstanceAs (Decidable (_ ≠ _))

/-- No variable that satisfies `uses` has the name of a tag. -/
def PlainNames (uses : Tuple → Bool) : Prop :=
  ∀ x, uses (.var x) = true → IsPlain x

theorem PlainNames.of_imp {uses uses' : Tuple → Bool} (h : PlainNames uses)
    (himp : ∀ v, uses' v = true → uses v = true) : PlainNames uses' :=
  fun x hx => h x (himp _ hx)

namespace Tags

/-- The name of the tag with a number. -/
def tagName (k : Nat) : String :=
  "#" ++ k.repr

theorem not_isPlain_tagName (k : Nat) : ¬ IsPlain (tagName k) := by
  intro h
  refine h ?_
  unfold tagName
  rw [String.toList_append]
  rfl

/-- All tags have numbers below `k`. -/
def Below (tags : Tags) (k : Nat) : Prop :=
  ∀ p ∈ tags, ∃ j < k, p.2 = .var (tagName j)

/-- The row of a variable is that of its tag, or its own if it is not matched. -/
def Carries (m : Model D) (tags : Tags) (env tagEnv : Env D) : Prop :=
  ∀ x, IsPlain x → (tags.mapTuple (.var x)).value m tagEnv = env x

theorem Below.mono {tags : Tags} {j k : Nat} (h : tags.Below j) (hjk : j ≤ k) : tags.Below k := by
  intro p hp
  obtain ⟨i, hi, htag⟩ := h p hp
  exact ⟨i, Nat.lt_of_lt_of_le hi hjk, htag⟩

/-- The next tag is in use by no variable, so its row may be chosen. -/
theorem Carries.push {m : Model D} {tags : Tags} {env tagEnv : Env D} {k : Nat}
    (htags : tags.Below k) (h : Carries m tags env tagEnv) (v : Tuple) (d : D) :
    Carries m ((v, .var (tagName k)) :: tags) (env.bind v d)
      (Function.update tagEnv (tagName k) d) := by
  intro x hx
  by_cases hv : v = .var x
  · subst hv
    have hmap : mapTuple ((.var x, .var (tagName k)) :: tags) (.var x) = .var (tagName k) := by
      simp [mapTuple]
    rw [hmap]
    simp [Tuple.value, Env.bind]
  · have hmap : mapTuple ((v, .var (tagName k)) :: tags) (.var x) = mapTuple tags (.var x) := by
      have hne : (Tuple.var x == v) = false := by simpa using fun heq => hv heq.symm
      simp [mapTuple, lookup_cons, hne]
    have henv : env.bind v d x = env x := by
      cases v with
      | var y =>
        have hxy : x ≠ y := fun heq => hv (heq ▸ rfl)
        exact Function.update_of_ne hxy d env
      | const c | attr b a | call f args => rfl
    rw [hmap, henv, ← h x hx]
    -- The image of `x` is an earlier tag or `x` itself.
    have himage : ∃ y, mapTuple tags (.var x) = .var y ∧ y ≠ tagName k := by
      rw [mapTuple]
      cases hlook : tags.lookup (.var x) with
      | none =>
        refine ⟨x, rfl, fun heq => ?_⟩
        rw [heq] at hx
        exact not_isPlain_tagName k hx
      | some tag =>
        obtain ⟨l₁, l₂, htags', -⟩ := lookup_eq_some_iff.mp hlook
        obtain ⟨j, hj, rfl⟩ := htags (.var x, tag) (by simp [htags'])
        refine ⟨tagName j, rfl, fun heq => ?_⟩
        rw [FreshNames.append_repr_inj heq] at hj
        exact Nat.lt_irrefl k hj
    obtain ⟨y, hy, hne⟩ := himage
    rw [hy]
    exact Function.update_of_ne hne d tagEnv

mutual

/-- Tuple expressions have the value of their image; folding a projection of null keeps it. -/
theorem Carries.value_mapTuple {m : Model D} {tags : Tags} {env tagEnv : Env D}
    (h : Carries m tags env tagEnv) : (t : Tuple) → PlainNames t.uses →
      (tags.mapTuple t).value m tagEnv = t.value m env
  | .var x, hplain => h x (hplain x (by simp [Tuple.uses]))
  | .const c, _ => rfl
  | .attr base a, hplain => by
    have hbase := h.value_mapTuple base (hplain.of_imp fun v hv => by simp [Tuple.uses, hv])
    rw [mapTuple, Tuple.value_project, hbase, Tuple.value]
  | .call f args, hplain => by
    have hargs := h.values_mapTuples args (hplain.of_imp fun v hv => by simp [Tuple.uses, hv])
    rw [mapTuple, Tuple.value, hargs, Tuple.value]

theorem Carries.values_mapTuples {m : Model D} {tags : Tags} {env tagEnv : Env D}
    (h : Carries m tags env tagEnv) : (ts : List Tuple) → PlainNames (Tuple.anyUses ts) →
      Tuple.values m tagEnv (tags.mapTuples ts) = Tuple.values m env ts
  | [], _ => rfl
  | t :: ts, hplain => by
    have ht := h.value_mapTuple t (hplain.of_imp fun v hv => by simp [Tuple.anyUses, hv])
    have hts := h.values_mapTuples ts (hplain.of_imp fun v hv => by simp [Tuple.anyUses, hv])
    rw [mapTuples, Tuple.values, Tuple.values, ht, hts]

end

section Atoms

variable [Fintype D] [DecidableEq D] {m : Model D} {tags : Tags} {env tagEnv : Env D}

theorem Carries.value_mapTable (h : Carries m tags env tagEnv) {a : TableAtom}
    (hplain : PlainNames a.row.uses) :
    (tags.mapTable a).toTerm.value m tagEnv = a.toTerm.value m env := by
  show m.table a.name ((tags.mapTuple a.row).value m tagEnv) = m.table a.name (a.row.value m env)
  rw [h.value_mapTuple a.row hplain]

/-- The orientation of an equality does not matter. -/
theorem Carries.value_mapPred (h : Carries m tags env tagEnv) {p : PredAtom}
    (hplain : PlainNames fun v => p.uses v) :
    (tags.mapPred p).toTerm.value m tagEnv = p.toTerm.value m env := by
  cases p with
  | pred n args =>
    show (if m.pred n (Tuple.values m tagEnv (tags.mapTuples args)) then 1 else 0) = _
    rw [h.values_mapTuples args hplain]
    rfl
  | eq l r =>
    have hl := h.value_mapTuple l (hplain.of_imp fun v hv => by simp [PredAtom.uses, hv])
    have hr := h.value_mapTuple r (hplain.of_imp fun v hv => by simp [PredAtom.uses, hv])
    unfold mapPred
    dsimp only
    split
    · show (if (tags.mapTuple l).value m tagEnv = (tags.mapTuple r).value m tagEnv then 1
        else 0) = _
      rw [hl, hr]
      rfl
    · show (if (tags.mapTuple r).value m tagEnv = (tags.mapTuple l).value m tagEnv then 1
        else 0) = _
      rw [hl, hr]
      show _ = if l.value m env = r.value m env then 1 else 0
      simp only [eq_comm]

end Atoms

/-! ## Both sides -/

/-- Two environments are linked by tags: one environment of tags fits both, and the next tag is new
on either side. -/
structure Linked (m : Model D) (left right : Tags) (env env' : Env D) : Prop where
  left_below : left.Below left.length
  right_below : right.Below left.length
  carried : ∃ tagEnv, Carries m left env tagEnv ∧ Carries m right env' tagEnv

theorem linked_nil (m : Model D) (env : Env D) : Linked m [] [] env env :=
  ⟨nofun, nofun, env, fun _ _ => rfl, fun _ _ => rfl⟩

/-- A matched pair of binders gets one row. -/
theorem Linked.push {m : Model D} {left right : Tags} {env env' : Env D}
    (h : Linked m left right env env') (v w : Tuple) (d : D) :
    Linked m ((v, left.next) :: left) ((w, left.next) :: right) (env.bind v d) (env'.bind w d) := by
  obtain ⟨tagEnv, hleft, hright⟩ := h.carried
  have hbelow : ∀ (u : Tuple) {tags : Tags}, tags.Below left.length →
      Below ((u, left.next) :: tags) (left.length + 1) := by
    intro u tags htags p hp
    rcases mem_cons.mp hp with rfl | hp
    · exact ⟨left.length, Nat.lt_succ_self _, rfl⟩
    · exact htags.mono (Nat.le_succ _) p hp
  exact ⟨hbelow v h.left_below, hbelow w h.right_below, _, hleft.push h.left_below v d,
    hright.push h.right_below w d⟩

end Tags

/-! ## Binders -/

theorem perm_of_mem_picks {α : Type} {a : α} {as l : List α} (h : (a, as) ∈ picks l) :
    l.Perm (a :: as) := by
  induction l generalizing a as with
  | nil => cases h
  | cons b l ih =>
    rcases mem_cons.mp h with hfirst | hlater
    · cases hfirst
      exact .refl _
    · obtain ⟨⟨a', as'⟩, hmem, heq⟩ := mem_map.mp hlater
      cases heq
      exact ((ih hmem).cons b).trans (.swap _ _ _)

section Values

variable [Fintype D]

/-- Summations may be taken in any order. Different binders commute; for equal ones there is nothing
to exchange. -/
theorem Env.sumBinders_perm {vs ws : List Tuple} (h : vs.Perm ws) (f : Env D → Nat) (env : Env D) :
    Env.sumBinders vs f env = Env.sumBinders ws f env := by
  induction h generalizing env with
  | nil => rfl
  | cons v h ih =>
    show ∑ d, _ = ∑ d, _
    exact Finset.sum_congr rfl fun d _ => ih (env.bind v d)
  | swap v w vs =>
    show ∑ d, ∑ e, _ = ∑ d, ∑ e, _
    by_cases hvw : v = w
    · rw [hvw]
    · rw [Finset.sum_comm]
      refine Finset.sum_congr rfl fun d _ => Finset.sum_congr rfl fun e _ => ?_
      rw [Env.bind_comm env hvw]
  | trans _ _ ih₁ ih₂ => exact (ih₁ env).trans (ih₂ env)

/-- Summations over matched binders agree if what they sum up agrees whenever the matching is
accepted. Induction on the binders of the left side: each takes a binder of the right side, and
both run through the rows together. -/
theorem Conj.sumBinders_of_matchBinders (m : Model D) {a b : Conj} {accept : Tags → Tags → Bool}
    {f g : Env D → Nat} (haccept : ∀ left right env env', Tags.Linked m left right env env' →
      accept left right = true → f env = g env') {vars : List Tuple} :
    ∀ {unused : List Tuple} {left right : Tags} {env env' : Env D},
      vars.length = unused.length → Tags.Linked m left right env env' →
      Conj.matchBinders a b accept vars unused left right = true →
      Env.sumBinders vars f env = Env.sumBinders unused g env' := by
  induction vars with
  | nil =>
    intro unused left right env env' hlen hlinked h
    obtain rfl : unused = [] := length_eq_zero_iff.mp hlen.symm
    exact haccept left right env env' hlinked h
  | cons v vs ih =>
    intro unused left right env env' hlen hlinked h
    rw [Conj.matchBinders, any_eq_true] at h
    obtain ⟨⟨w, rest⟩, hpick, h⟩ := h
    rw [Bool.and_eq_true] at h
    have hperm := perm_of_mem_picks hpick
    have hlen' : vs.length = rest.length := by
      have hcount := hperm.length_eq
      rw [length_cons] at hlen hcount
      omega
    rw [Env.sumBinders_perm hperm]
    show ∑ d, _ = ∑ d, _
    exact Finset.sum_congr rfl fun d _ => ih hlen' (hlinked.push v w d) h.2

/-! ## Matching -/

variable [DecidableEq D]

/-- The value of the factors of matched conjunctions: atoms agree up to order, and the nested
disjunctions have the same values. -/
theorem factorsValue_of_isPerm {m : Model D} {left right : Tags} {env env' : Env D}
    (h : Tags.Linked m left right env env') {tables tables' : List TableAtom}
    {preds preds' : List PredAtom} {squashes squashes' negations negations' : List Disj}
    (htables : (tables.map left.mapTable).isPerm (tables'.map right.mapTable) = true)
    (hpreds : (preds.map left.mapPred).isPerm (preds'.map right.mapPred) = true)
    (hplain : (∀ a ∈ tables, PlainNames a.row.uses) ∧ ∀ p ∈ preds, PlainNames fun v => p.uses v)
    (hplain' : (∀ a ∈ tables', PlainNames a.row.uses) ∧
      ∀ p ∈ preds', PlainNames fun v => p.uses v)
    (hsquash : squashes.map (fun d => d.toTerm.value m env)
      = squashes'.map fun d => d.toTerm.value m env')
    (hnegation : negations.map (fun d => d.toTerm.value m env)
      = negations'.map fun d => d.toTerm.value m env') :
    factorsValue m env tables preds squashes negations
      = factorsValue m env' tables' preds' squashes' negations' := by
  -- Both sides are valued in one environment, the one of the tags.
  obtain ⟨tagEnv, hleft, hright⟩ := h.carried
  have htablesValue : (tables.map fun a => a.toTerm.value m env).prod
      = (tables'.map fun a => a.toTerm.value m env').prod :=
    prod_of_isPerm (fun a => a.toTerm.value m tagEnv) htables
      (fun a ha => hleft.value_mapTable (hplain.1 a ha))
      (fun a ha => hright.value_mapTable (hplain'.1 a ha))
  have hpredsValue : (preds.map fun p => p.toTerm.value m env).prod
      = (preds'.map fun p => p.toTerm.value m env').prod :=
    prod_of_isPerm (fun p => p.toTerm.value m tagEnv) hpreds
      (fun p hp => hleft.value_mapPred (hplain.2 p hp))
      (fun p hp => hright.value_mapPred (hplain'.2 p hp))
  have htruth : squashes.map (fun d => if d.toTerm.value m env = 0 then 0 else 1)
      = squashes'.map fun d => if d.toTerm.value m env' = 0 then 0 else 1 := by
    have hmap := congrArg (List.map fun n : Nat => if n = 0 then 0 else 1) hsquash
    rwa [map_map, map_map] at hmap
  have hopposite : negations.map (fun d => if d.toTerm.value m env = 0 then 1 else 0)
      = negations'.map fun d => if d.toTerm.value m env' = 0 then 1 else 0 := by
    have hmap := congrArg (List.map fun n : Nat => if n = 0 then 1 else 0) hnegation
    rwa [map_map, map_map] at hmap
  unfold factorsValue
  rw [htablesValue, hpredsValue, htruth, hopposite]

theorem Disj.plainNames_iff {d : Disj} :
    PlainNames (Disj.uses d) ↔ ∀ c ∈ d, PlainNames c.uses := by
  induction d with
  | nil => exact ⟨fun _ => nofun, fun _ => nofun⟩
  | cons c cs ih =>
    rw [forall_mem_cons, ← ih]
    constructor
    · intro h
      exact ⟨h.of_imp fun v hv => by simp [Disj.uses, hv],
        h.of_imp fun v hv => by simp [Disj.uses, hv]⟩
    · rintro ⟨hc, hcs⟩ x hx
      rw [Disj.uses, Bool.or_eq_true] at hx
      exact hx.elim (hc x) (hcs x)

/-- The names of a conjunction are those of its parts. -/
theorem Conj.plainNames_parts {c : Conj} (h : PlainNames c.uses) :
    ((∀ a ∈ c.tables, PlainNames a.row.uses) ∧ ∀ p ∈ c.preds, PlainNames fun v => p.uses v) ∧
      PlainNames (Disj.usesOption c.squash) ∧ PlainNames (Disj.usesOption c.negation) := by
  obtain ⟨vars, tables, preds, squash, negation⟩ := c
  refine ⟨⟨fun a ha => h.of_imp fun v hv => ?_, fun p hp => h.of_imp fun v hv => ?_⟩,
    h.of_imp fun v hv => ?_, h.of_imp fun v hv => ?_⟩
  · have hany : tables.any (·.row.uses v) = true := any_eq_true.mpr ⟨a, ha, hv⟩
    simp [Conj.uses, hany]
  · have hany : preds.any (PredAtom.uses v) = true := any_eq_true.mpr ⟨p, hp, hv⟩
    simp [Conj.uses, hany]
  · simp only at hv
    simp [Conj.uses, hv]
  · simp only at hv
    simp [Conj.uses, hv]

mutual

/-- Matched disjunctions have the same value: every conjunction has that of its partner, and the
order of the partners does not matter. -/
theorem Disj.sum_of_isMatch (m : Model D) : (a b : List Conj) → {left right : Tags} →
    {env env' : Env D} → Tags.Linked m left right env env' → PlainNames (Disj.uses a) →
    PlainNames (Disj.uses b) → Disj.isMatch a b left right = true →
      (a.map fun c => c.toTerm.value m env).sum = (b.map fun c => c.toTerm.value m env').sum
  | [], b, _, _, _, _, _, _, _, h => by
    obtain rfl : b = [] := List.isEmpty_iff.mp h
    rfl
  | c :: cs, b, _, _, _, _, hlinked, ha, hb, h => by
    rw [Disj.isMatch, any_eq_true] at h
    obtain ⟨⟨c', rest⟩, hpick, h⟩ := h
    rw [Bool.and_eq_true] at h
    have hperm := perm_of_mem_picks hpick
    rw [Disj.plainNames_iff] at hb
    have hb' : ∀ e ∈ c' :: rest, PlainNames e.uses := fun e he => hb e (hperm.mem_iff.mpr he)
    rw [forall_mem_cons, ← Disj.plainNames_iff] at hb'
    have hfirst := Conj.value_of_isMatch m c c' hlinked
      (ha.of_imp fun v hv => by simp [Disj.uses, hv]) hb'.1 h.1
    have hothers := Disj.sum_of_isMatch m cs rest hlinked
      (ha.of_imp fun v hv => by simp [Disj.uses, hv]) hb'.2 h.2
    rw [(hperm.map _).sum_eq, map_cons, map_cons, sum_cons, sum_cons, hfirst,
      hothers]

theorem Disj.value_of_isMatchOption (m : Model D) : (a b : Option (List Conj)) →
    {left right : Tags} → {env env' : Env D} → Tags.Linked m left right env env' →
    PlainNames (Disj.usesOption a) → PlainNames (Disj.usesOption b) →
    Disj.isMatchOption a b left right = true →
      a.toList.map (fun d => (Disj.toTerm d).value m env)
        = b.toList.map fun d => (Disj.toTerm d).value m env'
  | none, none, _, _, _, _, _, _, _, _ => rfl
  | some a, some b, _, _, _, _, hlinked, ha, hb, h => by
    rw [Disj.isMatchOption, Bool.and_eq_true] at h
    have hsum := Disj.sum_of_isMatch m a b hlinked ha hb h.2
    rw [← Disj.value_toTerm, ← Disj.value_toTerm] at hsum
    exact congrArg (· :: []) hsum
  | none, some _, _, _, _, _, _, _, _, h => by cases h
  | some _, none, _, _, _, _, _, _, _, h => by cases h

/-- Matched conjunctions have the same value. -/
theorem Conj.value_of_isMatch (m : Model D) : (a b : Conj) → {left right : Tags} →
    {env env' : Env D} → Tags.Linked m left right env env' → PlainNames a.uses →
    PlainNames b.uses → Conj.isMatch a b left right = true →
      a.toTerm.value m env = b.toTerm.value m env'
  | ⟨vars, tables, preds, squash, negation⟩, b, _, _, _, _, hlinked, ha, hb, h => by
    rw [Conj.isMatch, Bool.and_eq_true] at h
    obtain ⟨hcounts, hmatch⟩ := h
    have hlen : vars.length = b.vars.length := by
      simp only [Conj.sameCounts, Bool.and_eq_true, beq_iff_eq] at hcounts
      exact hcounts.1.1.1.1
    obtain ⟨hatoms, hsquash, hnegation⟩ := Conj.plainNames_parts ha
    obtain ⟨hatoms', hsquash', hnegation'⟩ := Conj.plainNames_parts hb
    rw [Conj.value_toTerm, Conj.value_toTerm]
    refine Conj.sumBinders_of_matchBinders m ?_ hlen hlinked hmatch
    intro left right env env' hlinked haccept
    simp only [Bool.and_eq_true] at haccept
    obtain ⟨⟨⟨htables, hpreds⟩, hs⟩, hn⟩ := haccept
    exact factorsValue_of_isPerm hlinked htables hpreds hatoms hatoms'
      (Disj.value_of_isMatchOption m squash b.squash hlinked hsquash hsquash' hs)
      (Disj.value_of_isMatchOption m negation b.negation hlinked hnegation hnegation' hn)

end

end Values

/-- The oracle answers `eq` exactly for isomorphic disjunctions, whatever was asked before. -/
theorem Oracle.isomorphism_eq_iff (n : Nat) (q : Question) :
    Oracle.isomorphism n q = .ok .eq ↔ q.isIsomorphic = true := by
  unfold Oracle.isomorphism Oracle.isomorphismVerdict
  cases q.isIsomorphic <;> decide

/-- **The isomorphism oracle is sound.** Let no variable name of two disjunctions start with `#`. If
they are isomorphic, the oracle answers `eq`, and they have the same value in every finite model
and environment. Binders may be of any shape, listed twice or hidden. -/
theorem Disj.value_of_isIsomorphic {a b : Disj} (ha : PlainNames (Disj.uses a))
    (hb : PlainNames (Disj.uses b)) (h : a.isIsomorphic b = true) :
    (∀ n facts freeVars, Oracle.isomorphism n ⟨a, b, facts, freeVars⟩ = .ok .eq) ∧
      ∀ (D : Type*) [Fintype D] [DecidableEq D] (m : Model D) (env : Env D),
        a.toTerm.value m env = b.toTerm.value m env := by
  constructor
  · exact fun n facts freeVars => (Oracle.isomorphism_eq_iff n ⟨a, b, facts, freeVars⟩).mpr h
  · intro D _ _ m env
    unfold Disj.isIsomorphic at h
    rw [Bool.and_eq_true] at h
    rw [Disj.value_toTerm, Disj.value_toTerm]
    exact Disj.sum_of_isMatch m a b (Tags.linked_nil m env) ha hb h.2

/-- `Sum{x, y}(R(x) * S(y) * [x.k = y.k] * ||Sum{x}(T(x) * [x = z])|| * not(U(y)))`. -/
def Disj.crossedLeft : Disj :=
  [⟨[.var "x", .var "y"], [⟨"R", .var "x"⟩, ⟨"S", .var "y"⟩],
    [.eq (.attr (.var "x") "k") (.attr (.var "y") "k")],
    some [⟨[.var "x"], [⟨"T", .var "x"⟩], [.eq (.var "x") (.var "z")], none, none⟩],
    some [⟨[], [⟨"U", .var "y"⟩], [], none, none⟩]⟩]

/-- `Sum{u, v}(S(u) * R(v) * [u.k = v.k] * ||Sum{v}(T(v) * [z = v])|| * not(U(u)))`. -/
def Disj.crossedRight : Disj :=
  [⟨[.var "u", .var "v"], [⟨"S", .var "u"⟩, ⟨"R", .var "v"⟩],
    [.eq (.attr (.var "u") "k") (.attr (.var "v") "k")],
    some [⟨[.var "v"], [⟨"T", .var "v"⟩], [.eq (.var "z") (.var "v")], none, none⟩],
    some [⟨[], [⟨"U", .var "u"⟩], [], none, none⟩]⟩]

/-- The binders are matched crosswise, the inner ones hide outer ones, and equalities are turned
around. -/
theorem Disj.value_of_isIsomorphic_crossed :
    (∀ n facts freeVars, Oracle.isomorphism n
      ⟨Disj.crossedLeft, Disj.crossedRight, facts, freeVars⟩ = .ok .eq) ∧
      ∀ (D : Type) [Fintype D] [DecidableEq D] (m : Model D) (env : Env D),
        Disj.crossedLeft.toTerm.value m env = Disj.crossedRight.toTerm.value m env := by
  refine Disj.value_of_isIsomorphic (fun x hx => ?_) (fun x hx => ?_) (by decide +kernel)
  · have hname : x = "x" ∨ x = "y" ∨ x = "z" := by
      simp [Disj.crossedLeft, Disj.uses, Conj.uses, Disj.usesOption, PredAtom.uses,
        Tuple.uses] at hx
      grind
    rcases hname with rfl | rfl | rfl <;> decide
  · have hname : x = "u" ∨ x = "v" ∨ x = "z" := by
      simp [Disj.crossedRight, Disj.uses, Conj.uses, Disj.usesOption, PredAtom.uses,
        Tuple.uses] at hx
      grind
    rcases hname with rfl | rfl | rfl <;> decide

end QueryRules
