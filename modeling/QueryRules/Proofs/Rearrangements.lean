import QueryRules.Proofs.IsomorphismClasses

/-!
# QueryRules — rearranging and renaming keeps forms isomorphic

What a disjunction stands for depends neither on the order in which its parts are listed nor on the
names of its bound variables. Here both kinds of change are said step by step, at any depth, and no
sequence of such steps leads to a disjunction that is not isomorphic to the first one
(`Disj.isIsomorphic_of_variation`).
-/

namespace QueryRules

open List

/-! ## Well-named forms by their parts -/

/-- Well-named forms by their parts; this makes them decidable. -/
theorem Conj.wellNamed_iff {c : Conj} : c.WellNamed ↔
    ((∀ v ∈ c.vars, ∃ x, v = .var x) ∧ (∀ v ∈ c.vars, PlainNames v.uses) ∧ c.vars.Nodup ∧
      ∀ t ∈ c.tuples, PlainNames t.uses) ∧ ∀ d, c.Nests d → d.WellNamed := by
  constructor
  · intro h
    refine ⟨⟨h.vars, fun v hv x hx => ?_, h.nodup, fun t ht x hx => ?_⟩, fun d hd => h.nested hd⟩
    · obtain ⟨y, rfl⟩ := h.vars v hv
      have hyx : y = x := by simpa [Tuple.uses] using hx
      exact h.plain x (Conj.uses_iff.mpr (.inl (hyx ▸ hv)))
    · exact h.plain x (Conj.uses_iff.mpr (.inr (.inl ⟨t, ht, hx⟩)))
  · rintro ⟨⟨hvars, hbinders, hnodup, htuples⟩, hnested⟩
    have hplain : ∀ {d}, c.Nests d → PlainNames (Disj.uses d) := fun hd =>
      Disj.plainNames_iff.mpr fun e he => (hnested _ hd e he).plain
    refine ⟨(Conj.hereditary_baseBinders c).mpr ⟨hvars, fun d hd e he => (hnested d hd e he).base⟩,
      .intro hnodup fun d hd e he => (hnested d hd e he).distinct, fun x hx => ?_⟩
    rcases Conj.uses_iff.mp hx with hx | ⟨t, ht, hx⟩ | hx | hx
    · exact hbinders _ hx x (by simp [Tuple.uses])
    · exact htuples t ht x hx
    · cases hs : c.squash with
      | none =>
        rw [hs] at hx
        cases hx
      | some d =>
        rw [hs] at hx
        exact hplain (.inl hs) x hx
    · cases hn : c.negation with
      | none =>
        rw [hn] at hx
        cases hx
      | some d =>
        rw [hn] at hx
        exact hplain (.inr hn) x hx

/-- The names of an expression are those of its variables. -/
theorem Tuple.plainNames_iff {t : Tuple} :
    (∀ v ∈ t.vars, ∀ x ∈ v.name?, IsPlain x) ↔ PlainNames t.uses := by
  constructor
  · intro h x hx
    exact h (.var x) ((Tuple.mem_collectVars t).mpr (.inr ⟨rfl, hx⟩)) x rfl
  · intro h v hv x hx
    obtain ⟨hvar, huses⟩ := ((Tuple.mem_collectVars t).mp hv).resolve_left not_mem_nil
    obtain ⟨y, rfl⟩ := Tuple.exists_eq_var hvar
    exact h x (Option.some.inj hx ▸ huses)

instance (t : Tuple) : Decidable (PlainNames t.uses) :=
  decidable_of_iff _ Tuple.plainNames_iff

mutual

/-- Whether a conjunction is well named is decidable. -/
def Conj.decWellNamed : (c : Conj) → Decidable c.WellNamed
  | ⟨vars, tables, preds, squash, negation⟩ =>
    have := Disj.decWellNamedOption squash
    have := Disj.decWellNamedOption negation
    decidable_of_iff
      (((∀ v ∈ vars, v.isVar = true) ∧ (∀ v ∈ vars, PlainNames v.uses) ∧ vars.Nodup ∧
        ∀ t ∈ Conj.tuples ⟨vars, tables, preds, squash, negation⟩, PlainNames t.uses) ∧
        (∀ d, squash = some d → Disj.WellNamed d) ∧ ∀ d, negation = some d → Disj.WellNamed d) <| by
      rw [Conj.wellNamed_iff]
      refine and_congr (and_congr_left fun _ => forall₂_congr fun v _ => ?_) ?_
      · exact ⟨Tuple.exists_eq_var, fun ⟨x, hx⟩ => hx ▸ rfl⟩
      · exact ⟨fun h d hd => hd.elim (h.1 d) (h.2 d),
          fun h => ⟨fun d hd => h d (.inl hd), fun d hd => h d (.inr hd)⟩⟩

/-- Whether an optional disjunction is well named is decidable. -/
def Disj.decWellNamedOption : (d : Option (List Conj)) →
    Decidable (∀ e, d = some e → Disj.WellNamed e)
  | none => isTrue fun e he => by cases he
  | some d =>
    have := Disj.decWellNamed d
    decidable_of_iff (Disj.WellNamed d) (by simp)

/-- Whether a disjunction is well named is decidable. -/
def Disj.decWellNamed : (d : List Conj) → Decidable (Disj.WellNamed d)
  | [] => isTrue fun _ hc => absurd hc not_mem_nil
  | c :: cs =>
    have := Conj.decWellNamed c
    have := Disj.decWellNamed cs
    decidable_of_iff (c.WellNamed ∧ Disj.WellNamed cs) forall_mem_cons.symm

end

instance : DecidablePred Disj.WellNamed :=
  Disj.decWellNamed

/-! ## Renaming bound variables -/

/-- The same table at the same row over corresponding variables. -/
structure TableAtom.Renamed (R : Pairing) (a b : TableAtom) : Prop where
  name : a.name = b.name
  row : a.row.Renamed R b.row

/-- The same predicate of the same arguments over corresponding variables. -/
inductive PredAtom.Renamed (R : Pairing) : PredAtom → PredAtom → Prop
  | pred (n : String) {args args' : List Tuple} (h : List.Forall₂ (Tuple.Renamed R) args args') :
      Renamed R (.pred n args) (.pred n args')
  | eq {l r l' r' : Tuple} (hl : l.Renamed R l') (hr : r.Renamed R r') :
      Renamed R (.eq l r) (.eq l' r')

mutual

/-- The same conjunction with other bound variables: binders correspond by their places, and
everything below them is the same over the variables that correspond then. -/
inductive Conj.Renamed : Pairing → Conj → Conj → Prop
  | intro {R : Pairing} {c c' : Conj} (vars : c.vars.length = c'.vars.length)
      (tables : List.Forall₂ (TableAtom.Renamed (R.bind (c.vars.zip c'.vars))) c.tables c'.tables)
      (preds : List.Forall₂ (PredAtom.Renamed (R.bind (c.vars.zip c'.vars))) c.preds c'.preds)
      (squash : Disj.RenamedOption (R.bind (c.vars.zip c'.vars)) c.squash c'.squash)
      (negation : Disj.RenamedOption (R.bind (c.vars.zip c'.vars)) c.negation c'.negation) :
      Conj.Renamed R c c'

/-- The same optional disjunction with other bound variables. -/
inductive Disj.RenamedOption : Pairing → Option (List Conj) → Option (List Conj) → Prop
  | none {R : Pairing} : Disj.RenamedOption R none none
  | some {R : Pairing} {d d' : List Conj} (h : Disj.Renamed R d d') :
      Disj.RenamedOption R (some d) (some d')

/-- The same disjunction with other bound variables. Nothing moves: binders correspond by their
places, so no variable is captured. -/
inductive Disj.Renamed : Pairing → List Conj → List Conj → Prop
  | nil {R : Pairing} : Disj.Renamed R [] []
  | cons {R : Pairing} {c c' : Conj} {cs cs' : List Conj} (head : Conj.Renamed R c c')
      (tail : Disj.Renamed R cs cs') : Disj.Renamed R (c :: cs) (c' :: cs')

end

theorem TableAtom.Renamed.alike {R : Pairing} {a b : TableAtom} (h : a.Renamed R b) : a.Alike R b :=
  ⟨h.name, h.row.alike⟩

theorem PredAtom.Renamed.alike {R : Pairing} {p q : PredAtom} (h : p.Renamed R q) :
    p.Alike R q := by
  cases h with
  | pred n h => exact .pred n (h.imp fun _ _ ht => ht.alike)
  | eq hl hr => exact .eq hl.alike hr.alike

mutual

theorem Conj.Renamed.alike {R : Pairing} {c c' : Conj} : c.Renamed R c' → c.Alike R c'
  | .intro vars tables preds squash negation =>
    Conj.alike_iff_exists_order.mpr ⟨c'.vars, .refl _, vars,
      rel_of_forall₂ (tables.imp fun _ _ h => h.alike),
      rel_of_forall₂ (preds.imp fun _ _ h => h.alike), squash.alike, negation.alike⟩

theorem Disj.RenamedOption.alike {R : Pairing} {d d' : Option (List Conj)} :
    Disj.RenamedOption R d d' → Disj.AlikeOption R d d'
  | .none => .none
  | .some h => .some h.alike

/-- Other bound variables lead to a disjunction that is alike. -/
theorem Disj.Renamed.alike {R : Pairing} {d d' : List Conj} :
    Disj.Renamed R d d' → Disj.Alike R d d'
  | .nil => .nil
  | .cons head tail => .cons (.refl _) head.alike tail.alike

end

/-! ## Rearranging -/

mutual

/-- One step of rearranging inside of a conjunction. -/
inductive Conj.Rearranged : Conj → Conj → Prop
  | binders {c : Conj} {vars : List Tuple} (h : c.vars.Perm vars) :
      Conj.Rearranged c { c with vars := vars }
  | tables {c : Conj} {tables : List TableAtom} (h : c.tables.Perm tables) :
      Conj.Rearranged c { c with tables := tables }
  | preds {c : Conj} {preds : List PredAtom} (h : c.preds.Perm preds) :
      Conj.Rearranged c { c with preds := preds }
  | turn {c : Conj} {front back : List PredAtom} {l r : Tuple}
      (h : c.preds = front ++ .eq l r :: back) :
      Conj.Rearranged c { c with preds := front ++ .eq r l :: back }
  | squash {c : Conj} {d d' : List Conj} (hd : c.squash = some d) (h : Disj.Rearranged d d') :
      Conj.Rearranged c { c with squash := some d' }
  | negation {c : Conj} {d d' : List Conj} (hd : c.negation = some d) (h : Disj.Rearranged d d') :
      Conj.Rearranged c { c with negation := some d' }

/-- One step of rearranging a disjunction, at any depth. -/
inductive Disj.Rearranged : List Conj → List Conj → Prop
  | conjunctions {d d' : List Conj} (h : d.Perm d') : Disj.Rearranged d d'
  | inside {c c' : Conj} (before after : List Conj) (h : Conj.Rearranged c c') :
      Disj.Rearranged (before ++ c :: after) (before ++ c' :: after)

end

/-- One step of rearranging, or other bound variables. The new variables are again well named. -/
def Disj.Varies (d d' : Disj) : Prop :=
  Disj.Rearranged d d' ∨ (Disj.Renamed Eq d d' ∧ Disj.WellNamed d')

/-! ### Rearranged forms are alike -/

theorem Conj.FactorsAlike.refl (c : Conj) : c.FactorsAlike Eq c :=
  ⟨rel_of_perm .refl (.refl _), rel_of_perm .refl (.refl _), .refl _, .refl _⟩

/-- Turning one equality leaves the predicates alike. -/
theorem PredAtom.rel_turn (front back : List PredAtom) (l r : Tuple) :
    List.Forall₂ (PredAtom.Alike Eq) (front ++ .eq l r :: back) (front ++ .eq r l :: back) := by
  have hsame : ∀ ps : List PredAtom, List.Forall₂ (PredAtom.Alike Eq) ps ps := fun ps =>
    forall₂_same.mpr fun p _ => .refl p
  have hturned : PredAtom.Alike Eq (.eq l r) (.eq r l) :=
    .turned (Tuple.renamed_refl _) (Tuple.renamed_refl _)
  exact rel_append (hsame front) (.cons hturned (hsame back))

theorem Disj.Alike.inside {c c' : Conj} (h : c.Alike Eq c') (before after : Disj) :
    Disj.Alike Eq (before ++ c :: after) (before ++ c' :: after) := by
  induction before with
  | nil => exact .cons (.refl _) h (.refl after)
  | cons b before ih => exact .cons (.refl _) (.refl b) ih

mutual

theorem Conj.Rearranged.alike {c c' : Conj} : c.Rearranged c' → c.Alike Eq c'
  | .binders h => .of_factors h { Conj.FactorsAlike.refl c with }
  | .tables h => .of_factors (.refl _)
      { Conj.FactorsAlike.refl c with tables := rel_of_perm .refl h }
  | .preds h => .of_factors (.refl _) { Conj.FactorsAlike.refl c with preds := rel_of_perm .refl h }
  | .turn h => .of_factors (.refl _)
      { Conj.FactorsAlike.refl c with preds := h ▸ rel_of_forall₂ (PredAtom.rel_turn _ _ _ _) }
  | .squash hd h => .of_factors (.refl _)
      { Conj.FactorsAlike.refl c with squash := hd ▸ .some h.alike }
  | .negation hd h => .of_factors (.refl _)
      { Conj.FactorsAlike.refl c with negation := hd ▸ .some h.alike }

/-- Another order leads to a disjunction that is alike. -/
theorem Disj.Rearranged.alike {d d' : List Conj} : Disj.Rearranged d d' → Disj.Alike Eq d d'
  | .conjunctions h => (Disj.Alike.refl d).perm_right h
  | .inside before after h => .inside h.alike before after

end

/-! ### Rearranged forms are well named -/

theorem Conj.mem_tuples {c : Conj} {t : Tuple} :
    t ∈ c.tuples ↔ (∃ a ∈ c.tables, a.row = t) ∨ ∃ p ∈ c.preds, t ∈ p.tuples := by
  unfold Conj.tuples
  rw [mem_append, mem_map, mem_flatMap]

/-- Binders in another order, no new expressions and well-named nested disjunctions. -/
theorem Conj.WellNamed.of_parts {c c' : Conj} (h : c.WellNamed) (hvars : c.vars.Perm c'.vars)
    (htuples : ∀ t ∈ c'.tuples, t ∈ c.tuples) (hnested : ∀ d, c'.Nests d → Disj.WellNamed d) :
    c'.WellNamed := by
  obtain ⟨⟨hbase, hplain, hnodup, hall⟩, -⟩ := Conj.wellNamed_iff.mp h
  refine Conj.wellNamed_iff.mpr ⟨⟨fun v hv => hbase v (hvars.mem_iff.mpr hv),
    fun v hv => hplain v (hvars.mem_iff.mpr hv), hvars.nodup_iff.mp hnodup,
    fun t ht => hall t (htuples t ht)⟩, hnested⟩

mutual

theorem Conj.Rearranged.wellNamed {c c' : Conj} : c.Rearranged c' → c.WellNamed → c'.WellNamed
  | .binders h, hc => hc.of_parts h (fun _ ht => ht) fun _ hd => hc.nested hd
  | .tables h, hc => by
    refine hc.of_parts (.refl _) (fun t ht => ?_) fun _ hd => hc.nested hd
    rw [Conj.mem_tuples] at ht ⊢
    simpa only [h.mem_iff] using ht
  | .preds h, hc => by
    refine hc.of_parts (.refl _) (fun t ht => ?_) fun _ hd => hc.nested hd
    rw [Conj.mem_tuples] at ht ⊢
    simpa only [h.mem_iff] using ht
  | .turn h, hc => by
    refine hc.of_parts (.refl _) (fun t ht => ?_) fun _ hd => hc.nested hd
    -- A turned equality has the same two sides.
    have hsides : ∀ l r : Tuple, t ∈ (PredAtom.eq r l).tuples ↔ t ∈ (PredAtom.eq l r).tuples :=
      fun l r => by simp [PredAtom.tuples, or_comm]
    rw [Conj.mem_tuples] at ht ⊢
    rw [h]
    simp only [mem_append, mem_cons, or_and_right, exists_or, exists_eq_left] at ht ⊢
    rwa [hsides] at ht
  | .squash hd h, hc => by
    refine hc.of_parts (.refl _) (fun _ ht => ht) fun e he => ?_
    rcases he with he | he
    · cases he
      exact h.wellNamed (hc.nested (.inl hd))
    · exact hc.nested (.inr he)
  | .negation hd h, hc => by
    refine hc.of_parts (.refl _) (fun _ ht => ht) fun e he => ?_
    rcases he with he | he
    · exact hc.nested (.inl he)
    · cases he
      exact h.wellNamed (hc.nested (.inr hd))

theorem Disj.Rearranged.wellNamed {d d' : List Conj} :
    Disj.Rearranged d d' → Disj.WellNamed d → Disj.WellNamed d'
  | .conjunctions h, hd => fun c hc => hd c (h.mem_iff.mpr hc)
  | .inside before after h, hd => by
    unfold Disj.WellNamed at hd ⊢
    rw [forall_mem_append, forall_mem_cons] at hd ⊢
    exact ⟨hd.1, h.wellNamed hd.2.1, hd.2.2⟩

end

/-! ## Variations -/

/-- **The isomorphism check is complete.** A disjunction is isomorphic to every disjunction that is
obtained from it by reordering conjunctions, binders, tables and predicates at any depth, by turning
equalities around and by renaming bound variables without capture. -/
theorem Disj.isIsomorphic_of_variation {d d' : Disj} (hd : d.WellNamed)
    (h : Relation.ReflTransGen Disj.Varies d d') : d.isIsomorphic d' = true := by
  have hsteps : Disj.Alike Eq d d' ∧ d'.WellNamed := by
    induction h with
    | refl => exact ⟨.refl d, hd⟩
    | @tail e e' _ hstep ih =>
      -- The steps compose along well-named disjunctions, whose binders are listed once.
      obtain ⟨halike, he⟩ := ih
      have hnext : Disj.Alike Eq e e' ∧ e'.WellNamed := by
        rcases hstep with hstep | ⟨hstep, he'⟩
        · exact ⟨hstep.alike, hstep.wellNamed he⟩
        · exact ⟨hstep.alike, he'⟩
      have hmiddle : ∀ c ∈ e, c.Distinct := fun c hc => (he c hc).distinct
      refine ⟨(halike.trans hmiddle hnext.1).mono ?_, hnext.2⟩
      rintro x z ⟨y, hxy, hyz⟩
      exact hxy.trans hyz
  exact (isIsomorphic_iff hd hsteps.2).mpr hsteps.1

/-- `Sum{v, u}(R(v) * S(u) * [v.k = u.k] * ||Sum{v}(T(v) * [v = z])|| * not(U(u)))`. -/
def Disj.crossedRenamed : Disj :=
  [⟨[.var "v", .var "u"], [⟨"R", .var "v"⟩, ⟨"S", .var "u"⟩],
    [.eq (.attr (.var "v") "k") (.attr (.var "u") "k")],
    some [⟨[.var "v"], [⟨"T", .var "v"⟩], [.eq (.var "v") (.var "z")], none, none⟩],
    some [⟨[], [⟨"U", .var "u"⟩], [], none, none⟩]⟩]

/-- Bound variables are renamed below a hidden binder, binders and tables are exchanged, and an
equality is turned around at each of two levels. -/
theorem Disj.isIsomorphic_of_variation_crossed : Disj.crossedLeft.WellNamed ∧
    Relation.ReflTransGen Disj.Varies Disj.crossedLeft Disj.crossedRight ∧
      Disj.crossedLeft.isIsomorphic Disj.crossedRight = true := by
  have hd : Disj.crossedLeft.WellNamed := by decide
  have hrenamed : Disj.Renamed Eq Disj.crossedLeft Disj.crossedRenamed := by
    refine .cons (.intro rfl ?_ ?_ (.some (.cons (.intro rfl ?_ ?_ .none .none) .nil))
      (.some (.cons (.intro rfl ?_ .nil .none .none) .nil))) .nil
    · exact .cons ⟨rfl, .var (.inl (by decide))⟩ (.cons ⟨rfl, .var (.inl (by decide))⟩ .nil)
    · exact .cons (.eq (.attr (.var (.inl (by decide))) "k") (.attr (.var (.inl (by decide))) "k"))
        .nil
    · exact .cons ⟨rfl, .var (.inl (by decide))⟩ .nil
    · -- `z` is bound on neither side.
      refine .cons (.eq (.var (.inl (by decide))) (.var (.inr ⟨by decide, by decide, ?_⟩))) .nil
      exact .inr ⟨by decide, by decide, rfl⟩
    · exact .cons ⟨rfl, .var (.inr ⟨by decide, by decide, .inl (by decide)⟩)⟩ .nil
  have hsteps : Relation.ReflTransGen Disj.Varies Disj.crossedRenamed Disj.crossedRight :=
    .head (.inl (.inside [] [] (.binders (.swap _ _ _)))) <|
    .head (.inl (.inside [] [] (.tables (.swap _ _ _)))) <|
    .head (.inl (.inside [] [] (@Conj.Rearranged.turn _ [] [] _ _ rfl))) <|
    .head (.inl (.inside [] [] (.squash rfl
      (.inside [] [] (@Conj.Rearranged.turn _ [] [] _ _ rfl))))) .refl
  have h := Relation.ReflTransGen.head (.inr ⟨hrenamed, by decide⟩) hsteps
  exact ⟨hd, h, Disj.isIsomorphic_of_variation hd h⟩

end QueryRules
