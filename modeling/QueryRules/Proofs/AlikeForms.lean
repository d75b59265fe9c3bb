import QueryRules.Proofs.DistinctBinders

/-!
# QueryRules — normal forms that are alike

Two disjunctions are alike if they differ in the order of conjunctions, binders and factors, in the
orientation of equalities, in the names of bound variables and in folded projections of null only.
This is said without tags and without a search: what is compared are variables, and which variables
correspond is a relation between names (`Pairing`) that changes below binders.
-/

namespace QueryRules

open List

/-! ## Pairings -/

/-- Which variables of one side correspond to which variables of another side. -/
abbrev Pairing := String → String → Prop

namespace Pairing

variable {R S : Pairing} {ps qs : List (Tuple × Tuple)}

/-- The pairing below binders: partners correspond, and variables that are not bound correspond as
they do around the binders. A variable that is bound on one side only corresponds to nothing. -/
def bind (R : Pairing) (ps : List (Tuple × Tuple)) : Pairing := fun x y =>
  (.var x, .var y) ∈ ps ∨ (.var x ∉ ps.map Prod.fst ∧ .var y ∉ ps.map Prod.snd ∧ R x y)

theorem bind_mono (h : ∀ x y, R x y → S x y) (ps : List (Tuple × Tuple)) {x y : String}
    (hxy : R.bind ps x y) : S.bind ps x y :=
  hxy.imp id fun hout => ⟨hout.1, hout.2.1, h x y hout.2.2⟩

theorem bind_perm (R : Pairing) (h : ps.Perm qs) : R.bind ps = R.bind qs := by
  funext x y
  unfold bind
  rw [h.mem_iff, (h.map Prod.fst).mem_iff, (h.map Prod.snd).mem_iff]

theorem bind_nil (R : Pairing) : R.bind [] = R := by
  funext x y
  simp [bind]

/-- Binders of the same level may be added one by one. -/
theorem bind_cons (R : Pairing) {v w : Tuple} (hv : v ∉ ps.map Prod.fst)
    (hw : w ∉ ps.map Prod.snd) : (R.bind [(v, w)]).bind ps = R.bind ((v, w) :: ps) := by
  funext x y
  have hpair : (Tuple.var x, Tuple.var y) = (v, w) →
      .var x ∉ ps.map Prod.fst ∧ .var y ∉ ps.map Prod.snd := by
    intro heq
    obtain ⟨rfl, rfl⟩ := Prod.mk.inj heq
    exact ⟨hv, hw⟩
  simp only [bind, map_cons, map_nil, mem_cons, not_mem_nil, or_false,
    not_or, eq_iff_iff]
  tauto

/-- Binders paired with themselves change nothing. -/
theorem bind_diagonal (vars : List Tuple) : bind Eq (vars.map fun v => (v, v)) = Eq := by
  funext x y
  unfold bind
  have hfst : (vars.map fun v => (v, v)).map Prod.fst = vars := by simp [Function.comp_def]
  have hsnd : (vars.map fun v => (v, v)).map Prod.snd = vars := by simp [Function.comp_def]
  rw [hfst, hsnd, mem_map, eq_iff_iff]
  constructor
  · rintro (⟨v, -, heq⟩ | ⟨-, -, heq⟩)
    · obtain ⟨hx, hy⟩ := Prod.mk.inj heq
      exact Tuple.var.inj (hx.symm.trans hy)
    · exact heq
  · rintro rfl
    by_cases hmem : .var x ∈ vars
    · exact .inl ⟨_, hmem, rfl⟩
    · exact .inr ⟨hmem, hmem, rfl⟩

theorem map_fst_swap (ps : List (Tuple × Tuple)) :
    (ps.map Prod.swap).map Prod.fst = ps.map Prod.snd :=
  map_map

theorem map_snd_swap (ps : List (Tuple × Tuple)) :
    (ps.map Prod.swap).map Prod.snd = ps.map Prod.fst :=
  map_map

/-- Turned round, the binders correspond the other way. -/
theorem bind_swap (R : Pairing) (ps : List (Tuple × Tuple)) :
    bind (flip R) (ps.map Prod.swap) = flip (R.bind ps) := by
  funext x y
  unfold bind flip
  have hmem : (Tuple.var x, Tuple.var y) ∈ ps.map Prod.swap ↔ (Tuple.var y, Tuple.var x) ∈ ps := by
    rw [mem_map]
    constructor
    · rintro ⟨p, hp, heq⟩
      rw [← Prod.swap_swap p, heq] at hp
      exact hp
    · exact fun hp => ⟨_, hp, rfl⟩
  rw [map_fst_swap, map_snd_swap, hmem, eq_iff_iff]
  tauto

/-- Variables that correspond are bound at the same place, if they are bound. -/
theorem getElem_eq_iff {us vs : List Tuple} (hlen : us.length = vs.length) (hus : us.Nodup)
    (hvs : vs.Nodup) {x y : String} (h : R.bind (us.zip vs) x y) {i : Nat} (hi : i < us.length)
    (hi' : i < vs.length) : us[i] = .var x ↔ vs[i] = .var y := by
  rcases h with hpair | ⟨hx, hy, -⟩
  · obtain ⟨j, hj, heq⟩ := getElem_of_mem hpair
    rw [getElem_zip] at heq
    obtain ⟨hxj, hyj⟩ := Prod.mk.inj heq
    rw [← hxj, ← hyj, hus.getElem_inj_iff, hvs.getElem_inj_iff]
  · rw [map_fst_zip hlen.le] at hx
    rw [map_snd_zip hlen.ge] at hy
    exact ⟨fun heq => absurd (heq ▸ getElem_mem hi) hx,
      fun heq => absurd (heq ▸ getElem_mem hi') hy⟩

/-- Pairings compose where each binder in the middle has one partner on either side. -/
theorem bind_zip_trans {us vs ws : List Tuple} (huv : us.length = vs.length)
    (hvw : vs.length = ws.length) (hnodup : vs.Nodup) {x y z : String}
    (hxy : R.bind (us.zip vs) x y) (hyz : S.bind (vs.zip ws) y z) :
    bind (Relation.Comp R S) (us.zip ws) x z := by
  have hus : ∀ {α β : Type} (as : List α) (bs : List β), as.length = bs.length →
      (as.zip bs).map Prod.fst = as ∧ (as.zip bs).map Prod.snd = bs := fun as bs h =>
    ⟨map_fst_zip h.le, map_snd_zip h.ge⟩
  unfold bind at *
  rw [(hus us vs huv).1, (hus us vs huv).2] at hxy
  rw [(hus vs ws hvw).1, (hus vs ws hvw).2] at hyz
  rw [(hus us ws (huv.trans hvw)).1, (hus us ws (huv.trans hvw)).2]
  rcases hxy with hxy | ⟨hx, hy, hxy⟩
  · -- The partner of `y` on the left is at the place where `y` is.
    obtain ⟨i, hi, heq⟩ := getElem_of_mem hxy
    rw [getElem_zip] at heq
    obtain ⟨hxi, hyi⟩ := Prod.mk.inj heq
    have hyv : .var y ∈ vs := hyi ▸ getElem_mem _
    rcases hyz with hyz | ⟨hy, -, -⟩
    · -- `y` is listed once, so its partner on the right is at the same place.
      obtain ⟨j, hj, heq⟩ := getElem_of_mem hyz
      rw [getElem_zip] at heq
      obtain ⟨hyj, hzj⟩ := Prod.mk.inj heq
      have hij : i = j := (hnodup.getElem_inj_iff).mp (hyi.trans hyj.symm)
      subst hij
      refine .inl (mem_of_getElem (i := i) (h := ?_) ?_)
      · rw [length_zip] at hi hj ⊢
        omega
      · rw [getElem_zip, hxi, hzj]
    · exact absurd hyv hy
  · rcases hyz with hyz | ⟨-, hz, hyz⟩
    · exact absurd (of_mem_zip hyz).1 hy
    · exact .inr ⟨hx, hz, y, hxy, hyz⟩

/-- Pairs may be listed in the order of their first components. -/
theorem exists_zip_perm {us : List Tuple}
    (h : us.Perm (ps.map Prod.fst)) : ∃ vs, us.length = vs.length ∧ (us.zip vs).Perm ps := by
  obtain ⟨qs, rfl, hqs⟩ : Relation.Comp (· = List.map Prod.fst ·) List.Perm us ps := by
    rw [eq_map_comp_perm]
    exact h
  refine ⟨qs.map Prod.snd, by simp, ?_⟩
  rw [← unzip_fst, ← unzip_snd, zip_unzip]
  exact hqs

/-- Pairs may be listed in the order of their second components. -/
theorem exists_zip_perm_right {vs : List Tuple}
    (h : vs.Perm (ps.map Prod.snd)) :
    ∃ us : List Tuple, us.length = vs.length ∧ (us.zip vs).Perm ps := by
  rw [← map_fst_swap] at h
  obtain ⟨us, hlen, hzip⟩ := exists_zip_perm h
  refine ⟨us, hlen.symm, ?_⟩
  have hswap := hzip.map Prod.swap
  rw [zip_swap, map_map, Prod.swap_swap_eq, map_id] at hswap
  exact hswap

end Pairing

/-! ## Tuple expressions -/

namespace Tuple

variable {R S : Pairing}

mutual

/-- The same expression over corresponding variables. -/
inductive Renamed (R : Pairing) : Tuple → Tuple → Prop
  | var {x y : String} (h : R x y) : Renamed R (.var x) (.var y)
  | const (c : String) : Renamed R (.const c) (.const c)
  | attr {t t' : Tuple} (h : Renamed R t t') (a : String) : Renamed R (.attr t a) (.attr t' a)
  | call (f : String) {ts ts' : List Tuple} (h : RenamedAll R ts ts') :
      Renamed R (.call f ts) (.call f ts')

/-- The same expressions over corresponding variables. -/
inductive RenamedAll (R : Pairing) : List Tuple → List Tuple → Prop
  | nil : RenamedAll R [] []
  | cons {t t' : Tuple} {ts ts' : List Tuple} (h : Renamed R t t') (hs : RenamedAll R ts ts') :
      RenamedAll R (t :: ts) (t' :: ts')

end

mutual

theorem renamed_refl : (t : Tuple) → t.Renamed Eq t
  | .var _ => .var rfl
  | .const c => .const c
  | .attr t a => .attr (renamed_refl t) a
  | .call f ts => .call f (renamedAll_refl ts)

theorem renamedAll_refl : (ts : List Tuple) → RenamedAll Eq ts ts
  | [] => .nil
  | t :: ts => .cons (renamed_refl t) (renamedAll_refl ts)

end

mutual

theorem Renamed.symm {t t' : Tuple} : t.Renamed R t' → t'.Renamed (flip R) t
  | .var h => .var h
  | .const c => .const c
  | .attr h a => .attr h.symm a
  | .call f h => .call f h.symm

theorem RenamedAll.symm {ts ts' : List Tuple} : RenamedAll R ts ts' → RenamedAll (flip R) ts' ts
  | .nil => .nil
  | .cons h hs => .cons h.symm hs.symm

end

mutual

theorem Renamed.trans {t t' t'' : Tuple} :
    t.Renamed R t' → t'.Renamed S t'' → t.Renamed (Relation.Comp R S) t''
  | .var h, .var h' => .var ⟨_, h, h'⟩
  | .const c, .const _ => .const c
  | .attr h a, .attr h' _ => .attr (h.trans h') a
  | .call f h, .call _ h' => .call f (h.trans h')

theorem RenamedAll.trans {ts ts' ts'' : List Tuple} :
    RenamedAll R ts ts' → RenamedAll S ts' ts'' → RenamedAll (Relation.Comp R S) ts ts''
  | .nil, .nil => .nil
  | .cons h hs, .cons h' hs' => .cons (h.trans h') (hs.trans hs')

end

mutual

theorem Renamed.mono (hRS : ∀ x y, R x y → S x y) {t t' : Tuple} : t.Renamed R t' → t.Renamed S t'
  | .var h => .var (hRS _ _ h)
  | .const c => .const c
  | .attr h a => .attr (h.mono hRS) a
  | .call f h => .call f (h.mono hRS)

theorem RenamedAll.mono (hRS : ∀ x y, R x y → S x y) {ts ts' : List Tuple} :
    RenamedAll R ts ts' → RenamedAll S ts ts'
  | .nil => .nil
  | .cons h hs => .cons (h.mono hRS) (hs.mono hRS)

end

mutual

/-- A variable of one expression corresponds to one of the other. -/
theorem Renamed.exists_uses {x : String} {t t' : Tuple} : t.Renamed R t' → t.uses (.var x) = true →
    ∃ y, R x y ∧ t'.uses (.var y) = true
  | .var (x := z) (y := y) h, hx => by
    have hzx : z = x := by simpa [uses] using hx
    exact ⟨y, hzx ▸ h, by simp [uses]⟩
  | .const _, hx => by simp [uses] at hx
  | .attr h _, hx => by
    obtain ⟨y, hy, hu⟩ := h.exists_uses (by simpa [uses] using hx)
    exact ⟨y, hy, by simp [uses, hu]⟩
  | .call _ h, hx => by
    obtain ⟨y, hy, hu⟩ := h.exists_uses (by simpa [uses] using hx)
    exact ⟨y, hy, by simp [uses, hu]⟩

theorem RenamedAll.exists_uses {x : String} {ts ts' : List Tuple} : RenamedAll R ts ts' →
    anyUses ts (.var x) = true → ∃ y, R x y ∧ anyUses ts' (.var y) = true
  | .nil, hx => by simp [anyUses] at hx
  | .cons h hs, hx => by
    rw [anyUses, Bool.or_eq_true] at hx
    rcases hx with hx | hx
    · obtain ⟨y, hy, hu⟩ := h.exists_uses hx
      exact ⟨y, hy, by simp [anyUses, hu]⟩
    · obtain ⟨y, hy, hu⟩ := hs.exists_uses hx
      exact ⟨y, hy, by simp [anyUses, hu]⟩

end

/-- The expression with its projections of null folded. -/
def fold (t : Tuple) : Tuple :=
  t.rename id

/-- The same expression over corresponding variables, up to folding. -/
def Alike (R : Pairing) (t t' : Tuple) : Prop :=
  t.fold.Renamed R t'.fold

theorem uses_fold {t : Tuple} {x : String} :
    t.fold.uses (.var x) = true ↔ t.uses (.var x) = true := by
  unfold fold
  rw [uses_rename]
  simp

theorem Alike.exists_uses {x : String} {t t' : Tuple} (h : t.Alike R t')
    (hx : t.uses (.var x) = true) : ∃ y, R x y ∧ t'.uses (.var y) = true := by
  obtain ⟨y, hy, hu⟩ := Renamed.exists_uses h (uses_fold.mpr hx)
  exact ⟨y, hy, uses_fold.mp hu⟩

/-- Only null corresponds to null, so projections fold on both sides. -/
theorem Renamed.project {t t' : Tuple} (h : t.Renamed R t') (a : String) :
    (t.project a).Renamed R (t'.project a) := by
  have hnull : t = null ↔ t' = null := by
    cases h with
    | const c => exact Iff.rfl
    | _ => simp [null]
  unfold Tuple.project
  by_cases ht : t = null
  · rw [if_pos ht, if_pos (hnull.mp ht)]
    exact h
  · rw [if_neg ht, if_neg (mt hnull.mpr ht)]
    exact .attr h a

mutual

theorem Renamed.alike {t t' : Tuple} : t.Renamed R t' → t.Alike R t'
  | .var h => .var h
  | .const c => .const c
  | .attr h a => h.alike.project a
  | .call f h => .call f h.alike

theorem RenamedAll.alike {ts ts' : List Tuple} :
    RenamedAll R ts ts' → RenamedAll R (renameAll id ts) (renameAll id ts')
  | .nil => .nil
  | .cons h hs => .cons h.alike hs.alike

end

mutual

/-- An expression is like the one with other names, if the names correspond. -/
theorem renamed_rename {f g : String → String} : (t : Tuple) →
    (∀ x, t.uses (.var x) = true → R (f x) (g x)) → (t.rename f).Renamed R (t.rename g)
  | .var x, h => .var (h x (by simp [uses]))
  | .const c, _ => .const c
  | .attr base a, h => (renamed_rename base fun x hx => h x (by simp [uses, hx])).project a
  | .call k args, h => .call k (renamedAll_rename args fun x hx => h x (by simp [uses, hx]))

theorem renamedAll_rename {f g : String → String} : (ts : List Tuple) →
    (∀ x, anyUses ts (.var x) = true → R (f x) (g x)) →
      RenamedAll R (renameAll f ts) (renameAll g ts)
  | [], _ => .nil
  | t :: ts, h => .cons (renamed_rename t fun x hx => h x (by simp [anyUses, hx]))
      (renamedAll_rename ts fun x hx => h x (by simp [anyUses, hx]))

end

end Tuple

/-! ## Atoms -/

/-- The same table at rows that are alike. -/
structure TableAtom.Alike (R : Pairing) (a b : TableAtom) : Prop where
  name : a.name = b.name
  row : a.row.Alike R b.row

/-- The same predicate of arguments that are alike; the sides of an equality may be turned. -/
inductive PredAtom.Alike (R : Pairing) : PredAtom → PredAtom → Prop
  | pred (n : String) {args args' : List Tuple} (h : List.Forall₂ (Tuple.Alike R) args args') :
      Alike R (.pred n args) (.pred n args')
  | eq {l r l' r' : Tuple} (hl : l.Alike R l') (hr : r.Alike R r') : Alike R (.eq l r) (.eq l' r')
  | turned {l r l' r' : Tuple} (hl : l.Alike R r') (hr : r.Alike R l') :
      Alike R (.eq l r) (.eq l' r')

section Atoms

variable {R S : Pairing}

namespace TableAtom.Alike

variable {a b c : TableAtom}

theorem refl (a : TableAtom) : a.Alike Eq a :=
  ⟨rfl, Tuple.renamed_refl _⟩

theorem symm (h : a.Alike R b) : b.Alike (flip R) a :=
  ⟨h.name.symm, Tuple.Renamed.symm h.row⟩

theorem trans (h : a.Alike R b) (h' : b.Alike S c) : a.Alike (Relation.Comp R S) c :=
  ⟨h.name.trans h'.name, Tuple.Renamed.trans h.row h'.row⟩

theorem mono (hRS : ∀ x y, R x y → S x y) (h : a.Alike R b) : a.Alike S b :=
  ⟨h.name, Tuple.Renamed.mono hRS h.row⟩

end TableAtom.Alike

namespace PredAtom.Alike

variable {p q r : PredAtom}

theorem refl (p : PredAtom) : p.Alike Eq p := by
  cases p with
  | pred n args => exact .pred n (forall₂_same.mpr fun t _ => Tuple.renamed_refl _)
  | eq l r => exact .eq (Tuple.renamed_refl _) (Tuple.renamed_refl _)

theorem symm (h : p.Alike R q) : q.Alike (flip R) p := by
  cases h with
  | pred n h => exact .pred n (h.flip.imp fun _ _ hst => Tuple.Renamed.symm hst)
  | eq hl hr => exact .eq (Tuple.Renamed.symm hl) (Tuple.Renamed.symm hr)
  | turned hl hr => exact .turned (Tuple.Renamed.symm hr) (Tuple.Renamed.symm hl)

/-- Alikeness composes: the partner of a partner is one. -/
theorem trans (h : p.Alike R q) (h' : q.Alike S r) : p.Alike (Relation.Comp R S) r := by
  have hcomp : ∀ t u v : Tuple, t.Alike R u → u.Alike S v → t.Alike (Relation.Comp R S) v :=
    fun _ _ _ => Tuple.Renamed.trans
  cases h with
  | pred n h =>
    cases h' with
    | pred _ h' => exact .pred n (forall₂_comp hcomp h h')
  | eq hl hr =>
    cases h' with
    | eq hl' hr' => exact .eq (hcomp _ _ _ hl hl') (hcomp _ _ _ hr hr')
    | turned hl' hr' => exact .turned (hcomp _ _ _ hl hl') (hcomp _ _ _ hr hr')
  | turned hl hr =>
    cases h' with
    | eq hl' hr' => exact .turned (hcomp _ _ _ hl hr') (hcomp _ _ _ hr hl')
    | turned hl' hr' => exact .eq (hcomp _ _ _ hl hr') (hcomp _ _ _ hr hl')

/-- Every argument has an argument that is like it. -/
theorem exists_tuple (h : p.Alike R q) {t : Tuple} (ht : t ∈ p.tuples) :
    ∃ t' ∈ q.tuples, t.Alike R t' := by
  cases h with
  | pred n h =>
    obtain ⟨i, hi, rfl⟩ := getElem_of_mem ht
    exact ⟨_, getElem_mem (h.length_eq ▸ hi), h.get hi (h.length_eq ▸ hi)⟩
  | @eq l r l' r' hl hr =>
    rcases mem_pair.mp ht with rfl | rfl
    · exact ⟨l', mem_pair.mpr (.inl rfl), hl⟩
    · exact ⟨r', mem_pair.mpr (.inr rfl), hr⟩
  | @turned l r l' r' hl hr =>
    rcases mem_pair.mp ht with rfl | rfl
    · exact ⟨r', mem_pair.mpr (.inr rfl), hl⟩
    · exact ⟨l', mem_pair.mpr (.inl rfl), hr⟩

theorem mono (hRS : ∀ x y, R x y → S x y) (h : p.Alike R q) : p.Alike S q := by
  cases h with
  | pred n h => exact .pred n (h.imp fun _ _ hst => Tuple.Renamed.mono hRS hst)
  | eq hl hr => exact .eq (Tuple.Renamed.mono hRS hl) (Tuple.Renamed.mono hRS hr)
  | turned hl hr => exact .turned (Tuple.Renamed.mono hRS hl) (Tuple.Renamed.mono hRS hr)

end PredAtom.Alike

end Atoms

/-! ## Conjunctions and disjunctions -/

mutual

/-- Conjunctions are alike if, below some pairing of their binders, their atoms can be paired off
and what is nested in them is alike. -/
inductive Conj.Alike : Pairing → Conj → Conj → Prop
  | intro {R : Pairing} {c c' : Conj} (ps : List (Tuple × Tuple))
      (left : c.vars.Perm (ps.map Prod.fst)) (right : c'.vars.Perm (ps.map Prod.snd))
      (tables : Multiset.Rel (TableAtom.Alike (R.bind ps)) c.tables c'.tables)
      (preds : Multiset.Rel (PredAtom.Alike (R.bind ps)) c.preds c'.preds)
      (squash : Disj.AlikeOption (R.bind ps) c.squash c'.squash)
      (negation : Disj.AlikeOption (R.bind ps) c.negation c'.negation) : Conj.Alike R c c'

/-- Optional disjunctions are alike if both are there and alike, or both are missing. -/
inductive Disj.AlikeOption : Pairing → Option (List Conj) → Option (List Conj) → Prop
  | none {R : Pairing} : Disj.AlikeOption R none none
  | some {R : Pairing} {d d' : List Conj} (h : Disj.Alike R d d') :
      Disj.AlikeOption R (some d) (some d')

/-- Disjunctions are alike if their conjunctions can be paired off. -/
inductive Disj.Alike : Pairing → List Conj → List Conj → Prop
  | nil {R : Pairing} : Disj.Alike R [] []
  | cons {R : Pairing} {c c' : Conj} {cs cs' d' : List Conj} (perm : d'.Perm (c' :: cs'))
      (head : Conj.Alike R c c') (tail : Disj.Alike R cs cs') : Disj.Alike R (c :: cs) d'

end

section Forms

variable {R S : Pairing}

/-! ### Order -/

theorem Disj.Alike.perm_right {d d' e : Disj} (h : Disj.Alike R d d') (he : d'.Perm e) :
    Disj.Alike R d e := by
  cases h with
  | nil =>
    rw [nil_perm.mp he]
    exact .nil
  | cons hperm hhead htail => exact .cons (he.symm.trans hperm) hhead htail

/-- The order of conjunctions does not matter, on the left side either. -/
theorem Disj.Alike.perm_left {d d' e : Disj} (he : d.Perm e) (h : Disj.Alike R d d') :
    Disj.Alike R e d' := by
  induction he generalizing d' with
  | nil => exact h
  | cons c _ ih =>
    cases h with
    | cons hperm hhead htail => exact .cons hperm hhead (ih htail)
  | swap a b cs =>
    -- The partners of the first two are taken out of the right side one after the other.
    cases h with
    | cons hperm hb htail =>
      cases htail with
      | cons hperm' ha htail =>
        exact .cons (hperm.trans ((hperm'.cons _).trans (.swap _ _ _))) ha
          (.cons (.refl _) hb htail)
  | trans _ _ ih₁ ih₂ => exact ih₂ (ih₁ h)

theorem Disj.Alike.length_eq {d d' : Disj} (h : Disj.Alike R d d') : d.length = d'.length := by
  induction d generalizing d' with
  | nil =>
    cases h
    rfl
  | cons c cs ih =>
    cases h with
    | cons hperm _ htail => rw [hperm.length_eq, length_cons, length_cons, ih htail]

/-! ### Factors -/

/-- The factors of two conjunctions are alike. -/
structure Conj.FactorsAlike (R : Pairing) (c c' : Conj) : Prop where
  tables : Multiset.Rel (TableAtom.Alike R) c.tables c'.tables
  preds : Multiset.Rel (PredAtom.Alike R) c.preds c'.preds
  squash : Disj.AlikeOption R c.squash c'.squash
  negation : Disj.AlikeOption R c.negation c'.negation

/-- The binders of the left side may be taken in their order. -/
theorem Conj.alike_iff_exists_order {c c' : Conj} : c.Alike R c' ↔
    ∃ ws, c'.vars.Perm ws ∧ c.vars.length = ws.length ∧
      c.FactorsAlike (R.bind (c.vars.zip ws)) c' := by
  constructor
  · rintro ⟨ps, left, right, tables, preds, squash, negation⟩
    obtain ⟨ws, hlen, hzip⟩ := Pairing.exists_zip_perm left
    have hws : (ps.map Prod.snd).Perm ws := by
      have hsnd := hzip.map Prod.snd
      rw [map_snd_zip hlen.ge] at hsnd
      exact hsnd.symm
    refine ⟨ws, right.trans hws, hlen, ?_⟩
    rw [R.bind_perm hzip]
    exact ⟨tables, preds, squash, negation⟩
  · rintro ⟨ws, hws, hlen, hfactors⟩
    refine .intro (c.vars.zip ws) ?_ ?_ hfactors.tables hfactors.preds hfactors.squash
      hfactors.negation
    · rw [map_fst_zip hlen.le]
    · rw [map_snd_zip hlen.ge]
      exact hws

/-- Binders that are the same up to order may be paired with themselves. -/
theorem Conj.Alike.of_factors {c c' : Conj} (hvars : c.vars.Perm c'.vars)
    (h : c.FactorsAlike Eq c') : c.Alike Eq c' := by
  have hdiagonal : (c.vars.map fun v => (v, v)).map Prod.fst = c.vars ∧
      (c.vars.map fun v => (v, v)).map Prod.snd = c.vars := by
    simp [Function.comp_def]
  rw [← Pairing.bind_diagonal c.vars] at h
  refine .intro (c.vars.map fun v => (v, v)) ?_ ?_ h.tables h.preds h.squash h.negation
  · rw [hdiagonal.1]
  · rw [hdiagonal.2]
    exact hvars.symm

/-! ### Reflexivity, symmetry and transitivity -/

mutual

theorem Conj.Alike.refl : (c : Conj) → c.Alike Eq c
  | ⟨_, _, _, squash, negation⟩ => .of_factors (.refl _)
      ⟨Multiset.rel_refl_of_refl_on fun a _ => .refl a,
        Multiset.rel_refl_of_refl_on fun p _ => .refl p, Disj.AlikeOption.refl squash,
        Disj.AlikeOption.refl negation⟩

theorem Disj.AlikeOption.refl : (d : Option (List Conj)) → Disj.AlikeOption Eq d d
  | none => .none
  | some d => .some (Disj.Alike.refl d)

theorem Disj.Alike.refl : (d : List Conj) → Disj.Alike Eq d d
  | [] => .nil
  | c :: cs => .cons (.refl _) (Conj.Alike.refl c) (Disj.Alike.refl cs)

end

mutual

/-- Alikeness can be turned round. -/
theorem Conj.Alike.symm {R : Pairing} {c c' : Conj} : c.Alike R c' → c'.Alike (flip R) c
  | .intro ps left right tables preds squash negation => by
    have hpairs := R.bind_swap ps
    refine .intro (ps.map Prod.swap) (Pairing.map_fst_swap ps ▸ right)
      (Pairing.map_snd_swap ps ▸ left) ?_ ?_ ?_ ?_
    · rw [hpairs]
      exact (Multiset.rel_flip.mpr tables).mono fun _ _ _ _ h => h.symm
    · rw [hpairs]
      exact (Multiset.rel_flip.mpr preds).mono fun _ _ _ _ h => h.symm
    · rw [hpairs]
      exact squash.symm
    · rw [hpairs]
      exact negation.symm

theorem Disj.AlikeOption.symm {R : Pairing} {d d' : Option (List Conj)} :
    Disj.AlikeOption R d d' → Disj.AlikeOption (flip R) d' d
  | .none => .none
  | .some h => .some h.symm

theorem Disj.Alike.symm {R : Pairing} {d d' : List Conj} :
    Disj.Alike R d d' → Disj.Alike (flip R) d' d
  | .nil => .nil
  | .cons perm head tail => Disj.Alike.perm_left perm.symm (.cons (.refl _) head.symm tail.symm)

end

mutual

theorem Conj.Alike.mono {R S : Pairing} (hRS : ∀ x y, R x y → S x y) {c c' : Conj} :
    c.Alike R c' → c.Alike S c'
  | .intro ps left right tables preds squash negation =>
    have hpairs : ∀ x y, R.bind ps x y → S.bind ps x y := fun _ _ => Pairing.bind_mono hRS ps
    .intro ps left right (tables.mono fun _ _ _ _ h => h.mono hpairs)
      (preds.mono fun _ _ _ _ h => h.mono hpairs) (squash.mono hpairs) (negation.mono hpairs)

theorem Disj.AlikeOption.mono {R S : Pairing} (hRS : ∀ x y, R x y → S x y)
    {d d' : Option (List Conj)} : Disj.AlikeOption R d d' → Disj.AlikeOption S d d'
  | .none => .none
  | .some h => .some (h.mono hRS)

theorem Disj.Alike.mono {R S : Pairing} (hRS : ∀ x y, R x y → S x y) {d d' : List Conj} :
    Disj.Alike R d d' → Disj.Alike S d d'
  | .nil => .nil
  | .cons perm head tail => .cons perm (head.mono hRS) (tail.mono hRS)

end

mutual

/-- Conjunctions compose if the binders in the middle are listed once: these then say which binder
on the left goes with which one on the right. -/
theorem Conj.Alike.trans {R S : Pairing} {c c' c'' : Conj} :
    c.Alike R c' → c'.Distinct → c'.Alike S c'' → c.Alike (Relation.Comp R S) c''
  | .intro ps left right tables preds squash negation, hc',
      .intro qs left' right' tables' preds' squash' negation' => by
    -- Both lists of pairs are put into the order of the binders in the middle.
    obtain ⟨us, hus, hps⟩ := Pairing.exists_zip_perm_right right
    obtain ⟨ws, hws, hqs⟩ := Pairing.exists_zip_perm left'
    obtain ⟨hnodup, hnested⟩ := hc'
    have hlen : us.length = ws.length := hus.trans hws
    have hcomp : ∀ x z, Relation.Comp (R.bind ps) (S.bind qs) x z →
        Pairing.bind (Relation.Comp R S) (us.zip ws) x z := by
  -- Pairings compose if no binder is listed twice.
      rintro x z ⟨y, hxy, hyz⟩
      rw [← R.bind_perm hps] at hxy
      rw [← S.bind_perm hqs] at hyz
      exact Pairing.bind_zip_trans hus hws hnodup hxy hyz
    have hleft : c.vars.Perm ((us.zip ws).map Prod.fst) := by
      have hfst := hps.map Prod.fst
      rw [map_fst_zip hus.le] at hfst
      rw [map_fst_zip hlen.le]
      exact left.trans hfst.symm
    have hright : c''.vars.Perm ((us.zip ws).map Prod.snd) := by
      have hsnd := hqs.map Prod.snd
      rw [map_snd_zip hws.ge] at hsnd
      rw [map_snd_zip hlen.ge]
      exact right'.trans hsnd.symm
    refine .intro (us.zip ws) hleft hright ?_ ?_ ?_ ?_
    · exact rel_comp (fun _ _ _ h h' => (h.trans h').mono hcomp) tables tables'
    · exact rel_comp (fun _ _ _ h h' => (h.trans h').mono hcomp) preds preds'
    · exact (squash.trans (fun d hd => hnested d (.inl hd)) squash').mono hcomp
    · exact (negation.trans (fun d hd => hnested d (.inr hd)) negation').mono hcomp

theorem Disj.AlikeOption.trans {R S : Pairing} {d d' d'' : Option (List Conj)} :
    Disj.AlikeOption R d d' → (∀ e, d' = some e → ∀ c ∈ e, c.Distinct) →
      Disj.AlikeOption S d' d'' → Disj.AlikeOption (Relation.Comp R S) d d''
  | .none, _, .none => .none
  | .some h, hd', .some h' => .some (h.trans (hd' _ rfl) h')

theorem Disj.Alike.trans {R S : Pairing} {d d' d'' : List Conj} :
    Disj.Alike R d d' → (∀ c ∈ d', c.Distinct) → Disj.Alike S d' d'' →
      Disj.Alike (Relation.Comp R S) d d''
  | .nil, _, .nil => .nil
  | .cons perm head tail, hd', h' => by
    -- The second pairing is read in the order in which the first one leaves the middle.
    cases h'.perm_left perm with
    | cons perm' head' tail' =>
      have hhead := head.trans (hd' _ (perm.mem_iff.mpr mem_cons_self)) head'
      have htail := tail.trans
        (fun e he => hd' e (perm.mem_iff.mpr (mem_cons_of_mem _ he))) tail'
      exact .cons perm' hhead htail

end

/-! ### Free variables -/

/-- Variables of atoms that are paired off correspond. -/
theorem Conj.exists_uses_of_rel {c c' : Conj}
    (htables : Multiset.Rel (TableAtom.Alike R) c.tables c'.tables)
    (hpreds : Multiset.Rel (PredAtom.Alike R) c.preds c'.preds) {x : String}
    (hx : ∃ t ∈ c.tuples, t.uses (.var x) = true) :
    ∃ y, R x y ∧ ∃ t ∈ c'.tuples, t.uses (.var y) = true := by
  obtain ⟨t, ht, hu⟩ := hx
  have htuple : ∃ t' ∈ c'.tuples, t.Alike R t' := by
    rcases mem_append.mp ht with ht | ht
    · obtain ⟨a, ha, rfl⟩ := mem_map.mp ht
      obtain ⟨b, hb, hab⟩ := Multiset.exists_mem_of_rel_of_mem htables ha
      exact ⟨b.row, mem_append_left _ (mem_map_of_mem hb), hab.row⟩
    · obtain ⟨p, hp, htp⟩ := mem_flatMap.mp ht
      obtain ⟨q, hq, hpq⟩ := Multiset.exists_mem_of_rel_of_mem hpreds hp
      obtain ⟨t', ht', halike⟩ := hpq.exists_tuple htp
      exact ⟨t', mem_append_right _ (mem_flatMap.mpr ⟨q, hq, ht'⟩), halike⟩
  obtain ⟨t', ht', halike⟩ := htuple
  obtain ⟨y, hxy, hy⟩ := halike.exists_uses hu
  exact ⟨y, hxy, t', ht', hy⟩

mutual

/-- A free variable corresponds to a free variable. -/
theorem Conj.Alike.exists_free {R : Pairing} {x : String} {c c' : Conj} :
    c.Alike R c' → c.Free x → ∃ y, R x y ∧ c'.Free y
  | .intro ps left right tables preds squash negation, hx => by
    obtain ⟨hbound, hinside⟩ := Conj.free_iff.mp hx
    have hinside' : ∃ y, R.bind ps x y ∧ c'.Inside y := by
      rcases hinside with htuple | hsquash | hnegation
      · obtain ⟨y, hxy, hy⟩ := Conj.exists_uses_of_rel tables preds htuple
        exact ⟨y, hxy, .inl hy⟩
      · obtain ⟨y, hxy, hy⟩ := squash.exists_free hsquash
        exact ⟨y, hxy, .inr (.inl hy)⟩
      · obtain ⟨y, hxy, hy⟩ := negation.exists_free hnegation
        exact ⟨y, hxy, .inr (.inr hy)⟩
    obtain ⟨y, hxy, hy⟩ := hinside'
    -- A variable that is not bound has no partner among the binders.
    rcases hxy with hpair | ⟨-, hunbound, hxy⟩
    · exact absurd (left.mem_iff.mpr (mem_map_of_mem hpair)) hbound
    · exact ⟨y, hxy, Conj.free_iff.mpr ⟨fun hmem => hunbound (right.mem_iff.mp hmem), hy⟩⟩

theorem Disj.AlikeOption.exists_free {R : Pairing} {x : String} {d d' : Option (List Conj)} :
    Disj.AlikeOption R d d' → Disj.FreeOption x d → ∃ y, R x y ∧ Disj.FreeOption y d'
  | .none, hx => absurd hx id
  | .some h, hx => h.exists_free hx

/-- A free variable corresponds to a free one. -/
theorem Disj.Alike.exists_free {R : Pairing} {x : String} {d d' : List Conj} :
    Disj.Alike R d d' → Disj.Free x d → ∃ y, R x y ∧ Disj.Free y d'
  | .nil, hx => absurd hx id
  | .cons perm head tail, hx => by
    rcases hx with hx | hx
    · obtain ⟨y, hxy, hy⟩ := head.exists_free hx
      exact ⟨y, hxy, Disj.free_iff.mpr ⟨_, perm.mem_iff.mpr mem_cons_self, hy⟩⟩
    · obtain ⟨y, hxy, hy⟩ := tail.exists_free hx
      obtain ⟨c, hc, hcy⟩ := Disj.free_iff.mp hy
      exact ⟨y, hxy, Disj.free_iff.mpr ⟨c, perm.mem_iff.mpr (mem_cons_of_mem _ hc), hcy⟩⟩

end

/-- Alike under equality of names, two disjunctions have the same free variables. -/
theorem Disj.Alike.free_iff {d d' : Disj} (h : Disj.Alike Eq d d') {x : String} :
    Disj.Free x d ↔ Disj.Free x d' := by
  constructor
  · intro hx
    obtain ⟨y, rfl, hy⟩ := h.exists_free hx
    exact hy
  · intro hx
    obtain ⟨y, rfl, hy⟩ := h.symm.exists_free hx
    exact hy

end Forms

end QueryRules
