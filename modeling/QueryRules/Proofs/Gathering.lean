import QueryRules.Proofs.NormalFormValue
import QueryRules.Proofs.ReductionSteps

/-!
# QueryRules — what a term in sum-of-products form says

`Disj.ofTerm` reads a term as a disjunction if its sums and products are grouped to the left, with
one negation at most in a product. While a term is reduced it is not grouped that way, but what it
says is known before: `Term.spread` reads every sum of products, whatever its grouping.
-/

namespace QueryRules

/-! ## Gathering factors -/

/-- The factors of a product, sorted by shape. Negations are put together: a product of negations
is the negation of a sum. -/
structure Gathered where
  tables : List TableAtom
  preds : List PredAtom
  squashes : List Disj
  negated : Disj

namespace Gathered

/-- No factors. -/
def empty : Gathered :=
  ⟨[], [], [], []⟩

/-- The factors of two products together. -/
def append (a b : Gathered) : Gathered :=
  ⟨a.tables ++ b.tables, a.preds ++ b.preds, a.squashes ++ b.squashes, a.negated ++ b.negated⟩

/-- The conjunction with the given binders and factors, one squash at most. -/
def toConj (vars : List Tuple) (g : Gathered) : Conj :=
  ⟨vars, g.tables, g.preds, g.squashes.head?, if g.negated.isEmpty then none else some g.negated⟩

/-- How many factors there are, each negated conjunction for itself. -/
def size (g : Gathered) : Nat :=
  g.tables.length + g.preds.length + g.squashes.length + g.negated.length

theorem append_assoc (a b c : Gathered) : (a.append b).append c = a.append (b.append c) := by
  simp [append]

theorem size_append (a b : Gathered) : (a.append b).size = a.size + b.size := by
  simp only [size, append, List.length_append]
  omega

end Gathered

mutual

/-- The conjunctions of a sum of products, whatever the grouping of its summands and factors. -/
def Term.spread : Term → Disj
  | .add l r => l.spread ++ r.spread
  | .sum vars body => [body.gather.toConj vars]
  | .mul l r => [(l.gather.append r.gather).toConj []]
  | .table n row => [Gathered.toConj [] ⟨[⟨n, row⟩], [], [], []⟩]
  | .pred n args => [Gathered.toConj [] ⟨[], [.pred n args], [], []⟩]
  | .eq l r => [Gathered.toConj [] ⟨[], [.eq l r], [], []⟩]
  | .squash t => [Gathered.toConj [] ⟨[], [], [t.spread], []⟩]
  | .not t => [Gathered.toConj [] ⟨[], [], [], t.spread⟩]

/-- The factors of a product, whatever their grouping and order. -/
def Term.gather : Term → Gathered
  | .mul l r => l.gather.append r.gather
  | .table n row => ⟨[⟨n, row⟩], [], [], []⟩
  | .pred n args => ⟨[], [.pred n args], [], []⟩
  | .eq l r => ⟨[], [.eq l r], [], []⟩
  | .squash t => ⟨[], [], [t.spread], []⟩
  | .not t => ⟨[], [], [], t.spread⟩
  | .add _ _ | .sum _ _ => .empty

end

namespace Term

/-- Neither a sum nor a summation. -/
def IsProduct (t : Term) : Prop :=
  t.kind ≠ .add ∧ t.kind ≠ .sum

theorem isProduct_of_isAtom {t : Term} (h : t.isAtom = true) : t.IsProduct := by
  cases t with
  | add l r | sum vars body => cases h
  | _ => exact ⟨by simp [kind], by simp [kind]⟩

theorem isProduct_mul (l r : Term) : (Term.mul l r).IsProduct :=
  ⟨by simp [kind], by simp [kind]⟩

theorem isProduct_not (t : Term) : (Term.not t).IsProduct :=
  ⟨by simp [kind], by simp [kind]⟩

theorem isProduct_squash (t : Term) : (Term.squash t).IsProduct :=
  ⟨by simp [kind], by simp [kind]⟩

theorem spread_of_isProduct {t : Term} (h : t.IsProduct) : t.spread = [t.gather.toConj []] := by
  cases t with
  | add l r => exact absurd rfl h.1
  | sum vars body => exact absurd rfl h.2
  | mul l r | table n row | pred n args | eq l r | not t | squash t => rw [spread, gather]

theorem spread_ne_nil (t : Term) : t.spread ≠ [] := by
  induction t with
  | add l r ihl ihr =>
    rw [spread]
    exact List.append_ne_nil_of_left_ne_nil ihl _
  | table n row | pred n args | eq l r | mul l r ihl ihr | not t ih | squash t ih
  | sum vars body ih => simp [spread]

end Term

/-! ## Gathering what reads -/

/-- The readings of factors, if there is no error among them, are what was gathered. -/
def Factors.Gathers (f : Factors) (g : Gathered) : Prop :=
  ∀ squashes negations : List Disj,
    f.squashes = squashes.map .ok → f.negations = negations.map .ok →
    g = ⟨f.tables, f.preds, squashes, negations.flatten⟩ ∧ [] ∉ negations

/-- The conjunction of gathered factors. What was read below a negation is not empty, so it is told
from no negation. -/
theorem Gathered.toConj_eq {g : Gathered} {c : Conj}
    (hg : g = ⟨c.tables, c.preds, c.squash.toList, c.negation.toList.flatten⟩)
    (hne : [] ∉ c.negation.toList) : g.toConj c.vars = c := by
  obtain ⟨vars, tables, preds, squash, negation⟩ := c
  dsimp only at hg hne ⊢
  subst hg
  have hsquash : squash.toList.head? = squash := by cases squash <;> rfl
  have hnegation : (if negation.toList.flatten.isEmpty then none
      else some negation.toList.flatten) = negation := by
    cases negation with
    | none => rfl
    | some n =>
      have hn : n ≠ [] := fun heq => hne (heq ▸ List.mem_singleton_self n)
      simp [hn]
  rw [toConj, hsquash, hnegation]

/-- Gathering reads what can be read, and says the same. -/
theorem Term.spread_readings (t : Term) :
    (∀ d, Disj.ofTerm t = .ok d → t.spread = d) ∧
      (∀ f, Factors.ofTerm t = .ok f → f.Gathers t.gather) := by
  have hread := Term.readings (P := fun t d => t.spread = d)
    (Q := fun t ts ps sq neg => t.IsProduct ∧ t.gather = ⟨ts, ps, sq, neg.flatten⟩ ∧ [] ∉ neg)
    (fun n row => ⟨isProduct_of_isAtom rfl, by simp [gather], List.not_mem_nil⟩)
    (fun p => ?_) (fun {t d} h => ?_) (fun {t d} h => ?_)
    (fun {l r _ _ _ _ _ _ _ _} hl hr => ?_) (fun {t c} hvars h => ?_) (fun {t c} h => ?_)
    (fun {l r d e} hl hr => ?_) t
  · exact ⟨hread.1, fun f hf sq neg hsq hneg => (hread.2 f hf sq neg hsq hneg).2⟩
  · cases p with
    | pred n args => exact ⟨isProduct_of_isAtom rfl, by simp [PredAtom.toTerm, gather], by simp⟩
    | eq l r => exact ⟨isProduct_of_isAtom rfl, by simp [PredAtom.toTerm, gather], by simp⟩
  · exact ⟨isProduct_squash t, by simp [gather, h], List.not_mem_nil⟩
  · refine ⟨isProduct_not t, by simp [gather, h], fun hmem => t.spread_ne_nil ?_⟩
    exact h.trans (List.mem_singleton.mp hmem).symm
  · obtain ⟨-, hgl, hnl⟩ := hl
    obtain ⟨-, hgr, hnr⟩ := hr
    refine ⟨isProduct_mul l r, by simp [gather, hgl, hgr, Gathered.append], ?_⟩
    rw [List.mem_append]
    exact fun hmem => hmem.elim hnl hnr
  · obtain ⟨hproduct, hg, hne⟩ := h
    rw [spread_of_isProduct hproduct, ← hvars, Gathered.toConj_eq hg hne]
  · rw [spread, Gathered.toConj_eq h.2.1 h.2.2]
  · rw [spread, hl, hr]

end QueryRules
