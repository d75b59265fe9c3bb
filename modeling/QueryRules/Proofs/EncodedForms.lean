import QueryRules.Json.Terms
import QueryRules.Proofs.ValidForms

/-!
# QueryRules — normal forms as JSON

Decoders count down a number that has to reach the bottom of the value. The depth of a JSON value
bounds it from below, so a value that was encoded is decoded again. For a normal form the checked
constructors have a say in it: `Disj.ofJson_toJson` asks for validity, and nothing else.
-/

namespace QueryRules

open List

/-! ## Tuples and atoms -/

mutual

/-- A tuple expression is decoded with any number above its depth. -/
theorem Tuple.decode_toJson : (t : Tuple) → {n : Nat} → t.toJson.depth < n →
    Tuple.decode n t.toJson = some t
  | .var x, n + 1, _ => rfl
  | .const x, n + 1, _ => rfl
  | .attr base x, n + 1, h => by
    simp only [Tuple.toJson, Json.variant, Json.depth, Json.depthFields] at h
    have hbase := Tuple.decode_toJson base (n := n) (by omega)
    show (Tuple.decode n base.toJson).bind (fun base => some (Tuple.attr base x)) = _
    rw [hbase]
    rfl
  | .call f args, n + 1, h => by
    simp only [Tuple.toJson, Json.variant, Json.depth, Json.depthFields] at h
    have hargs := Tuple.mapM_decode args (n := n) (by omega)
    show ((Tuple.toJsons args).mapM (Tuple.decode n)).bind
      (fun args => some (Tuple.call f args)) = _
    rw [hargs]
    rfl

theorem Tuple.mapM_decode : (ts : List Tuple) → {n : Nat} →
    Json.depthItems (Tuple.toJsons ts) < n → (Tuple.toJsons ts).mapM (Tuple.decode n) = some ts
  | [], n, _ => rfl
  | t :: ts, n, h => by
    rw [Tuple.toJsons, Json.depthItems] at h
    rw [Tuple.toJsons, mapM_cons, Tuple.decode_toJson t (by omega),
      Tuple.mapM_decode ts (by omega)]
    rfl

end

theorem Tuple.ofJson?_toJson (t : Tuple) : Tuple.ofJson? t.toJson = some t :=
  Tuple.decode_toJson t (Nat.lt_succ_self _)



/-- Decoding undoes encoding in a list if it does so for every member. -/
theorem Json.mapM_map {α β : Type} {m : Type → Type} [Monad m] [LawfulMonad m] {encode : α → Json}
    {decode : Json → m β} {f : α → β} {as : List α}
    (h : ∀ a ∈ as, decode (encode a) = pure (f a)) :
    (as.map encode).mapM decode = pure (as.map f) := by
  induction as with
  | nil => simp
  | cons a as ih =>
    simp [h a mem_cons_self, ih fun b hb => h b (mem_cons_of_mem _ hb)]

theorem Tuple.listOfJson?_toJsons (ts : List Tuple) :
    Tuple.listOfJson? (.arr (Tuple.toJsons ts)) = some ts := by
  have hmap : Tuple.toJsons ts = ts.map Tuple.toJson := by
    induction ts with
    | nil => rfl
    | cons t ts ih => rw [Tuple.toJsons, ih, map_cons]
  rw [hmap]
  exact (Json.mapM_map fun t _ => t.ofJson?_toJson).trans (by rw [map_id']; rfl)

theorem TableAtom.ofJson?_toJson (a : TableAtom) :
    Term.ofJson? a.toTerm.toJson = some a.toTerm := by
  show (Tuple.ofJson? a.row.toJson).bind (fun row => some (Term.table a.name row)) = _
  rw [Tuple.ofJson?_toJson]
  rfl

theorem PredAtom.ofJson?_toJson (p : PredAtom) :
    Term.ofJson? p.toTerm.toJson = some p.toTerm := by
  cases p with
  | pred name args =>
    show (Tuple.listOfJson? (.arr (Tuple.toJsons args))).bind
      (fun args => some (Term.pred name args)) = _
    rw [Tuple.listOfJson?_toJsons]
    rfl
  | eq l r =>
    show (Tuple.ofJson? l.toJson).bind (fun l => (Tuple.ofJson? r.toJson).bind fun r =>
      some (Term.eq l r)) = _
    rw [Tuple.ofJson?_toJson, Option.bind_some, Tuple.ofJson?_toJson]
    rfl

/-! ## Normal forms -/

theorem Json.depth_le_depthItems {j : Json} {js : List Json} (h : j ∈ js) :
    j.depth ≤ Json.depthItems js := by
  induction js with
  | nil => cases h
  | cons k ks ih =>
    rw [Json.depthItems]
    rcases mem_cons.mp h with rfl | h
    · exact Nat.le_max_left _ _
    · exact Nat.le_trans (ih h) (Nat.le_max_right _ _)

theorem Disj.toJsons_eq_map (d : Disj) : Disj.toJsons d = d.map Conj.toJson := by
  induction d with
  | nil => rfl
  | cons c cs ih => rw [Disj.toJsons, ih, map_cons]

/-- A disjunction is decoded if its conjunctions are. A disjunction is two levels of JSON above its
conjunctions, and only one is counted, so the depth itself is enough. -/
theorem Disj.decode_toJson {d : Disj} {n : Nat} (hne : d ≠ [])
    (hd : ∀ c ∈ d, ∀ n, c.toJson.depth < n → Conj.decode n c.toJson = .ok c)
    (hn : d.toJson.depth ≤ n) : Disj.decode n d.toJson = .ok d := by
  cases n with
  | zero => simp [Disj.toJson, Json.depth] at hn
  | succ n =>
    have hmapM : (d.map Conj.toJson).mapM (Conj.decode n) = .ok d := by
      refine (Json.mapM_map fun c hc => hd c hc n ?_).trans (by rw [map_id']; rfl)
      have hle := Json.depth_le_depthItems (mem_map_of_mem (f := Conj.toJson) hc)
      rw [Disj.toJson, Disj.toJsons_eq_map] at hn
      simp only [Json.depth, Json.depthFields] at hn
      omega
    show (Except.bind ((Disj.toJsons d).mapM (Conj.decode n)) fun cs =>
      (Disj.ofConjs cs).mapError .invalid) = _
    rw [Disj.toJsons_eq_map, hmapM]
    show (Disj.ofConjs d).mapError _ = _
    rw [Disj.ofConjs_eq_ok.mpr hne]
    rfl

/-- A valid conjunction is decoded with any number above its depth. Between a conjunction and a
disjunction nested in it two are counted; the disjunction has one to spare. -/
theorem Conj.decode_toJson {c : Conj} (h : c.valid = true) : ∀ n, c.toJson.depth < n →
    Conj.decode n c.toJson = .ok c := by
  induction c using Conj.nested_induction with
  | _ c ih =>
    intro n hn
    obtain ⟨hfactor, hnested⟩ := Conj.valid_iff.mp h
    have hoption : ∀ {o : Option Disj} {n : Nat}, (∀ d, o = some d → c.Nests d) →
        (Disj.toJsonOption o).depth < n →
        Disj.decodeOption n (some (Disj.toJsonOption o)) = .ok o := by
      intro o n ho hn
      cases n with
      | zero => cases hn
      | succ n =>
        cases o with
        | none => rfl
        | some d =>
          obtain ⟨hne, hall⟩ := Disj.valid_iff.mp (hnested d (ho d rfl))
          show (Disj.decode n d.toJson).map some = _
          rw [Disj.decode_toJson hne (fun e he => ih d (ho d rfl) e he (hall e he))
            (Nat.le_of_lt_succ hn)]
          rfl
    obtain ⟨vars, tables, preds, squash, negation⟩ := c
    cases n with
    | zero => cases hn
    | succ n =>
      simp only [Conj.toJson, Json.depth, Json.depthFields] at hn
      have hnegation := hoption (o := negation) (n := n) (fun d hd => .inr hd) (by omega)
      have hsquash := hoption (o := squash) (n := n) (fun d hd => .inl hd) (by omega)
      have hpreds : (preds.map fun p => p.toTerm.toJson).mapM Term.ofJson?
          = some (preds.map PredAtom.toTerm) := Json.mapM_map fun p _ => p.ofJson?_toJson
      have htables : (tables.map fun a => a.toTerm.toJson).mapM Term.ofJson?
          = some (tables.map TableAtom.toTerm) := Json.mapM_map fun a _ => a.ofJson?_toJson
      show (do
        let negation ← Disj.decodeOption n (some (Disj.toJsonOption negation))
        let preds ← DecodeError.require
          ((preds.map fun p : PredAtom => p.toTerm.toJson).mapM Term.ofJson?)
        let squash ← Disj.decodeOption n (some (Disj.toJsonOption squash))
        let tables ← DecodeError.require
          ((tables.map fun a : TableAtom => a.toTerm.toJson).mapM Term.ofJson?)
        let vars ← DecodeError.require (Tuple.listOfJson? (.arr (Tuple.toJsons vars)))
        (Conj.ofTerms vars tables preds squash negation).mapError .invalid) = _
      rw [hnegation, hpreds, hsquash, htables, Tuple.listOfJson?_toJsons]
      show (Conj.ofTerms _ _ _ _ _).mapError _ = _
      rw [Conj.ofTerms_parts hfactor]
      rfl

/-- **Decoding undoes encoding** of a valid normal form. -/
theorem Disj.ofJson_toJson {d : Disj} (h : d.valid = true) : Disj.ofJson d.toJson = .ok d := by
  obtain ⟨hne, hall⟩ := Disj.valid_iff.mp h
  exact Disj.decode_toJson hne (fun c hc => Conj.decode_toJson (hall c hc)) (by omega)

end QueryRules
