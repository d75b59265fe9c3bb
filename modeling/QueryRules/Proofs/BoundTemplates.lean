import QueryRules.Proofs.Preliminaries
import QueryRules.Search

/-!
# QueryRules — templates that were read

Reading a template binds a new symbol for every hole, and numbers the symbols in the order of the
operators. Everything that the search relies on about symbols follows from this.
-/

namespace QueryRules

open List

/-! ## Kinds of symbols -/

namespace Template

theorem kind_of_mem_symbolsOf {t : Template} {kind : SymbolKind} {s : Symbol}
    (hs : s ∈ t.symbolsOf kind) : s.kind = kind :=
  of_decide_eq_true (mem_filter.mp hs).2

theorem mem_symbolsOf_kind {t : Template} {s : Symbol} (hs : s ∈ t.symbols) :
    s ∈ t.symbolsOf s.kind :=
  mem_filter.mpr ⟨hs, decide_eq_true rfl⟩

/-- Every symbol has the kind that its operator asks for. -/
def WellKinded : Template → Prop
  | .input table => table.kind = .table
  | .proj _ attrs p => p.WellKinded ∧ attrs.kind = .attrs
  | .filter pred attrs p => p.WellKinded ∧ pred.kind = .pred ∧ attrs.kind = .attrs
  | .inSub attrs p q => p.WellKinded ∧ q.WellKinded ∧ attrs.kind = .attrs
  | .join _ leftAttrs rightAttrs l r =>
    l.WellKinded ∧ r.WellKinded ∧ leftAttrs.kind = .attrs ∧ rightAttrs.kind = .attrs
  | .union _ l r => l.WellKinded ∧ r.WellKinded

/-- An operator with symbols of the right kinds. Its own symbols come after those of its
operands. -/
theorem assemble_eq_some {op : Operator} {symbols : List Symbol} {inputs : List Template}
    {t : Template} (hassemble : assemble? op symbols inputs = some t)
    (hkinds : symbols.map (·.kind) = op.symbolKinds) (hinputs : ∀ p ∈ inputs, p.WellKinded) :
    t.WellKinded ∧ t.symbols = inputs.flatMap Template.symbols ++ symbols := by
  unfold assemble? at hassemble
  split at hassemble <;> cases hassemble <;>
    simp_all [Operator.symbolKinds, WellKinded, Template.symbols]

end Template

/-! ## Numbers of symbols -/

/-- Symbols of one side, numbered from `first` up to, but without, `stop`. -/
structure Numbered (side : Side) (first : Nat) (symbols : List Symbol) (stop : Nat) : Prop where
  sides : ∀ s ∈ symbols, s.side = side
  ids : symbols.map (·.id) = List.range' first symbols.length
  stop_eq : stop = first + symbols.length

namespace Numbered

variable {side : Side} {first mid stop : Nat} {xs ys : List Symbol}

theorem nil (side : Side) (first : Nat) : Numbered side first [] first :=
  ⟨fun _ h => absurd h not_mem_nil, rfl, rfl⟩

theorem append (hxs : Numbered side first xs mid) (hys : Numbered side mid ys stop) :
    Numbered side first (xs ++ ys) stop where
  sides s hs := (mem_append.mp hs).elim (hxs.sides s) (hys.sides s)
  ids := by
    rw [map_append, hxs.ids, hys.ids, hxs.stop_eq, length_append,
      range'_append_1]
  stop_eq := by
    rw [hys.stop_eq, hxs.stop_eq, length_append, Nat.add_assoc]

/-- Later symbols have larger numbers. -/
theorem pairwise_lt (h : Numbered side first xs stop) :
    xs.Pairwise fun a b => a.id < b.id := by
  have hsorted : (xs.map (·.id)).Pairwise (· < ·) := by
    rw [h.ids]
    exact pairwise_lt_range'
  exact pairwise_map.mp hsorted

end Numbered

/-! ## Binding -/

/-- The second table of names is the first one after a symbol took the given name or, without one, a
name that is made up. -/
def Names.Takes (n : Names) (s : Symbol) : Option String → Names → Prop
  | none, n' => ∃ name, n.assign s = some (name, n')
  | some name, n' => n.set s name = (.ok (), n')

namespace Template

variable {α β : Type} {side : Side}

/-- A run of a binding step that succeeds. -/
def Binds (m : Bind α) (b : Binding) (a : α) (b' : Binding) : Prop :=
  m.run.run b = (.ok a, b')

theorem binds_pure {a a' : α} {b b' : Binding} (h : Binds (pure a) b a' b') :
    a' = a ∧ b' = b := by
  cases h
  exact ⟨rfl, rfl⟩

theorem binds_bind {m : Bind α} {f : α → Bind β} {b b' : Binding} {r : β}
    (h : Binds (m >>= f) b r b') : ∃ a b₁, Binds m b a b₁ ∧ Binds (f a) b₁ r b' := by
  unfold Binds at h
  rw [ExceptT.run_bind, StateT.run_bind] at h
  rcases hm : m.run.run b with ⟨e | a, b₁⟩
  · rw [hm] at h
    cases h
  · rw [hm] at h
    exact ⟨a, b₁, hm, h⟩

theorem binds_bind_of {m : Bind α} {f : α → Bind β} {b b₁ b' : Binding} {a : α} {r : β}
    (hm : Binds m b a b₁) (hf : Binds (f a) b₁ r b') : Binds (m >>= f) b r b' := by
  unfold Binds at hm hf ⊢
  rw [ExceptT.run_bind, StateT.run_bind, hm]
  exact hf

theorem not_binds_throw {e : TemplateError} {b b' : Binding} {a : α} :
    ¬ Binds (throw e) b a b' := by
  intro h
  cases h

/-- **How a symbol is bound**: it takes the next number, and the given name or, without one, a name
that is made up. -/
theorem binds_bindSymbol {kind : SymbolKind} {name : Option String} {b b' : Binding} {s : Symbol} :
    Binds (bindSymbol side kind name) b s b' ↔ s = ⟨side, kind, b.bound⟩ ∧
      b.names.Takes s name b'.names ∧ b'.bound = b.bound + 1 := by
  constructor
  · intro h
    obtain ⟨_, _, hget, h⟩ := binds_bind h
    cases hget
    cases name with
    | none =>
      dsimp only at h
      cases hassign : b.names.assign ⟨side, kind, b.bound⟩ with
      | none =>
        rw [hassign] at h
        cases h
      | some found =>
        rw [hassign] at h
        cases h
        exact ⟨rfl, ⟨found.1, hassign⟩, rfl⟩
    | some name =>
      dsimp only at h
      rcases hset : b.names.set ⟨side, kind, b.bound⟩ name with ⟨e | _, names⟩
      · rw [hset] at h
        cases h
      · rw [hset] at h
        cases h
        exact ⟨rfl, hset, rfl⟩
  · rintro ⟨rfl, htakes, hbound⟩
    obtain ⟨names', bound'⟩ := b'
    cases hbound
    refine binds_bind_of (show Binds get b b b from rfl) ?_
    cases name with
    | none =>
      obtain ⟨found, hassign⟩ := htakes
      dsimp only
      rw [hassign]
      rfl
    | some name =>
      have hset : b.names.set ⟨side, kind, b.bound⟩ name = (.ok (), names') := htakes
      dsimp only
      rw [hset]
      rfl

theorem bindSymbol_numbered {kind : SymbolKind} {name : Option String} {b b' : Binding}
    {s : Symbol} (h : Binds (bindSymbol side kind name) b s b') :
    s.kind = kind ∧ Numbered side b.bound [s] b'.bound := by
  obtain ⟨rfl, -, hbound⟩ := binds_bindSymbol.mp h
  refine ⟨rfl, fun s hs => ?_, rfl, hbound⟩
  rw [mem_singleton.mp hs]

/-- Symbols are bound with the kinds asked for and numbered on. -/
theorem bindSymbols_numbered {kinds : List SymbolKind} :
    ∀ {names : List String} {b b' : Binding} {symbols : List Symbol},
      Binds (bindSymbols side kinds names) b symbols b' →
      symbols.map (·.kind) = kinds ∧ Numbered side b.bound symbols b'.bound := by
  induction kinds with
  | nil =>
    intro names b b' symbols h
    obtain ⟨rfl, rfl⟩ := binds_pure h
    exact ⟨rfl, .nil side _⟩
  | cons kind kinds ih =>
    intro names b b' symbols h
    obtain ⟨s, b₁, hs, h⟩ := binds_bind h
    obtain ⟨rest, b₂, hrest, h⟩ := binds_bind h
    obtain ⟨rfl, rfl⟩ := binds_pure h
    obtain ⟨hkind, hnumber⟩ := bindSymbol_numbered hs
    obtain ⟨hkinds, hnumbers⟩ := ih hrest
    exact ⟨by rw [map_cons, hkind, hkinds], hnumber.append hnumbers⟩

/-- What is known of operands that were bound one after the other. -/
structure BoundAll (side : Side) (first : Nat) (ts : List Template) (stop : Nat) : Prop where
  kinds : ∀ t ∈ ts, t.WellKinded
  numbers : Numbered side first (ts.flatMap symbols) stop

theorem BoundAll.nil (side : Side) (first : Nat) : BoundAll side first [] first :=
  ⟨fun _ h => absurd h not_mem_nil, .nil side first⟩

theorem BoundAll.cons {first mid stop : Nat} {t : Template} {ts : List Template}
    (hkind : t.WellKinded) (hnumber : Numbered side first t.symbols mid)
    (h : BoundAll side mid ts stop) : BoundAll side first (t :: ts) stop where
  kinds := forall_mem_cons.mpr ⟨hkind, h.kinds⟩
  numbers := hnumber.append h.numbers

/-- Each hole becomes an input with a symbol of its own. -/
theorem bindHoles_boundAll {n : Nat} : ∀ {b b' : Binding} {ts : List Template},
    Binds (bindHoles side n) b ts b' → BoundAll side b.bound ts b'.bound := by
  induction n with
  | zero =>
    intro b b' ts h
    obtain ⟨rfl, rfl⟩ := binds_pure h
    exact .nil side _
  | succ n ih =>
    intro b b' ts h
    obtain ⟨s, b₁, hs, h⟩ := binds_bind h
    obtain ⟨rest, b₂, hrest, h⟩ := binds_bind h
    obtain ⟨rfl, rfl⟩ := binds_pure h
    obtain ⟨hkind, hnumber⟩ := bindSymbol_numbered hs
    exact .cons hkind hnumber (ih hrest)

/-- How an operator is bound: its operands first, whether they are given or not, and then its own
symbols. -/
theorem bind_cases {name : String} {names : List String} {operands : List Sketch} {b b' : Binding}
    {t : Template} (h : Binds (bind side (.node name names operands)) b t b') :
    ∃ (op : Operator) (inputs : List Template) (b₁ : Binding) (symbols : List Symbol),
      (Binds (bindHoles side op.arity) b inputs b₁ ∨ Binds (bindAll side operands) b inputs b₁) ∧
      Binds (bindSymbols side op.symbolKinds names) b₁ symbols b' ∧
      assemble? op symbols inputs = some t := by
  unfold bind at h
  split at h
  · exact absurd h not_binds_throw
  next op _ =>
  -- Operands that are left out are holes; all others are bound in order.
  obtain ⟨inputs, b₁, hinputs, h⟩ : ∃ inputs b₁,
      (Binds (bindHoles side op.arity) b inputs b₁ ∨ Binds (bindAll side operands) b inputs b₁) ∧
      Binds _ b₁ t b' := by
    split at h
    · obtain ⟨inputs, b₁, hinputs, h⟩ := binds_bind h
      exact ⟨inputs, b₁, .inl hinputs, h⟩
    split at h
    · obtain ⟨inputs, b₁, hinputs, h⟩ := binds_bind h
      exact ⟨inputs, b₁, .inr hinputs, h⟩
    · obtain ⟨_, _, hthrow, -⟩ := binds_bind h
      exact absurd hthrow not_binds_throw
  dsimp only at h
  split at h
  · obtain ⟨_, _, hthrow, -⟩ := binds_bind h
    exact absurd hthrow not_binds_throw
  obtain ⟨symbols, b₂, hsymbols, h⟩ := binds_bind h
  split at h
  · next hassemble =>
    obtain ⟨rfl, rfl⟩ := binds_pure h
    exact ⟨op, inputs, b₁, symbols, hinputs, hsymbols, hassemble⟩
  · exact absurd h not_binds_throw

mutual

/-- Binding numbers the symbols of a template in the order of its operators. -/
theorem bind_numbered : ∀ {sketch : Sketch} {b b' : Binding} {t : Template},
    Binds (bind side sketch) b t b' → t.WellKinded ∧ Numbered side b.bound t.symbols b'.bound
  | .node name names operands, b, b', t, h => by
    obtain ⟨op, inputs, b₁, symbols, hinputs, hsymbols, hassemble⟩ := bind_cases h
    have hbound : BoundAll side b.bound inputs b₁.bound :=
      hinputs.elim bindHoles_boundAll bindAll_boundAll
    obtain ⟨hkinds, hnumbers⟩ := bindSymbols_numbered hsymbols
    obtain ⟨hwell, heq⟩ := assemble_eq_some hassemble hkinds hbound.kinds
    exact ⟨hwell, heq ▸ hbound.numbers.append hnumbers⟩

theorem bindAll_boundAll : ∀ {sketches : List Sketch} {b b' : Binding} {ts : List Template},
    Binds (bindAll side sketches) b ts b' → BoundAll side b.bound ts b'.bound
  | [], b, b', ts, h => by
    unfold bindAll at h
    obtain ⟨rfl, rfl⟩ := binds_pure h
    exact .nil side _
  | sketch :: sketches, b, b', ts, h => by
    unfold bindAll at h
    obtain ⟨t, b₁, ht, h⟩ := binds_bind h
    obtain ⟨rest, b₂, hrest, h⟩ := binds_bind h
    obtain ⟨rfl, rfl⟩ := binds_pure h
    obtain ⟨hwell, hnumbers⟩ := bind_numbered ht
    exact .cons hwell hnumbers (bindAll_boundAll hrest)

end

/-! ## Templates -/

/-- What holds of a template that was read. -/
structure WellBound (side : Side) (t : Template) : Prop where
  kinds : t.WellKinded
  numbers : Numbered side 0 t.symbols t.symbols.length

/-- A template that was read is what its sketch was bound to. -/
theorem binds_of_read {text : String} {names names' : Names} {t : Template}
    (h : read text side names = (.ok t, names')) :
    ∃ sketch b, Sketch.ofText text.toList = .ok sketch ∧
      Binds (bind side sketch) ⟨names, 0⟩ t b ∧ b.names = names' := by
  unfold read at h
  split at h
  · cases h
  next sketch hsketch =>
  rcases hrun : (bind side sketch).run.run ⟨names, 0⟩ with ⟨result, b⟩
  have hresult : (result, b.names) = (Except.ok t, names') := by
    rw [← h]
    show _ = (((bind side sketch).run.run ⟨names, 0⟩).1,
      ((bind side sketch).run.run ⟨names, 0⟩).2.names)
    rw [hrun]
  cases hresult
  exact ⟨sketch, b, hsketch, hrun, rfl⟩

theorem wellBound_of_read {text : String} {names names' : Names} {t : Template}
    (h : read text side names = (.ok t, names')) : t.WellBound side := by
  obtain ⟨sketch, b, -, hbinds, -⟩ := binds_of_read h
  obtain ⟨hkinds, hnumbers⟩ := bind_numbered hbinds
  refine ⟨hkinds, hnumbers.sides, hnumbers.ids, (Nat.zero_add _).symm⟩

/-! ## What a template exposes -/

/-- What is exposed are symbols of the template, in their order. -/
theorem exposed_sublist (t : Template) : t.exposed.Sublist t.symbols := by
  induction t with
  | input table => exact .refl _
  | proj dedup attrs p _ => exact sublist_append_right _ _
  | filter pred attrs p ih => exact ih.trans (sublist_append_left _ _)
  | inSub attrs p q ih _ =>
    exact ih.trans ((sublist_append_left _ _).trans (sublist_append_left _ _))
  | join kind leftAttrs rightAttrs l r ihl ihr =>
    exact (ihl.append ihr).trans (sublist_append_left _ _)
  | union dedup l r ih _ => exact ih.trans (sublist_append_left _ _)

theorem kind_of_mem_exposed {t : Template} (ht : t.WellKinded) {s : Symbol} (hs : s ∈ t.exposed) :
    s.kind ≠ .pred := by
  induction t with
  | input table =>
    rw [mem_singleton.mp hs, show table.kind = .table from ht]
    nofun
  | proj dedup attrs p _ =>
    rw [mem_singleton.mp hs, ht.2]
    nofun
  | filter pred attrs p ih | inSub attrs p q ih _ => exact ih ht.1 hs
  | join kind leftAttrs rightAttrs l r ihl ihr =>
    exact (mem_append.mp hs).elim (ihl ht.1) (ihr ht.2.1)
  | union dedup l r ih _ => exact ih ht.1 hs

/-- What is known of an attribute list and the symbols that it may be drawn from: they are symbols
of the template, and those it may be drawn from come before it. -/
structure DrawnBelow (symbols : List Symbol) (x : Symbol × List Symbol) : Prop where
  kind : x.1.kind = .attrs
  sources : x.2.Sublist symbols
  before : ∀ s ∈ x.2, s.kind ≠ .pred ∧ [s, x.1].Sublist symbols

theorem DrawnBelow.mono {l r : List Symbol} {x : Symbol × List Symbol} (h : DrawnBelow l x)
    (hsub : l.Sublist r) : DrawnBelow r x :=
  ⟨h.kind, h.sources.trans hsub, fun s hs => ⟨(h.before s hs).1, (h.before s hs).2.trans hsub⟩⟩

/-- An attribute list of an operator above a template is drawn from what the template exposes. -/
theorem drawnBelow_exposed {p : Template} (hp : p.WellKinded) {attrs : Symbol}
    (hattrs : attrs.kind = .attrs) {below above : List Symbol} (hbelow : p.symbols.Sublist below)
    (habove : attrs ∈ above) : DrawnBelow (below ++ above) (attrs, p.exposed) where
  kind := hattrs
  sources := (p.exposed_sublist.trans hbelow).trans (sublist_append_left _ _)
  before s hs := by
    refine ⟨kind_of_mem_exposed hp hs, ?_⟩
    have hs' : [s].Sublist below :=
      (singleton_sublist.mpr (p.exposed_sublist.subset hs)).trans hbelow
    exact hs'.append (singleton_sublist.mpr habove)

/-- An attribute list may draw only from symbols that come before it. -/
theorem drawnBelow_of_mem_viable {t : Template} (ht : t.WellKinded) {x : Symbol × List Symbol}
    (hx : x ∈ t.viable) : DrawnBelow t.symbols x := by
  induction t with
  | input table => cases hx
  | proj dedup attrs p ih =>
    rcases mem_append.mp hx with hx | hx
    · exact (ih ht.1 hx).mono (sublist_append_left _ _)
    · obtain rfl := mem_singleton.mp hx
      exact drawnBelow_exposed ht.1 ht.2 (.refl _) mem_cons_self
  | filter pred attrs p ih =>
    rcases mem_append.mp hx with hx | hx
    · exact (ih ht.1 hx).mono (sublist_append_left _ _)
    · obtain rfl := mem_singleton.mp hx
      exact drawnBelow_exposed ht.1 ht.2.2 (.refl _) (mem_cons_of_mem _ mem_cons_self)
  | inSub attrs p q ihp ihq =>
    -- Only the left operand exposes anything to the list of a subquery.
    have hp : p.symbols.Sublist (p.symbols ++ q.symbols) := sublist_append_left _ _
    have hq : q.symbols.Sublist (p.symbols ++ q.symbols) := sublist_append_right _ _
    rcases mem_append.mp hx with hx | hx
    · rcases mem_append.mp hx with hx | hx
      · exact (ihp ht.1 hx).mono (hp.trans (sublist_append_left _ _))
      · exact (ihq ht.2.1 hx).mono (hq.trans (sublist_append_left _ _))
    · obtain rfl := mem_singleton.mp hx
      exact drawnBelow_exposed ht.1 ht.2.2 hp mem_cons_self
  | join kind leftAttrs rightAttrs l r ihl ihr =>
    have hl : l.symbols.Sublist (l.symbols ++ r.symbols) := sublist_append_left _ _
    have hr : r.symbols.Sublist (l.symbols ++ r.symbols) := sublist_append_right _ _
    rcases mem_append.mp hx with hx | hx
    · rcases mem_append.mp hx with hx | hx
      · exact (ihl ht.1 hx).mono (hl.trans (sublist_append_left _ _))
      · exact (ihr ht.2.1 hx).mono (hr.trans (sublist_append_left _ _))
    · rcases mem_cons.mp hx with rfl | hx
      · exact drawnBelow_exposed ht.1 ht.2.2.1 hl mem_cons_self
      · obtain rfl := mem_singleton.mp hx
        exact drawnBelow_exposed ht.2.1 ht.2.2.2 hr (mem_cons_of_mem _ mem_cons_self)
  | union dedup l r ihl ihr =>
    rcases mem_append.mp hx with hx | hx
    · exact (ihl ht.1 hx).mono (sublist_append_left _ _)
    · exact (ihr ht.2 hx).mono (sublist_append_right _ _)

/-- The sources of an attribute list are listed with it, if there are any. -/
theorem viableSources_cases (t : Template) (attrs : Symbol) :
    t.viableSources attrs = [] ∨ (attrs, t.viableSources attrs) ∈ t.viable := by
  unfold viableSources
  cases hlookup : t.viable.lookup attrs with
  | none => exact .inl rfl
  | some sources =>
    exact .inr (mem_of_lookup hlookup)

/-- Every attribute list of a template is listed with its sources, in order. -/
theorem map_fst_viable {t : Template} (ht : t.WellKinded) :
    t.viable.map Prod.fst = t.symbolsOf .attrs := by
  induction t with
  | input table =>
    have hkind : table.kind = .table := ht
    simp [viable, symbolsOf, symbols, hkind]
  | proj dedup attrs p ih =>
    have hp := ih ht.1
    unfold symbolsOf at hp
    simp [viable, symbolsOf, symbols, hp, ht.2]
  | filter pred attrs p ih =>
    have hp := ih ht.1
    unfold symbolsOf at hp
    simp [viable, symbolsOf, symbols, hp, ht.2.1, ht.2.2]
  | inSub attrs p q ihp ihq =>
    have hp := ihp ht.1
    have hq := ihq ht.2.1
    unfold symbolsOf at hp hq
    simp [viable, symbolsOf, symbols, hp, hq, ht.2.2]
  | join kind leftAttrs rightAttrs l r ihl ihr =>
    have hl := ihl ht.1
    have hr := ihr ht.2.1
    unfold symbolsOf at hl hr
    simp [viable, symbolsOf, symbols, hl, hr, ht.2.2.1, ht.2.2.2]
  | union dedup l r ihl ihr =>
    have hl := ihl ht.1
    have hr := ihr ht.2
    unfold symbolsOf at hl hr
    simp [viable, symbolsOf, symbols, hl, hr]

namespace WellBound

variable {t : Template} {attrs s : Symbol} {kind : SymbolKind}

theorem pairwise_lt (h : t.WellBound side) : t.symbols.Pairwise fun a b => a.id < b.id :=
  h.numbers.pairwise_lt

theorem nodup_symbols (h : t.WellBound side) : t.symbols.Nodup := by
  refine h.pairwise_lt.imp ?_
  rintro a b hlt rfl
  exact Nat.lt_irrefl _ hlt

theorem nodup_symbolsOf (h : t.WellBound side) (kind : SymbolKind) : (t.symbolsOf kind).Nodup :=
  h.nodup_symbols.filter _

theorem side_of_mem (h : t.WellBound side) (hs : s ∈ t.symbolsOf kind) : s.side = side :=
  h.numbers.sides s (mem_of_mem_filter hs)

/-- A number is smaller than the number of symbols. -/
theorem id_lt (h : t.WellBound side) (hs : s ∈ t.symbols) : s.id < t.symbols.length := by
  have hid : s.id ∈ t.symbols.map (·.id) := mem_map_of_mem hs
  rw [h.numbers.ids] at hid
  simpa using hid

theorem viableSources_of_mem (h : t.WellBound side) {sources : List Symbol}
    (hmem : (attrs, sources) ∈ t.viable) : t.viableSources attrs = sources := by
  have hnodup : (t.viable.map Prod.fst).Nodup := by
    rw [map_fst_viable h.kinds]
    exact h.nodup_symbolsOf .attrs
  unfold viableSources
  rw [(lookup_eq_some_iff_mem hnodup).mpr hmem, Option.getD_some]

theorem drawnBelow (h : t.WellBound side) (hs : s ∈ t.viableSources attrs) :
    DrawnBelow t.symbols (attrs, t.viableSources attrs) := by
  rcases t.viableSources_cases attrs with hnil | hmem
  · rw [hnil] at hs
    cases hs
  · exact drawnBelow_of_mem_viable h.kinds hmem

theorem nodup_viableSources (h : t.WellBound side) (attrs : Symbol) :
    (t.viableSources attrs).Nodup := by
  rcases t.viableSources_cases attrs with hnil | hmem
  · rw [hnil]
    exact nodup_nil
  · exact h.nodup_symbols.sublist (drawnBelow_of_mem_viable h.kinds hmem).sources

/-- Attribute lists are drawn from tables and attribute lists of the template. -/
theorem mem_of_mem_viableSources (h : t.WellBound side) (hs : s ∈ t.viableSources attrs) :
    s ∈ t.symbolsOf s.kind ∧ s.kind ≠ .pred := by
  have hbelow := h.drawnBelow hs
  exact ⟨mem_filter.mpr ⟨hbelow.sources.subset hs, decide_eq_true rfl⟩, (hbelow.before s hs).1⟩

/-- The sources of an attribute list come before it. -/
theorem id_lt_of_mem_viableSources (h : t.WellBound side) (hs : s ∈ t.viableSources attrs) :
    s.id < attrs.id := by
  have hpair := h.pairwise_lt.sublist ((h.drawnBelow hs).before s hs).2
  exact (pairwise_cons.mp hpair).1 attrs mem_cons_self

end WellBound

end Template

/-! ## Catalogs -/

/-- What holds of the catalog of two templates that were read. -/
structure Catalog.WellBound (catalog : Catalog) : Prop where
  source : catalog.source.WellBound .source
  target : catalog.target.WellBound .target

/-- The catalog of two templates that were read is well bound. -/
theorem TemplatePair.wellBound {p : TemplatePair} {catalog : Catalog}
    (h : p.catalog = .ok catalog) : catalog.WellBound := by
  unfold TemplatePair.catalog at h
  rcases hsource : Template.read p.source .source Names.empty with ⟨source, names⟩
  rw [hsource] at h
  cases source with
  | error e => cases h
  | ok source =>
    rcases htarget : Template.read p.target .target names with ⟨target, names'⟩
    simp only [bind, Except.bind, htarget] at h
    cases target with
    | error e => cases h
    | ok target =>
      cases h
      exact ⟨Template.wellBound_of_read hsource, Template.wellBound_of_read htarget⟩

end QueryRules
