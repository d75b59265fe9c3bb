import QueryRules.Proofs.NamedSymbols

/-!
# QueryRules — templates from their written form

Reading the written form of a template gives the template back, symbol by symbol, and names the
symbols as they were named.
-/

namespace QueryRules

open List Scan

/-! ## Operators with operands -/

namespace Operator

theorem mem_all (op : Operator) : op ∈ all := by
  cases op with
  | input => decide
  | proj dedup => cases dedup <;> decide
  | filter | inSub => decide
  | join kind => cases kind <;> decide
  | union dedup => cases dedup <;> decide

theorem ofName?_name (op : Operator) : ofName? op.name = some op := by
  have hall : ∀ op ∈ all, ofName? op.name = some op := by decide
  exact hall op op.mem_all

/-- The name of an operator consists of letters, perhaps with a star after them. -/
theorem name_cases (op : Operator) :
    ∃ w : String, w ≠ "" ∧ (∀ c ∈ w.toList, c.isAlpha = true) ∧
      (op.name = w ∨ op.name = w ++ "*") := by
  cases op with
  | input => exact ⟨"Input", by decide, all_eq_true.mp (by decide), .inl rfl⟩
  | proj dedup =>
    cases dedup with
    | false => exact ⟨"Proj", by decide, all_eq_true.mp (by decide), .inl rfl⟩
    | true => exact ⟨"Proj", by decide, all_eq_true.mp (by decide), .inr rfl⟩
  | filter => exact ⟨"Filter", by decide, all_eq_true.mp (by decide), .inl rfl⟩
  | inSub => exact ⟨"InSubFilter", by decide, all_eq_true.mp (by decide), .inl rfl⟩
  | join kind =>
    cases kind with
    | inner => exact ⟨"InnerJoin", by decide, all_eq_true.mp (by decide), .inl rfl⟩
    | left => exact ⟨"LeftJoin", by decide, all_eq_true.mp (by decide), .inl rfl⟩
  | union dedup =>
    cases dedup with
    | false => exact ⟨"Union", by decide, all_eq_true.mp (by decide), .inl rfl⟩
    | true => exact ⟨"Union", by decide, all_eq_true.mp (by decide), .inr rfl⟩

end Operator

/-! ## Words -/

/-- No character of a name is a space. -/
theorem isSpace_of_isNameChar {c : Char} (h : isNameChar c = true) :
    Text.isSpace c = false := by
  by_contra hspace
  simp only [Text.isSpace, Bool.not_eq_false, Bool.or_eq_true, decide_eq_true_eq] at hspace
  rcases hspace with ((rfl | rfl) | rfl) | rfl <;> exact absurd h (by decide)

theorem startsOutside_name {w : String} (hne : w ≠ "")
    (hchars : ∀ c ∈ w.toList, isNameChar c = true) (more : List Char) :
    Scan.StartsOutside Text.isSpace (w.toList ++ more) := by
  refine startsOutside_append ?_ (fun c hc => isSpace_of_isNameChar (hchars c hc)) more
  simpa using hne

namespace Sketch

/-- The name of an operator is read up to the bracket after it. -/
theorem scanOperator_name (op : Operator) {c : Char} (halpha : c.isAlpha = false) (hstar : c ≠ '*')
    (rest : List Char) :
    scanOperator (op.name.toList ++ c :: rest) = .ok (op.name, c :: rest) := by
  obtain ⟨w, hne, hw, hname | hname⟩ := op.name_cases
  · have hword := word_eq hne hw (startsOutside_cons halpha rest)
    have hnone : Scan.optional (Scan.char '*') (c :: rest) = (none, c :: rest) := by
      unfold Scan.optional
      rw [Scan.char_ne hstar]
    rw [hname]
    unfold scanOperator
    rw [hword]
    simp only [bind, Except.bind, hnone]
    rfl
  · have hword := word_eq hne hw
      (startsOutside_cons (show ('*').isAlpha = false from rfl) (c :: rest))
    rw [hname, String.toList_append, append_assoc]
    unfold scanOperator
    change (word Char.isAlpha (w.toList ++ '*' :: c :: rest) >>= _) = _
    rw [hword]
    rfl

/-- Names between angle brackets are read back. -/
theorem listed_names {labels : List String}
    (hlabels : ∀ w ∈ labels, w ≠ "" ∧ ∀ c ∈ w.toList, isNameChar c = true)
    (rest : List Char) :
    Scan.Listed scanGap (word isNameChar) ' ' String.toList id labels
      ('>' :: rest) where
  item_eq w hw more hmore := by
    obtain ⟨hne, hchars⟩ := hlabels w hw
    refine word_eq hne hchars ?_
    rcases hmore with rfl | hspace
    · exact startsOutside_cons rfl rest
    · intro c hc
      rw [hspace] at hc
      cases hc
      rfl
  sep_eq w hw more := by
    obtain ⟨hne, hchars⟩ := hlabels w hw
    have hgap : word Text.isSpace (' ' :: (w.toList ++ more)) = .ok (" ", w.toList ++ more) :=
      word_eq (w := " ") (by decide) (all_eq_true.mp (by decide))
        (startsOutside_name hne hchars more)
    unfold scanGap
    rw [hgap]
  finish := ⟨_, rfl⟩

end Sketch

namespace Template

/-- The operands of the operator at the root. -/
def operands : Template → List Template
  | .input _ => []
  | .proj _ _ p => [p]
  | .filter _ _ p => [p]
  | .inSub _ p q => [p, q]
  | .join _ _ _ l r => [l, r]
  | .union _ l r => [l, r]

/-- Induction over operands. -/
theorem induction_operands {P : Template → Prop} (h : ∀ t, (∀ p ∈ t.operands, P p) → P t)
    (t : Template) : P t := by
  induction t with
  | input table => exact h _ fun p hp => absurd hp not_mem_nil
  | proj dedup attrs p ih | filter pred attrs p ih => exact h _ (forall_mem_singleton.mpr ih)
  | inSub attrs p q ihp ihq =>
    exact h _ (forall_mem_cons.mpr ⟨ihp, forall_mem_singleton.mpr ihq⟩)
  | join kind leftAttrs rightAttrs l r ihl ihr | union dedup l r ihl ihr =>
    exact h _ (forall_mem_cons.mpr ⟨ihl, forall_mem_singleton.mpr ihr⟩)

theorem assemble?_operands (t : Template) :
    assemble? t.operator t.rootSymbols t.operands = some t := by
  cases t <;> rfl

theorem length_operands (t : Template) : t.operands.length = t.operator.arity := by
  cases t <;> rfl

theorem symbols_eq (t : Template) :
    t.symbols = t.operands.flatMap symbols ++ t.rootSymbols := by
  cases t <;> simp [symbols, operands, rootSymbols]

theorem wellKinded_iff (t : Template) :
    t.WellKinded ↔
      (∀ p ∈ t.operands, p.WellKinded) ∧ t.rootSymbols.map (·.kind) = t.operator.symbolKinds := by
  cases t <;> simp [WellKinded, operands, rootSymbols, operator, Operator.symbolKinds, and_assoc]

theorem size_pos (t : Template) : 0 < t.size := by
  cases t <;> exact Nat.succ_pos _

theorem size_lt {t p : Template} (hp : p ∈ t.operands) : p.size < t.size := by
  cases t <;> simp only [operands, mem_cons, not_mem_nil, or_false] at hp
  case proj => simp only [hp, size]; omega
  case filter => simp only [hp, size]; omega
  all_goals
    rcases hp with rfl | rfl <;> simp only [size] <;> omega

/-- A template without symbols at its root has operands. -/
theorem operands_ne_nil {t : Template} (h : t.rootSymbols = []) : t.operands ≠ [] := by
  cases t with
  | union dedup l r => exact cons_ne_nil _ _
  | _ => cases h

/-! ## Scanning -/

variable {names : Names}

/-- What is written of a template. -/
def sketch (names : Names) : Template → Sketch
  | .input table => .node Operator.input.name [names.label table] []
  | .proj dedup attrs p => .node (Operator.proj dedup).name [names.label attrs] [p.sketch names]
  | .filter pred attrs p =>
    .node Operator.filter.name [names.label pred, names.label attrs] [p.sketch names]
  | .inSub attrs p q =>
    .node Operator.inSub.name [names.label attrs] [p.sketch names, q.sketch names]
  | .join kind leftAttrs rightAttrs l r =>
    .node (Operator.join kind).name [names.label leftAttrs, names.label rightAttrs]
      [l.sketch names, r.sketch names]
  | .union dedup l r => .node (Operator.union dedup).name [] [l.sketch names, r.sketch names]

theorem sketch_eq (names : Names) (t : Template) :
    t.sketch names = .node t.operator.name (t.rootSymbols.map names.label)
      (t.operands.map (sketch names)) := by
  cases t <;> rfl

theorem toList_head (op : Operator) (labels : List String) :
    (head op labels).toList =
      op.name.toList ++ delimited '<' ' ' '>' (labels.map String.toList) := by
  unfold head
  cases labels with
  | nil | cons w labels => simp [delimited]

/-- An operator, its symbols between angle brackets and its operands between parentheses. -/
theorem toList_text (names : Names) (t : Template) :
    (t.text names).toList =
      t.operator.name.toList
        ++ (delimited '<' ' ' '>' ((t.rootSymbols.map names.label).map String.toList)
        ++ delimited '(' ',' ')' (t.operands.map fun p => (p.text names).toList)) := by
  rw [← append_assoc, ← toList_head]
  cases t <;> simp [text, operands, operator, rootSymbols, delimited]

/-- The written form begins with a letter. -/
theorem startsOutside_text (names : Names) (t : Template) {p : Char → Bool}
    (hp : ∀ c, c.isAlpha = true → p c = false) (more : List Char) :
    Scan.StartsOutside p ((t.text names).toList ++ more) := by
  have hletters : ∀ {w : String}, w ≠ "" → (∀ c ∈ w.toList, c.isAlpha = true) →
      ∀ rest, Scan.StartsOutside p (w.toList ++ rest) := by
    intro w hne hw rest
    refine startsOutside_append ?_ (fun c hc => hp c (hw c hc)) rest
    simpa using hne
  rw [toList_text, append_assoc]
  obtain ⟨w, hne, hw, hname | hname⟩ := t.operator.name_cases
  · rw [hname]
    exact hletters hne hw _
  · rw [hname, String.toList_append, append_assoc]
    exact hletters hne hw _

theorem isSpace_of_isAlpha {c : Char} (h : c.isAlpha = true) : Text.isSpace c = false := by
  apply isSpace_of_isNameChar
  unfold isNameChar Char.isAlphanum
  rw [h, Bool.true_or, Bool.true_or]

/-- Operands that are read back one by one are read back as a list. -/
theorem listed_operands {depth : Nat} {operands : List Template}
    (hoperands : ∀ p ∈ operands, ∀ more, Scan.StartsOutside (· = '(') more →
      Sketch.scan depth ((p.text names).toList ++ more) = .ok (p.sketch names, more))
    (rest : List Char) :
    Scan.Listed (spaced ',') (Sketch.scan depth) ',' (fun p => (p.text names).toList)
      (sketch names) operands (')' :: rest) where
  item_eq p hp more hmore := by
    refine hoperands p hp more ?_
    rcases hmore with rfl | hcomma
    · exact startsOutside_cons (by decide) rest
    · intro c hc
      rw [hcomma] at hc
      cases hc
      rfl
  sep_eq p _ more :=
    spaced_eq rfl (p.startsOutside_text names (fun _ => isSpace_of_isAlpha) more)
  finish := ⟨_, spaced_ne rfl (by decide) rest⟩

/-- An operator is read back, if its names and its operands are. What follows it must not look like
operands if it has none. -/
theorem scan_written {depth : Nat} (op : Operator) {labels : List String}
    {operands : List Template} {rest : List Char}
    (hlabels : ∀ w ∈ labels, w ≠ "" ∧ ∀ c ∈ w.toList, isNameChar c = true)
    (hoperands : ∀ p ∈ operands, ∀ more, Scan.StartsOutside (· = '(') more →
      Sketch.scan depth ((p.text names).toList ++ more) = .ok (p.sketch names, more))
    (hsome : labels = [] → operands ≠ []) (hrest : Scan.StartsOutside (· = '(') rest) :
    Sketch.scan (depth + 1)
        (op.name.toList ++ (delimited '<' ' ' '>' (labels.map String.toList)
          ++ (delimited '(' ',' ')' (operands.map fun p => (p.text names).toList) ++ rest)))
      = .ok (.node op.name labels (operands.map (sketch names)), rest) := by
  obtain ⟨foundOperands, hreadOperands, hvalues⟩ :=
    optional_delimited '(' rfl
      (fun p _ more => p.startsOutside_text names (fun _ => isSpace_of_isAlpha) more)
      (listed_operands hoperands rest) (fun _ => hrest)
  generalize hafter : delimited '(' ',' ')' (operands.map fun p => (p.text names).toList)
    ++ rest = after at hreadOperands ⊢
  have hopening : operands ≠ [] → ∃ cs, after = '(' :: cs := by
    intro hne
    cases operands with
    | nil => exact absurd rfl hne
    | cons p operands => exact ⟨_, hafter.symm⟩
  have hnamesStart : labels = [] → Scan.StartsOutside (· = '<') after := by
    intro hnil
    obtain ⟨cs, rfl⟩ := hopening (hsome hnil)
    exact startsOutside_cons (by decide) cs
  obtain ⟨foundNames, hreadNames, hlabelsRead⟩ :=
    optional_delimited '<' rfl
      (fun w hw more => startsOutside_name (hlabels w hw).1 (hlabels w hw).2 more)
      (Sketch.listed_names hlabels after) hnamesStart
  -- A bracket of one of the two kinds ends the name of the operator.
  have hop : Sketch.scanOperator
      (op.name.toList ++ (delimited '<' ' ' '>' (labels.map String.toList) ++ after))
      = .ok (op.name, delimited '<' ' ' '>' (labels.map String.toList) ++ after) := by
    cases labels with
    | nil =>
      obtain ⟨cs, rfl⟩ := hopening (hsome rfl)
      exact Sketch.scanOperator_name op (by decide) (by decide) cs
    | cons w labels => exact Sketch.scanOperator_name op (by decide) (by decide) _
  rw [map_id] at hlabelsRead
  rw [Sketch.scan_succ, hop]
  show Except.ok (Sketch.node op.name
    ((optional Sketch.scanNames
      (delimited '<' ' ' '>' (labels.map String.toList) ++ after)).1.getD []) _, _) = _
  have hnamesRead : optional Sketch.scanNames
      (delimited '<' ' ' '>' (labels.map String.toList) ++ after) = (foundNames, after) :=
    hreadNames
  rw [hnamesRead, hreadOperands, hlabelsRead, hvalues]

/-- The written form of a template is scanned up to its end, unless an operand list could follow. -/
theorem scan_text (hnames : names.Sound) (t : Template) :
    ∀ {depth : Nat} {rest : List Char}, t.size ≤ depth → (∀ s ∈ t.symbols, s ∈ names.symbols) →
      Scan.StartsOutside (· = '(') rest →
      Sketch.scan depth ((t.text names).toList ++ rest) = .ok (t.sketch names, rest) := by
  induction t using induction_operands with
  | h t ih =>
    intro depth rest hdepth hsymbols hrest
    have hlabels : ∀ w ∈ t.rootSymbols.map names.label,
        w ≠ "" ∧ ∀ c ∈ w.toList, isNameChar c = true := by
      intro w hw
      obtain ⟨s, hs, rfl⟩ := mem_map.mp hw
      have hmem : s ∈ t.symbols := by
        rw [symbols_eq]
        exact mem_append_right _ hs
      have hname := hnames.isName _ (hnames.mem_entries (hsymbols s hmem))
      exact ⟨hname.ne_empty, hname.chars⟩
    cases depth with
    | zero => exact absurd hdepth (Nat.not_le_of_lt t.size_pos)
    | succ depth =>
      -- An operand is smaller than the whole, so the depth is enough.
      have hoperands : ∀ p ∈ t.operands, ∀ more, Scan.StartsOutside (· = '(') more →
          Sketch.scan depth ((p.text names).toList ++ more) = .ok (p.sketch names, more) := by
        intro p hp more hmore
        have hsize := size_lt hp
        refine ih p hp (by omega) (fun s hs => hsymbols s ?_) hmore
        rw [symbols_eq]
        exact mem_append_left _ (mem_flatMap.mpr ⟨p, hp, hs⟩)
      have hsome : t.rootSymbols.map names.label = [] → t.operands ≠ [] := by
        intro hnil
        exact operands_ne_nil (map_eq_nil_iff.mp hnil)
      rw [toList_text, append_assoc, append_assoc, sketch_eq]
      exact scan_written t.operator hlabels hoperands hsome hrest

/-- Every operator takes at least one character. -/
theorem size_le_length (names : Names) (t : Template) : t.size ≤ (t.text names).length := by
  have hparen : ("(" : String).length = 1 := rfl
  induction t with
  | input table =>
    have hname : ("Input" : String).length = 5 := rfl
    simp only [text, head, size, Operator.name, isEmpty_cons, Bool.false_eq_true, if_false,
      String.length_append]
    omega
  | proj dedup attrs p ih | filter pred attrs p ih | inSub attrs p q ihp ihq
  | join kind leftAttrs rightAttrs l r ihl ihr | union dedup l r ihl ihr =>
    simp only [text, size, String.length_append]
    omega

/-- The first step of reading gives back what was written. -/
theorem ofText_text (hnames : names.Sound) {t : Template}
    (hsymbols : ∀ s ∈ t.symbols, s ∈ names.symbols) :
    Sketch.ofText (t.text names).toList = .ok (t.sketch names) := by
  have hdepth : t.size ≤ (t.text names).toList.length + 1 := by
    rw [String.length_toList]
    exact Nat.le_succ_of_le (t.size_le_length names)
  have hend : Scan.StartsOutside (· = '(') [] := fun c hc => by cases hc
  have hscan := scan_text hnames t hdepth hsymbols hend
  have hstart := t.startsOutside_text names (fun _ => isSpace_of_isAlpha) []
  rw [append_nil] at hscan hstart
  exact whole_eq hstart hscan

/-! ## Binding -/

end Template

/-- The symbols that come next in a table of names: they are numbered from the number of symbols
bound so far, and they have their names in the table after those that are known so far. -/
structure Binding.Awaits (all : Names) (side : Side) (symbols : List Symbol) (b : Binding) :
    Prop where
  paired : b.names.Paired
  numbers : Numbered side b.bound symbols (b.bound + symbols.length)
  entries : b.names.entries ++ symbols.map (fun s => (s, all.label s)) <+: all.entries

/-- Some symbols are bound, with their names in a table. -/
structure Binding.Follows (all : Names) (symbols : List Symbol) (b b' : Binding) : Prop where
  paired : b.names.Paired → b'.names.Paired
  bound : b'.bound = b.bound + symbols.length
  entries : b'.names.entries = b.names.entries ++ symbols.map fun s => (s, all.label s)

namespace Binding

variable {all : Names} {side : Side} {xs ys : List Symbol} {b b₁ b₂ : Binding}

theorem Follows.nil (all : Names) (b : Binding) : Follows all [] b b :=
  ⟨id, rfl, (append_nil _).symm⟩

theorem Follows.append (hxs : Follows all xs b b₁) (hys : Follows all ys b₁ b₂) :
    Follows all (xs ++ ys) b b₂ where
  paired h := hys.paired (hxs.paired h)
  bound := by
    rw [hys.bound, hxs.bound, length_append, Nat.add_assoc]
  entries := by
    rw [hys.entries, hxs.entries, map_append, append_assoc]

theorem numbered_of_append {first stop : Nat} (h : Numbered side first (xs ++ ys) stop) :
    Numbered side first xs (first + xs.length) ∧
      Numbered side (first + xs.length) ys (first + xs.length + ys.length) := by
  have hids := h.ids
  rw [map_append, length_append, ← range'_append_1] at hids
  obtain ⟨hxs, hys⟩ := append_inj hids (by simp)
  exact ⟨⟨fun s hs => h.sides s (mem_append_left _ hs), hxs, rfl⟩,
    ⟨fun s hs => h.sides s (mem_append_right _ hs), hys, rfl⟩⟩

theorem Awaits.left (h : b.Awaits all side (xs ++ ys)) : b.Awaits all side xs where
  paired := h.paired
  numbers := (numbered_of_append h.numbers).1
  entries := by
    have hentries := h.entries
    rw [map_append, ← append_assoc] at hentries
    exact (prefix_append _ _).trans hentries

theorem Awaits.right (h : b.Awaits all side (xs ++ ys)) (hxs : Follows all xs b b₁) :
    b₁.Awaits all side ys where
  paired := hxs.paired h.paired
  numbers := by
    rw [hxs.bound]
    exact (numbered_of_append h.numbers).2
  entries := by
    have hentries := h.entries
    rw [map_append, ← append_assoc] at hentries
    rw [hxs.entries]
    exact hentries

end Binding

namespace Template

variable {α β : Type} {all : Names} {side : Side}

/-- The next symbol is bound with its name. -/
theorem bindSymbol_awaits (hall : all.Sound) {s : Symbol} {b : Binding}
    (h : b.Awaits all side [s]) :
    ∃ b', Binds (bindSymbol side s.kind (some (all.label s))) b s b' ∧
      Binding.Follows all [s] b b' := by
  have hs : s = ⟨side, s.kind, b.bound⟩ := by
    have hside := h.numbers.sides s mem_cons_self
    have hid : s.id = b.bound := by simpa using h.numbers.ids
    rw [← hside, ← hid]
  obtain ⟨later, hlater⟩ := h.entries
  have hsymbols : all.symbols = b.names.symbols ++ s :: later.map Prod.fst := by
    unfold Names.symbols
    rw [← hlater]
    simp
  have htaken : all.taken = b.names.taken ++ all.label s :: later.map Prod.snd := by
    unfold Names.taken
    rw [← hlater]
    simp
  have hnew : s ∉ b.names.symbols := by
    have hnodup := hall.symbols_nodup
    rw [hsymbols, nodup_middle, nodup_cons] at hnodup
    exact fun hmem => hnodup.1 (mem_append_left _ hmem)
  have hfree : all.label s ∉ b.names.taken := by
    have hnodup := hall.taken_nodup
    rw [htaken, nodup_middle, nodup_cons] at hnodup
    exact fun hmem => hnodup.1 (mem_append_left _ hmem)
  have hname : IsName s.kind (all.label s) := by
    apply hall.isName (s, all.label s)
    rw [← hlater]
    simp
  obtain ⟨n', hset, hb⟩ := Names.set_eq h.paired hname.first hfree
  have htakes : b.names.Takes s (some (all.label s)) n' := hset
  exact ⟨⟨n', b.bound + 1⟩, binds_bindSymbol.mpr ⟨hs, htakes, rfl⟩, fun hn => hn.binds hb, rfl,
    hb.entries_of_new hnew⟩

/-- Symbols that wait for their names are bound again in the same order. -/
theorem bindSymbols_awaits (hall : all.Sound) {xs : List Symbol} :
    ∀ {b : Binding}, b.Awaits all side xs →
      ∃ b', Binds (bindSymbols side (xs.map (·.kind)) (xs.map all.label)) b xs b' ∧
        Binding.Follows all xs b b' := by
  induction xs with
  | nil =>
    intro b _
    exact ⟨b, rfl, .nil all b⟩
  | cons s xs ih =>
    intro b h
    have hsplit : b.Awaits all side ([s] ++ xs) := h
    obtain ⟨b₁, hbind, hfollows⟩ := bindSymbol_awaits hall hsplit.left
    obtain ⟨b₂, hbinds, hfollows'⟩ := ih (hsplit.right hfollows)
    refine ⟨b₂, ?_, hfollows.append hfollows'⟩
    exact binds_bind_of hbind (binds_bind_of hbinds rfl)

/-- Operands that can be bound one by one can be bound in turn. -/
theorem bindAll_awaits {ps : List Template} :
    (∀ p ∈ ps, ∀ b : Binding, b.Awaits all side p.symbols →
      ∃ b', Binds (bind side (p.sketch all)) b p b' ∧ Binding.Follows all p.symbols b b') →
    ∀ b : Binding, b.Awaits all side (ps.flatMap symbols) →
      ∃ b', Binds (bindAll side (ps.map (sketch all))) b ps b' ∧
        Binding.Follows all (ps.flatMap symbols) b b' := by
  induction ps with
  | nil =>
    intro _ b _
    refine ⟨b, ?_, .nil all b⟩
    unfold bindAll
    rfl
  | cons p ps ih =>
    intro hps b h
    obtain ⟨b₁, hbind, hfollows⟩ := hps p mem_cons_self b h.left
    obtain ⟨b₂, hbinds, hfollows'⟩ :=
      ih (fun q hq => hps q (mem_cons_of_mem _ hq)) b₁ (h.right hfollows)
    refine ⟨b₂, ?_, hfollows.append hfollows'⟩
    rw [map_cons]
    unfold bindAll
    exact binds_bind_of hbind (binds_bind_of hbinds rfl)

/-- An operator whose operands are bound is put together again. -/
theorem bindRoot_awaits (hall : all.Sound) {t : Template} {b : Binding}
    (hkinds : t.rootSymbols.map (·.kind) = t.operator.symbolKinds)
    (h : b.Awaits all side t.rootSymbols) :
    ∃ b', Binds (do
      let kinds := t.operator.symbolKinds
      if !(t.rootSymbols.map all.label).isEmpty
          && (t.rootSymbols.map all.label).length ≠ kinds.length then
        throw (.symbolCount t.operator.name kinds.length (t.rootSymbols.map all.label).length)
      let symbols ← bindSymbols side kinds (t.rootSymbols.map all.label)
      match assemble? t.operator symbols t.operands with
      | some t => return t
      | none => throw (.unknownOperator t.operator.name)) b t b' ∧
      Binding.Follows all t.rootSymbols b b' := by
  obtain ⟨b', hbinds, hfollows⟩ := bindSymbols_awaits hall h
  refine ⟨b', ?_, hfollows⟩
  have hlength : (t.rootSymbols.map all.label).length = t.operator.symbolKinds.length := by
    rw [← hkinds, length_map, length_map]
  rw [hkinds] at hbinds
  dsimp only
  rw [if_neg (by simp [hlength])]
  apply binds_bind_of hbinds
  rw [assemble?_operands]
  rfl

/-- The second step of reading binds the symbols that come next in the table. -/
theorem bind_sketch (hall : all.Sound) (t : Template) :
    t.WellKinded → ∀ b : Binding, b.Awaits all side t.symbols →
      ∃ b', Binds (bind side (t.sketch all)) b t b' ∧ Binding.Follows all t.symbols b b' := by
  induction t using induction_operands with
  | h t ih =>
    intro hkinds b h
    obtain ⟨hoperands, hroot⟩ := (wellKinded_iff t).mp hkinds
    rw [symbols_eq] at h ⊢
    obtain ⟨b₁, hinputs, hfollows⟩ := bindAll_awaits (fun p hp => ih p hp (hoperands p hp)) b h.left
    obtain ⟨b₂, hown, hfollows'⟩ := bindRoot_awaits hall hroot (h.right hfollows)
    refine ⟨b₂, ?_, hfollows.append hfollows'⟩
    rw [sketch_eq]
    unfold bind
    rw [Operator.ofName?_name]
    dsimp only
    split
    next hempty =>
      -- Without operands there is no room for tables with new names either.
      have hnil : t.operands = [] := by simpa using hempty
      have harity : t.operator.arity = 0 := by rw [← length_operands, hnil, length_nil]
      have hholes : Binds (bindHoles side t.operator.arity) b t.operands b₁ := by
        rw [hnil] at hinputs ⊢
        rw [harity]
        unfold bindAll at hinputs
        exact hinputs
      exact binds_bind_of hholes hown
    next =>
      rw [if_pos (by rw [length_map, length_operands])]
      exact binds_bind_of hinputs hown

/-- Reading the written form of a template gives the template back, and names its symbols as they
were named. -/
theorem read_text (hall : all.Sound) {t : Template} (ht : t.WellBound side) {names : Names}
    (hnames : names.Paired)
    (hentries : names.entries ++ t.symbols.map (fun s => (s, all.label s)) <+: all.entries) :
    ∃ names', read (t.text all) side names = (.ok t, names') ∧ names'.Paired ∧
      names'.entries = names.entries ++ t.symbols.map fun s => (s, all.label s) := by
  have hsymbols : ∀ s ∈ t.symbols, s ∈ all.symbols := by
    intro s hs
    have hmem : (s, all.label s) ∈ all.entries :=
      hentries.subset (mem_append_right _ (mem_map_of_mem hs))
    exact mem_map_of_mem hmem
  have hawaits : Binding.Awaits all side t.symbols ⟨names, 0⟩ := by
    refine ⟨hnames, ?_, hentries⟩
    rw [Nat.zero_add]
    exact ht.numbers
  obtain ⟨b', hbind, hfollows⟩ := bind_sketch hall t ht.kinds _ hawaits
  refine ⟨b'.names, ?_, hfollows.paired hnames, hfollows.entries⟩
  unfold Binds at hbind
  unfold read
  rw [ofText_text hall hsymbols]
  show (((bind side (t.sketch all)).run.run ⟨names, 0⟩).1,
    ((bind side (t.sketch all)).run.run ⟨names, 0⟩).2.names) = _
  rw [hbind]

end Template

end QueryRules
