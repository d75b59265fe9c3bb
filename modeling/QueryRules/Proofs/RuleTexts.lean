import QueryRules.Proofs.PlanReads
import QueryRules.Proofs.RuleViews
import QueryRules.Proofs.TemplateTexts
import QueryRules.Rule.Reader

/-!
# QueryRules — rules from their written form

A rule that was read from a text, or that a catalog of two templates describes, can be written and
read again. The rule that is read has the same templates, the same constraints in the same order
and the same names.
-/

namespace QueryRules

open List Scan Template

/-! ## Blanks -/

namespace Text

/-- A text with no blanks at its ends is not trimmed. -/
theorem trim_eq {cs : List Char} (hfirst : Scan.StartsOutside isBlank cs)
    (hlast : Scan.StartsOutside isBlank cs.reverse) : trim cs = cs := by
  unfold trim
  rw [dropWhile_of_startsOutside hfirst, dropWhile_of_startsOutside hlast,
    reverse_reverse]

theorem isBlank_of_isAlpha {c : Char} (h : c.isAlpha = true) : isBlank c = false := by
  have hletter : 65 ≤ c.toNat ∧ c.toNat ≤ 122 := by
    have hval : c.toNat = c.val.toNat := rfl
    unfold Char.isAlpha Char.isUpper Char.isLower at h
    simp [UInt32.le_iff_toNat_le] at h
    omega
  have hbounds : ∀ range ∈ blankRanges, range.2 < 65 ∨ 122 < range.1 := by decide
  unfold isBlank inRanges
  rw [any_eq_false]
  intro range hmem hin
  have hout := hbounds range hmem
  simp only [Bool.and_eq_true, decide_eq_true_eq] at hin
  omega

end Text

/-! ## Tables of names with the same entries -/

variable {n n' : Names}

theorem Names.label_congr (h : n.entries = n'.entries) : n.label = n'.label := by
  funext s
  unfold label nameOf?
  rw [h]

/-- Tables that belong together are given by the names of the symbols. -/
theorem Names.Sound.of_entries (hn : n.Sound) (hn' : n'.Paired)
    (h : n'.entries = n.entries) : n'.Sound := by
  refine ⟨hn', ?_⟩
  rw [h]
  exact hn.chars

theorem Template.text_congr (h : n.label = n'.label) (t : Template) :
    t.text n = t.text n' := by
  induction t with
  | input table => simp only [text, h]
  | proj dedup attrs p ih | filter pred attrs p ih => simp only [text, h, ih]
  | inSub attrs p q ihp ihq => simp only [text, h, ihp, ihq]
  | join kind leftAttrs rightAttrs l r ihl ihr => simp only [text, h, ihl, ihr]
  | union dedup l r ihl ihr => simp only [text, ihl, ihr]

theorem Constraint.text_congr (h : n.label = n'.label) (c : Constraint) :
    c.text n = c.text n' := by
  unfold text
  rw [h]

/-! ## Constraints -/

namespace ConstraintKind

theorem ofName?_name (k : ConstraintKind) : ofName? k.name = some k := by
  cases k with
  | eq kind => cases kind <;> rfl
  | _ => rfl

theorem name_letters (k : ConstraintKind) :
    k.name ≠ "" ∧ ∀ c ∈ k.name.toList, c.isAlpha = true := by
  have hletters : k.name ≠ "" ∧ k.name.toList.all Char.isAlpha = true := by
    cases k with
    | eq kind => cases kind <;> decide
    | _ => decide
  exact ⟨hletters.1, all_eq_true.mp hletters.2⟩

end ConstraintKind

variable {c : Constraint}

namespace Constraint

/-- A constraint on named symbols, with symbols of the right kinds. -/
structure Fits (names : Names) (c : Constraint) : Prop where
  accepted : ofSymbols c.kind c.symbols = .ok c
  named : ∀ s ∈ c.symbols, s ∈ names.symbols

variable {symbols : List Symbol}

/-- The constraint that is made of some symbols has these symbols. -/
theorem ofSymbols_spec {kind : ConstraintKind}
    (h : ofSymbols kind symbols = .ok c) : c.kind = kind ∧ c.symbols = symbols := by
  unfold ofSymbols at h
  split at h
  · cases h
  split at h
  · cases h
  split at h <;> cases h <;> exact ⟨rfl, rfl⟩

/-- What is resolved was named before. -/
theorem named_of_resolve {names : Names} (hnames : names.Paired) :
    ∀ {args : List String} {symbols : List Symbol}, resolve names args = .ok symbols →
      ∀ s ∈ symbols, s ∈ names.symbols := by
  intro args
  induction args with
  | nil =>
    intro symbols h
    cases h
    exact fun s hs => absurd hs not_mem_nil
  | cons name args ih =>
    intro symbols h
    unfold resolve at h
    split at h
    · cases h
    next s hs =>
    obtain ⟨rest, hrest, h⟩ := bind_eq_ok.mp h
    cases h
    have hmem : s ∈ names.symbols := 
      mem_map_of_mem (hnames.symbolOf?_eq_some_iff.mp hs)
    exact forall_mem_cons.mpr ⟨hmem, ih hrest⟩

theorem fits_of_read {names : Names} (hnames : names.Paired) {text : String}
    (h : read names text = .ok c) : c.Fits names := by
  unfold read at h
  obtain ⟨parts, -, h⟩ := bind_eq_ok.mp h
  dsimp only at h
  split at h
  · cases h
  next kind _ =>
  obtain ⟨symbols, hsymbols, h⟩ := bind_eq_ok.mp h
  obtain ⟨hkind, hsame⟩ := ofSymbols_spec h
  refine ⟨?_, fun s hs => named_of_resolve hnames hsymbols s (hsame ▸ hs)⟩
  rw [hkind, hsame]
  exact h

/-- Symbols of the right kinds at their places, all of them named, make a constraint. -/
theorem fits_of_forall₂ {names : Names}
    (h : List.Forall₂ (fun kinds s => s.kind ∈ kinds ∧ s ∈ names.symbols) c.kind.accepted
      c.symbols) : c.Fits names := by
  have hall : ∀ {kinds : List (List SymbolKind)} {symbols : List Symbol} (position : Nat),
      List.Forall₂ (fun kinds s => s.kind ∈ kinds ∧ s ∈ names.symbols) kinds symbols →
        misfit? c.kind position kinds symbols = none ∧ ∀ s ∈ symbols, s ∈ names.symbols := by
    intro kinds symbols position hrel
    induction hrel generalizing position with
    | nil => exact ⟨rfl, fun s hs => absurd hs not_mem_nil⟩
    | cons hs _ ih =>
      obtain ⟨hmisfit, hnamed⟩ := ih (position + 1)
      refine ⟨?_, forall_mem_cons.mpr ⟨hs.2, hnamed⟩⟩
      rw [misfit?, if_pos hs.1]
      exact hmisfit
  obtain ⟨hmisfit, hnamed⟩ := hall 0 h
  refine ⟨?_, hnamed⟩
  unfold ofSymbols
  rw [hmisfit]
  cases c <;> rfl

/-! ### Written form -/

variable {names : Names}

/-- The name of the kind and the labels between parentheses. -/
theorem toList_text (names : Names) (c : Constraint) :
    (c.text names).toList = c.kind.name.toList
      ++ delimited '(' ',' ')' (c.symbols.map fun s => (names.label s).toList) := by
  unfold text
  cases c <;> simp [symbols, delimited]

theorem resolve_labels (hnames : names.Sound)
    (h : ∀ s ∈ symbols, s ∈ names.symbols) :
    resolve names (symbols.map names.label) = .ok symbols := by
  induction symbols with
  | nil => rfl
  | cons s symbols ih =>
    obtain ⟨hs, hrest⟩ := forall_mem_cons.mp h
    rw [map_cons, resolve, hnames.symbolOf?_eq_some_iff.mpr (hnames.mem_entries hs)]
    dsimp only
    rw [ih hrest]
    rfl

theorem exists_symbols (c : Constraint) : ∃ s symbols, c.symbols = s :: symbols := by
  cases c <;> exact ⟨_, _, rfl⟩

/-- Labels between parentheses are read back. -/
theorem listed_labels (hnames : names.Sound)
    (h : ∀ s ∈ symbols, s ∈ names.symbols) :
    Scan.Listed (spaced ',') (word isNameChar) ','
      (fun s => (names.label s).toList) names.label symbols [')'] where
  item_eq s hs more hmore := by
    have hname := hnames.isName _ (hnames.mem_entries (h s hs))
    refine word_eq hname.ne_empty hname.chars ?_
    rcases hmore with rfl | hcomma
    · exact startsOutside_cons rfl []
    · intro c hc
      rw [hcomma] at hc
      cases hc
      rfl
  sep_eq s hs more := by
    have hname := hnames.isName _ (hnames.mem_entries (h s hs))
    exact spaced_eq rfl (startsOutside_name hname.ne_empty hname.chars more)
  finish := ⟨_, spaced_ne rfl (by decide) []⟩

/-- A constraint is scanned back from its text. -/
theorem scan_text (hnames : names.Sound) (h : ∀ s ∈ c.symbols, s ∈ names.symbols) :
    scan (c.text names).toList = .ok ((c.kind.name, c.symbols.map names.label), []) := by
  obtain ⟨hne, hletters⟩ := c.kind.name_letters
  obtain ⟨s, symbols, hsymbols⟩ := c.exists_symbols
  have hchars : ∀ d ∈ c.kind.name.toList, isNameChar d = true := by
    intro d hd
    unfold isNameChar Char.isAlphanum
    rw [hletters d hd, Bool.true_or, Bool.true_or]
  have hname := hnames.isName _ (hnames.mem_entries (h s (hsymbols ▸ mem_cons_self)))
  rw [toList_text]
  rw [hsymbols] at h ⊢
  have hword := word_eq hne hchars (startsOutside_cons (show isNameChar '(' = false
    from rfl) ([','].intercalate ((s :: symbols).map fun s => (names.label s).toList) ++ [')']))
  have hstart : ∀ more, Scan.StartsOutside Text.isSpace ((names.label s).toList ++ more) :=
    startsOutside_name hname.ne_empty hname.chars
  have hlabels := bracketed_eq '(' (listed_labels hnames h) rfl hstart
  exact bind_eq_ok.mpr ⟨_, hword, bind_eq_ok.mpr ⟨_, hlabels, rfl⟩⟩

/-- The written form begins with a letter. -/
theorem startsOutside_text (names : Names) (c : Constraint) {p : Char → Bool}
    (hp : ∀ c, c.isAlpha = true → p c = false) :
    Scan.StartsOutside p (c.text names).toList := by
  obtain ⟨hne, hletters⟩ := c.kind.name_letters
  rw [toList_text]
  refine startsOutside_append ?_ (fun d hd => hp d (hletters d hd)) _
  simpa using hne

/-- A constraint is read back from its written form. -/
theorem read_text (hnames : names.Sound) (h : c.Fits names) :
    read names (c.text names) = .ok c := by
  have hwhole : whole scan (c.text names).toList
      = .ok (c.kind.name, c.symbols.map names.label) :=
    whole_eq (c.startsOutside_text names fun _ => isSpace_of_isAlpha)
      (scan_text hnames h.named)
  unfold read
  rw [hwhole]
  refine bind_eq_ok.mpr ⟨(c.kind.name, c.symbols.map names.label), rfl, ?_⟩
  dsimp only
  rw [ConstraintKind.ofName?_name]
  exact bind_eq_ok.mpr ⟨c.symbols, resolve_labels hnames h.named, h.accepted⟩

end Constraint

/-! ## Where a written rule is split -/

theorem isNameChar_ne {c : Char} (h : isNameChar c = true) : c ≠ '|' ∧ c ≠ ';' := by
  constructor <;> exact fun hc => absurd (hc ▸ h) (by decide)

namespace Scan

variable {ls : List (List Char)}

theorem mem_of_mem_delimited {opening c closing x : Char}
    (h : x ∈ delimited opening c closing ls) :
    x = opening ∨ x = c ∨ x = closing ∨ ∃ l ∈ ls, x ∈ l := by
  cases ls with
  | nil => cases h
  | cons l ls =>
    rw [delimited, mem_cons, mem_append, mem_singleton] at h
    rcases h with h | h | h
    · exact .inl h
    · exact .inr ((mem_of_mem_intercalate h).imp_right .inr)
    · exact .inr (.inr (.inl h))

end Scan

/-- There is no bar in the written form of a template. -/
theorem Template.not_bar {names : Names} (hnames : names.Sound) (t : Template) :
    (∀ s ∈ t.symbols, s ∈ names.symbols) → ∀ c ∈ (t.text names).toList, c ≠ '|' := by
  induction t using induction_operands with
  | h t ih =>
    intro hsymbols c hc
    rw [symbols_eq] at hsymbols
    rw [toList_text, mem_append, mem_append] at hc
    -- A character of the operator, of a name, or of an operand.
    rcases hc with hc | hc | hc
    · have hnames : ∀ op ∈ Operator.all, op.name.toList.all (· ≠ '|') = true := by decide
      have hop := hnames t.operator t.operator.mem_all
      exact of_decide_eq_true (all_eq_true.mp hop c hc)
    · rcases mem_of_mem_delimited hc with rfl | rfl | rfl | ⟨l, hl, hc⟩
      · decide
      · decide
      · decide
      · rw [map_map] at hl
        obtain ⟨s, hs, rfl⟩ := mem_map.mp hl
        have hname := hnames.isName _
          (hnames.mem_entries (hsymbols s (mem_append_right _ hs)))
        exact (isNameChar_ne (hname.chars c hc)).1
    · rcases mem_of_mem_delimited hc with rfl | rfl | rfl | ⟨l, hl, hc⟩
      · decide
      · decide
      · decide
      · obtain ⟨p, hp, rfl⟩ := mem_map.mp hl
        refine ih p hp (fun s hs => hsymbols s ?_) c hc
        exact mem_append_left _ (mem_flatMap.mpr ⟨p, hp, hs⟩)

namespace Constraint

variable {names : Names}

/-- There is no semicolon in the written form of a constraint. -/
theorem not_semicolon (hnames : names.Sound) (h : c.Fits names) :
    ∀ d ∈ (c.text names).toList, d ≠ ';' := by
  intro d hd
  rw [toList_text, mem_append] at hd
  rcases hd with hd | hd
  · have hletter := c.kind.name_letters.2 d hd
    exact fun heq => absurd (heq ▸ hletter) (by decide)
  · rcases mem_of_mem_delimited hd with rfl | rfl | rfl | ⟨l, hl, hd⟩
    · decide
    · decide
    · decide
    · obtain ⟨s, hs, rfl⟩ := mem_map.mp hl
      have hname := hnames.isName _ (hnames.mem_entries (h.named s hs))
      exact (isNameChar_ne (hname.chars d hd)).2

/-- The written form ends with a parenthesis. -/
theorem exists_text_eq (names : Names) (c : Constraint) :
    ∃ cs, (c.text names).toList = cs ++ [')'] := by
  obtain ⟨s, symbols, hsymbols⟩ := c.exists_symbols
  rw [toList_text, hsymbols, map_cons, delimited, ← cons_append,
    ← append_assoc]
  exact ⟨_, rfl⟩

theorem trim_text (names : Names) (c : Constraint) :
    Text.trim (c.text names).toList = (c.text names).toList := by
  refine Text.trim_eq (c.startsOutside_text names fun _ => Text.isBlank_of_isAlpha) ?_
  obtain ⟨cs, htext⟩ := c.exists_text_eq names
  rw [htext, reverse_append]
  exact startsOutside_cons rfl _

theorem text_ne_empty (names : Names) (c : Constraint) : c.text names ≠ "" := by
  obtain ⟨cs, htext⟩ := c.exists_text_eq names
  intro hempty
  rw [hempty] at htext
  exact absurd htext (by simp)

end Constraint

namespace Rule

variable {r : Rule}

theorem scanPart_eq {part : String} (hpart : ∀ c ∈ part.toList, c ≠ '|') (rest : List Char) :
    scanPart (part.toList ++ '|' :: rest) = .ok (part, rest) := by
  have hall : ∀ c ∈ part.toList, decide (c ≠ '|') = true := fun c hc => decide_eq_true (hpart c hc)
  have hbar : Scan.StartsOutside (· ≠ '|') ('|' :: rest) := startsOutside_cons (by decide) rest
  have hfront : (part.toList ++ '|' :: rest).takeWhile (· ≠ '|') = part.toList := by
    rw [takeWhile_append_of_pos hall, takeWhile_of_startsOutside hbar, append_nil]
  have hback : (part.toList ++ '|' :: rest).dropWhile (· ≠ '|') = '|' :: rest := by
    rw [dropWhile_append_of_pos hall, dropWhile_of_startsOutside hbar]
  unfold scanPart
  rw [hfront, hback, char_eq, String.ofList_toList]
  rfl

/-- Items without semicolons are read back. -/
theorem scanItems_eq {items : List String}
    (hitems : ∀ w ∈ items, w ≠ "" ∧ ∀ c ∈ w.toList, c ≠ ';') :
    scanItems ([';'].intercalate (items.map String.toList)) = .ok items := by
  cases items with
  | nil => rfl
  | cons w items =>
    have hlisted : Scan.Listed (char ';') (word (· ≠ ';')) ';' String.toList id
        (w :: items) [] := by
      refine ⟨fun v hv more hmore => ?_, fun v _ more => char_eq _ _, _, rfl⟩
      obtain ⟨hne, hchars⟩ := hitems v hv
      refine word_eq hne (fun c hc => decide_eq_true (hchars c hc)) ?_
      rcases hmore with rfl | hsemicolon
      · exact fun c hc => by cases hc
      · intro c hc
        rw [hsemicolon] at hc
        cases hc
        rfl
    have hread := separated_eq hlisted
    rw [append_nil, map_id] at hread
    unfold scanItems
    rw [hread]
    rfl

/-- What writing a rule and reading it again relies on. -/
structure Named (r : Rule) : Prop where
  source : r.source.WellBound .source
  target : r.target.WellBound .target
  names : r.names.Sound
  symbols : r.names.symbols = r.source.symbols ++ r.target.symbols
  constraints : ∀ c ∈ r.constraints, c.Fits r.names

theorem toList_text (r : Rule) :
    r.text.toList = (r.source.text r.names).toList ++ '|' :: ((r.target.text r.names).toList
      ++ '|' :: [';'].intercalate ((r.constraints.map (·.text r.names)).map String.toList)) := by
  unfold text
  simp

/-- A written rule has no blanks at its ends. -/
theorem trim_text (r : Rule) : Text.trim r.text.toList = r.text.toList := by
  rw [toList_text]
  refine Text.trim_eq (r.source.startsOutside_text r.names (fun _ => Text.isBlank_of_isAlpha) _) ?_
  rw [reverse_append, reverse_cons, reverse_append, reverse_cons]
  -- The last character is the second bar, or the last one of the last constraint.
  cases hconstraints : r.constraints with
  | nil => exact startsOutside_cons rfl _
  | cons c cs =>
    have hend : ∀ l ∈ ((c :: cs).map (·.text r.names)).map String.toList,
        ∃ front, l = front ++ [')'] := by
      intro l hl
      rw [map_map] at hl
      obtain ⟨d, -, rfl⟩ := mem_map.mp hl
      exact d.exists_text_eq r.names
    obtain ⟨front, hfront⟩ :
        ∃ front, [';'].intercalate (((c :: cs).map (·.text r.names)).map String.toList)
          = front ++ [')'] :=
      exists_intercalate_eq hend
    rw [hfront, reverse_append]
    exact startsOutside_cons rfl _

/-- The written form is split where it was put together. -/
theorem split_text (h : r.Named) : split r.text.toList =
    .ok (r.source.text r.names, r.target.text r.names, r.constraints.map (·.text r.names)) := by
  have hsource : ∀ c ∈ (r.source.text r.names).toList, c ≠ '|' := by
    refine r.source.not_bar h.names fun s hs => ?_
    rw [h.symbols]
    exact mem_append_left _ hs
  have htarget : ∀ c ∈ (r.target.text r.names).toList, c ≠ '|' := by
    refine r.target.not_bar h.names fun s hs => ?_
    rw [h.symbols]
    exact mem_append_right _ hs
  have hitems : ∀ w ∈ r.constraints.map (·.text r.names), w ≠ "" ∧ ∀ c ∈ w.toList, c ≠ ';' := by
    intro w hw
    obtain ⟨c, hc, rfl⟩ := mem_map.mp hw
    exact ⟨c.text_ne_empty r.names, Constraint.not_semicolon h.names (h.constraints c hc)⟩
  unfold split
  rw [trim_text, toList_text]
  refine bind_eq_ok.mpr ⟨_, scanPart_eq hsource _, ?_⟩
  refine bind_eq_ok.mpr ⟨_, scanPart_eq htarget _, ?_⟩
  exact bind_eq_ok.mpr ⟨_, scanItems_eq hitems, rfl⟩

/-- No constraint is lost when blanks are trimmed and empty items left out. -/
theorem trimmed_items (names : Names) (constraints : List Constraint) :
    ((constraints.map (·.text names)).map fun item =>
      String.ofList (Text.trim item.toList)).filter (· ≠ "") = constraints.map (·.text names) := by
  have htrim : (constraints.map (·.text names)).map (fun item =>
      String.ofList (Text.trim item.toList)) = constraints.map (·.text names) := by
    rw [map_map]
    apply map_congr_left
    intro c _
    show String.ofList (Text.trim (c.text names).toList) = c.text names
    rw [c.trim_text, String.ofList_toList]
  rw [htrim, filter_eq_self]
  intro w hw
  obtain ⟨c, -, rfl⟩ := mem_map.mp hw
  exact decide_eq_true (c.text_ne_empty names)

theorem readConstraints_text {names : Names} (hnames : names.Sound) {constraints : List Constraint}
    (h : ∀ c ∈ constraints, c.Fits names) :
    readConstraints names (constraints.map (·.text names)) = .ok constraints := by
  induction constraints with
  | nil => rfl
  | cons c constraints ih =>
    obtain ⟨hc, hrest⟩ := forall_mem_cons.mp h
    refine bind_eq_ok.mpr ⟨c, Constraint.read_text hnames hc, ?_⟩
    exact bind_eq_ok.mpr ⟨constraints, ih hrest, rfl⟩

/-- Two rules with the same templates, the same constraints in the same order, and the same symbols
with the same names. -/
structure SameAs (r r' : Rule) : Prop where
  source : r.source = r'.source
  target : r.target = r'.target
  constraints : r.constraints = r'.constraints
  names : r.names.entries = r'.names.entries
  owners : r.names.owners = r'.names.owners

/-- The written form depends on the names only. -/
theorem SameAs.text {r r' : Rule} (h : r.SameAs r') : r.text = r'.text := by
  have hlabel := Names.label_congr h.names
  unfold Rule.text
  rw [h.source, h.target, h.constraints, text_congr hlabel, text_congr hlabel,
    map_congr_left fun c _ => Constraint.text_congr hlabel c]

/-- The written form of a rule is read as the same rule. -/
theorem exists_read_text (h : r.Named) : ∃ r', read r.text = .ok r' ∧ r'.SameAs r := by
  have hentries : r.names.entries = r.source.symbols.map (fun s => (s, r.names.label s))
      ++ r.target.symbols.map fun s => (s, r.names.label s) := by
    rw [← map_append, ← h.symbols]
    exact h.names.entries_eq
  obtain ⟨first, hsource, hpaired, hfirst⟩ : ∃ first, Template.read (r.source.text r.names) .source
      Names.empty = (.ok r.source, first) ∧ first.Paired ∧
      first.entries = r.source.symbols.map fun s => (s, r.names.label s) := by
    apply Template.read_text h.names h.source Names.paired_empty
    rw [hentries]
    exact prefix_append _ _
  -- The target is read with the names of the source in place.
  obtain ⟨names, htarget, hpaired', hnames⟩ : ∃ names, Template.read (r.target.text r.names) .target
      first = (.ok r.target, names) ∧ names.Paired ∧ names.entries = r.names.entries := by
    rw [hentries, ← hfirst]
    apply Template.read_text h.names h.target hpaired
    rw [hentries, hfirst]
  have hlabel := Names.label_congr hnames
  have hconstraints : readConstraints names (r.constraints.map (·.text r.names))
      = .ok r.constraints := by
    rw [← map_congr_left fun c _ => Constraint.text_congr hlabel c]
    refine readConstraints_text (h.names.of_entries hpaired' hnames) fun c hc => ?_
    refine ⟨(h.constraints c hc).accepted, fun s hs => ?_⟩
    unfold Names.symbols
    rw [hnames]
    exact (h.constraints c hc).named s hs
  have howners : names.owners = r.names.owners := by
    rw [hpaired'.synced, h.names.synced, hnames]
  refine ⟨⟨r.source, r.target, r.constraints, names⟩, ?_, rfl, rfl, rfl, hnames, howners⟩
  unfold read
  rw [split_text h]
  refine bind_eq_ok.mpr ⟨_, rfl, ?_⟩
  dsimp only
  rw [hsource]
  refine bind_eq_ok.mpr ⟨r.source, rfl, ?_⟩
  dsimp only
  rw [htarget]
  refine bind_eq_ok.mpr ⟨r.target, rfl, ?_⟩
  dsimp only
  rw [trimmed_items, hconstraints]
  rfl

/-! ## Rules that were read -/

/-- Two templates that were read one after the other into one table of names. -/
theorem named_of_reads {source target : String} {s t : Template} {first names : Names}
    (hsource : Template.read source .source Names.empty = (.ok s, first))
    (htarget : Template.read target .target first = (.ok t, names)) :
    s.WellBound .source ∧ t.WellBound .target ∧ names.Sound ∧
      names.symbols = s.symbols ++ t.symbols := by
  have hs := Template.wellBound_of_read hsource
  obtain ⟨hfirst, hsymbols⟩ := Template.names_of_read Names.sound_empty
    (fun s hs => absurd hs not_mem_nil) hsource
  have hother : ∀ x ∈ first.symbols, x.side ≠ .target := by
    intro x hx
    rw [hsymbols] at hx
    rw [hs.numbers.sides x hx]
    decide
  obtain ⟨hnames, hboth⟩ := Template.names_of_read hfirst hother htarget
  rw [hsymbols] at hboth
  exact ⟨hs, Template.wellBound_of_read htarget, hnames, hboth⟩

theorem fits_of_readConstraints {names : Names} (hnames : names.Paired) :
    ∀ {items : List String} {constraints : List Constraint},
      readConstraints names items = .ok constraints → ∀ c ∈ constraints, c.Fits names := by
  intro items
  induction items with
  | nil =>
    intro constraints h
    cases h
    exact fun c hc => absurd hc not_mem_nil
  | cons item items ih =>
    intro constraints h
    obtain ⟨c, hc, h⟩ := bind_eq_ok.mp h
    obtain ⟨rest, hrest, h⟩ := bind_eq_ok.mp h
    cases h
    exact forall_mem_cons.mpr ⟨Constraint.fits_of_read hnames hc, ih hrest⟩

/-- A rule that was read has a name for each of its symbols. -/
theorem named_of_read {text : String} (h : read text = .ok r) : r.Named := by
  unfold read at h
  obtain ⟨parts, -, h⟩ := bind_eq_ok.mp h
  dsimp only at h
  rcases hsource : Template.read parts.1 .source Names.empty with ⟨source, first⟩
  rw [hsource] at h
  obtain ⟨s, hs, h⟩ := bind_eq_ok.mp h
  obtain rfl := ok_of_mapError hs
  dsimp only at h
  rcases htarget : Template.read parts.2.1 .target first with ⟨target, names⟩
  rw [htarget] at h
  obtain ⟨t, ht, h⟩ := bind_eq_ok.mp h
  obtain rfl := ok_of_mapError ht
  obtain ⟨constraints, hconstraints, h⟩ := bind_eq_ok.mp h
  cases h
  obtain ⟨hwellSource, hwellTarget, hnames, hsymbols⟩ := named_of_reads hsource htarget
  exact ⟨hwellSource, hwellTarget, hnames, hsymbols,
    fits_of_readConstraints hnames.toPaired (ok_of_mapError hconstraints)⟩

end Rule

/-! ## Rules of a catalog -/

namespace Catalog

variable {catalog : Catalog}

/-- A constraint of a catalog is on symbols of the two templates, of the right kinds. -/
theorem fits_of_mem_entries (h : catalog.WellBound)
    (hsymbols : catalog.names.symbols = catalog.source.symbols ++ catalog.target.symbols)
    {e : Constraint} (he : e ∈ catalog.entries) : e.Fits catalog.names := by
  have hsource : ∀ {kind : SymbolKind} {s : Symbol}, s ∈ catalog.source.symbolsOf kind →
      s.kind ∈ [kind] ∧ s ∈ catalog.names.symbols := by
    intro kind s hs
    rw [hsymbols]
    exact ⟨mem_singleton.mpr (kind_of_mem_symbolsOf hs),
      mem_append_left _ (mem_of_mem_filter hs)⟩
  have htarget : ∀ {kind : SymbolKind} {s : Symbol}, s ∈ catalog.target.symbolsOf kind →
      s.kind ∈ [kind] ∧ s ∈ catalog.names.symbols := by
    intro kind s hs
    rw [hsymbols]
    exact ⟨mem_singleton.mpr (kind_of_mem_symbolsOf hs),
      mem_append_right _ (mem_of_mem_filter hs)⟩
  have htable : ∀ {a t : Symbol}, t ∈ catalog.tableSources a →
      t.kind ∈ [SymbolKind.table] ∧ t ∈ catalog.names.symbols := by
    intro a t ht
    obtain ⟨hviable, hkind⟩ := mem_filter.mp ht
    exact ⟨mem_singleton.mpr (of_decide_eq_true hkind),
      (hsource (h.source.mem_of_mem_viableSources hviable).1).2⟩
  -- The block tells the kinds of the symbols.
  rw [Catalog.entries_eq_blocks] at he
  obtain ⟨b, -, he⟩ := mem_flatMap.mp he
  cases b with
  | attrsSub =>
    obtain ⟨a, ha, he⟩ := mem_flatMap.mp he
    obtain ⟨s, hs, rfl⟩ := mem_map.mp he
    obtain ⟨hmem, hpred⟩ := h.source.mem_of_mem_viableSources hs
    have hkinds : s.kind ∈ [SymbolKind.table, .attrs] := by
      cases hkind : s.kind with
      | table | attrs => decide
      | pred => exact absurd hkind hpred
    exact Constraint.fits_of_forall₂ (.cons (hsource ha) (.cons ⟨hkinds, (hsource hmem).2⟩ .nil))
  | eq kind =>
    obtain ⟨⟨a, b⟩, hpair, rfl⟩ := mem_map.mp he
    have hsub := (Catalog.mem_pairs_iff.mp hpair).subset
    have ha := hsource (hsub mem_cons_self)
    have hb := hsource (hsub (mem_cons_of_mem _ mem_cons_self))
    exact Constraint.fits_of_forall₂ (.cons ha (.cons hb .nil))
  | copies kind =>
    obtain ⟨b, hb, he⟩ := mem_flatMap.mp he
    obtain ⟨a, ha, rfl⟩ := mem_map.mp he
    exact Constraint.fits_of_forall₂ (.cons (hsource ha) (.cons (htarget hb) .nil))
  | unique | notNull =>
    obtain ⟨a, ha, he⟩ := mem_flatMap.mp he
    obtain ⟨t, ht, rfl⟩ := mem_map.mp he
    exact Constraint.fits_of_forall₂ (.cons (htable ht) (.cons (hsource ha) .nil))
  | reference =>
    obtain ⟨a, ha, he⟩ := mem_flatMap.mp he
    obtain ⟨b, hb, he⟩ := mem_flatMap.mp he
    split at he
    · cases he
    obtain ⟨t, ht, he⟩ := mem_flatMap.mp he
    obtain ⟨u, hu, rfl⟩ := mem_map.mp he
    exact Constraint.fits_of_forall₂
      (.cons (htable ht) (.cons (hsource ha) (.cons (htable hu) (.cons (hsource hb) .nil))))

theorem named_rule {p : TemplatePair} (h : p.catalog = .ok catalog) (flags : Assignment) :
    (catalog.rule flags).Named := by
  have hwell := TemplatePair.wellBound h
  unfold TemplatePair.catalog at h
  rcases hsource : Template.read p.source .source Names.empty with ⟨source, first⟩
  rw [hsource] at h
  obtain ⟨s, hs, hrest⟩ := bind_eq_ok.mp h
  cases hs
  rcases htarget : Template.read p.target .target first with ⟨target, names⟩
  rw [htarget] at hrest
  obtain ⟨t, ht, hcatalog⟩ := bind_eq_ok.mp hrest
  cases ht
  cases hcatalog
  obtain ⟨hwellSource, hwellTarget, hnames, hsymbols⟩ := Rule.named_of_reads hsource htarget
  exact ⟨hwellSource, hwellTarget, hnames, hsymbols,
    fun c hc => fits_of_mem_entries hwell hsymbols (mem_entries_of_mem_chosen hc)⟩

end Catalog

/-! ## Writing and reading -/

/-- A rule that was read, and a rule that a catalog of two templates describes, is read again from
its written form: the same templates, so the operators at the same places and the same sources of
attribute lists, the same constraints in the same order, and the same symbols with the same names.
The rule that is read has the same written form. -/
theorem Rule.read_written :
    (∀ (text : String) (r : Rule), Rule.read text = .ok r →
      ∃ r', Rule.read r.text = .ok r' ∧ r'.SameAs r ∧ r'.text = r.text) ∧
    ∀ (p : TemplatePair) (catalog : Catalog) (flags : Assignment), p.catalog = .ok catalog →
      ∃ r', Rule.read (catalog.rule flags).text = .ok r' ∧ r'.SameAs (catalog.rule flags) ∧
        r'.text = (catalog.rule flags).text := by
  have hnamed : ∀ r : Rule, r.Named →
      ∃ r', Rule.read r.text = .ok r' ∧ r'.SameAs r ∧ r'.text = r.text := by
    intro r h
    obtain ⟨r', hread, hsame⟩ := Rule.exists_read_text h
    exact ⟨r', hread, hsame, hsame.text⟩
  exact ⟨fun _ r h => hnamed r (Rule.named_of_read h),
    fun _ catalog flags h => hnamed _ (Catalog.named_rule h flags)⟩

/-- Names and operands are left out, blanks and a second spelling are used: the rule is written in
full, and read as the same rule. -/
theorem Rule.read_written_abbreviated :
    (∃ r r', Rule.read " Proj|Filter<p5,a3>|PickSub( a0 , t0 ) ; ;TableEq(t0,t1)" = .ok r ∧
      Rule.read r.text = .ok r' ∧ r'.SameAs r ∧
      r'.text = "Proj<a0>(Input<t0>)|Filter<p5 a3>(Input<t1>)|AttrsSub(a0,t0);TableEq(t0,t1)") ∧
    ∃ catalog r', (⟨"InnerJoin", "Union*(Input<t9>,Proj)"⟩ : TemplatePair).catalog = .ok catalog ∧
      Rule.read (catalog.rule [true, false, false, true]).text = .ok r' ∧
      r'.SameAs (catalog.rule [true, false, false, true]) ∧
      r'.text = "InnerJoin<a0 a1>(Input<t0>,Input<t1>)|Union*(Input<t9>,Proj<a2>(Input<t10>))|"
        ++ "AttrsSub(a0,t0);TableEq(t0,t9)" := by
  constructor
  · have hsome : (Rule.read " Proj|Filter<p5,a3>|PickSub( a0 , t0 ) ; ;TableEq(t0,t1)").toOption.any
        (fun r => r.text =
          "Proj<a0>(Input<t0>)|Filter<p5 a3>(Input<t1>)|AttrsSub(a0,t0);TableEq(t0,t1)") := by
      decide +kernel
    obtain ⟨r, hread, htext⟩ := exists_ok_of_any hsome
    obtain ⟨r', hagain, hsame, htext'⟩ := Rule.read_written.1 _ r hread
    exact ⟨r, r', hread, hagain, hsame, htext'.trans (of_decide_eq_true htext)⟩
  · have hsome : (⟨"InnerJoin", "Union*(Input<t9>,Proj)"⟩ : TemplatePair).catalog.toOption.any
        (fun catalog => (catalog.rule [true, false, false, true]).text =
          "InnerJoin<a0 a1>(Input<t0>,Input<t1>)|Union*(Input<t9>,Proj<a2>(Input<t10>))|"
            ++ "AttrsSub(a0,t0);TableEq(t0,t9)") := by
      decide +kernel
    obtain ⟨catalog, hread, htext⟩ := exists_ok_of_any hsome
    obtain ⟨r', hagain, hsame, htext'⟩ :=
      Rule.read_written.2 _ catalog [true, false, false, true] hread
    exact ⟨catalog, r', hread, hagain, hsame, htext'.trans (of_decide_eq_true htext)⟩

end QueryRules
