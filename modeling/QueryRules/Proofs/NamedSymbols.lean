import Mathlib.Data.Prod.Basic
import QueryRules.Proofs.BoundTemplates
import QueryRules.Proofs.Freshness
import QueryRules.Proofs.Scanning

/-!
# QueryRules — the names of symbols

Reading templates gives every symbol a name of its own, in the order in which the symbols are bound,
whether the name is written down or made up.
-/

namespace QueryRules

open List Scan

/-! ## Names that are free -/

/-- A name that can be read as the name of a symbol of a kind. -/
structure IsName (kind : SymbolKind) (name : String) : Prop where
  first : name.toList.head? = some kind.letter
  chars : ∀ c ∈ name.toList, isNameChar c = true

variable {kind : SymbolKind}

theorem IsName.ne_empty {name : String} (h : IsName kind name) : name ≠ "" := by
  intro hname
  have hfirst := h.first
  rw [hname] at hfirst
  cases hfirst

namespace Names

variable {n n' : Names} {s : Symbol} {name : String}

/-- The symbols that have names, in the order in which they got them. -/
def symbols (n : Names) : List Symbol :=
  n.entries.map Prod.fst

/-- The names that are taken. -/
def taken (n : Names) : List String :=
  n.entries.map Prod.snd

/-- The two tables of names say the same, no symbol has two names and no name two symbols, and names
begin with the letter of the kind. -/
structure Paired (n : Names) : Prop where
  synced : n.owners = n.entries.map Prod.swap
  symbols_nodup : n.symbols.Nodup
  taken_nodup : n.taken.Nodup
  first : ∀ e ∈ n.entries, e.2.toList.head? = some e.1.kind.letter

/-- Tables that belong together, with names that can be read. -/
structure Sound (n : Names) : Prop extends n.Paired where
  chars : ∀ e ∈ n.entries, ∀ c ∈ e.2.toList, isNameChar c = true

theorem paired_empty : empty.Paired :=
  ⟨rfl, nodup_nil, nodup_nil, fun _ h => absurd h not_mem_nil⟩

theorem sound_empty : empty.Sound :=
  ⟨paired_empty, fun _ h => absurd h not_mem_nil⟩

theorem Sound.isName (h : n.Sound) (e : Symbol × String) (he : e ∈ n.entries) :
    IsName e.1.kind e.2 :=
  ⟨h.first e he, h.chars e he⟩

/-! ### Looking up -/

theorem nameOf?_eq_none_iff : n.nameOf? s = none ↔ s ∉ n.symbols :=
  lookup_eq_none_iff_not_mem

namespace Paired

theorem map_owners (h : n.Paired) : n.owners.map Prod.fst = n.taken := by
  rw [h.synced, map_map]
  rfl

theorem nameOf?_eq_some_iff (h : n.Paired) : n.nameOf? s = some name ↔ (s, name) ∈ n.entries :=
  lookup_eq_some_iff_mem h.symbols_nodup

theorem symbolOf?_eq_none_iff (h : n.Paired) : n.symbolOf? name = none ↔ name ∉ n.taken := by
  rw [← h.map_owners]
  exact lookup_eq_none_iff_not_mem

theorem symbolOf?_eq_some_iff (h : n.Paired) :
    n.symbolOf? name = some s ↔ (s, name) ∈ n.entries := by
  have hkeys : (n.owners.map Prod.fst).Nodup := h.map_owners ▸ h.taken_nodup
  refine (lookup_eq_some_iff_mem hkeys).trans ?_
  rw [h.synced]
  exact mem_map_of_injective (a := (s, name)) Prod.swap_injective

theorem label (h : n.Paired) (hmem : (s, name) ∈ n.entries) : n.label s = name := by
  unfold Names.label
  rw [h.nameOf?_eq_some_iff.mpr hmem, Option.getD_some]

/-- The entry of a named symbol. -/
theorem mem_entries (h : n.Paired) (hs : s ∈ n.symbols) : (s, n.label s) ∈ n.entries := by
  obtain ⟨e, he, rfl⟩ := mem_map.mp hs
  rw [h.label (show (e.1, e.2) ∈ n.entries from he)]
  exact he

/-- The table of names lists every symbol with its label. -/
theorem entries_eq (h : n.Paired) : n.entries = n.symbols.map fun s => (s, n.label s) := by
  unfold symbols
  rw [map_map]
  conv_lhs => rw [← map_id n.entries]
  apply map_congr_left
  intro e he
  have hlabel := h.label (show (e.1, e.2) ∈ n.entries from he)
  exact (Prod.ext rfl hlabel.symm : e = (e.1, n.label e.1))

/-- Without the name of a symbol, the table of symbols is the table of names without the symbol. -/
theorem without_owners (h : n.Paired) (hs : (s, name) ∈ n.entries) :
    without n.owners name = (without n.entries s).map Prod.swap := by
  unfold without
  rw [h.synced, filter_map]
  refine congrArg _ (filter_congr fun e he => decide_eq_decide.mpr (not_congr ?_))
  constructor
  · intro heq
    exact congrArg Prod.fst (inj_on_of_nodup_map h.taken_nodup he hs heq)
  · intro heq
    exact congrArg Prod.snd (inj_on_of_nodup_map h.symbols_nodup he hs heq)

end Paired

/-! ### Entering a name -/

theorem without_of_not_mem {α β : Type} [DecidableEq α] {table : List (α × β)} {key : α}
    (h : key ∉ table.map Prod.fst) : without table key = table := by
  refine filter_eq_self.mpr fun e he => decide_eq_true fun heq => h ?_
  rw [← heq]
  exact mem_map_of_mem he

/-- The second table is the first one with a free name for a symbol, in place of the one that it may
have had, and the running number of the kind is ahead of the name. -/
structure Binds (n : Names) (s : Symbol) (name : String) (n' : Names) : Prop where
  eq : n' = (n.keepAhead s.kind name).enter s name
  free : name ∉ n.taken
  first : name.toList.head? = some s.kind.letter

theorem tables_setNext (n : Names) (kind : SymbolKind) (k : UInt32) :
    (n.setNext kind k).entries = n.entries ∧ (n.setNext kind k).owners = n.owners := by
  cases kind <;> exact ⟨rfl, rfl⟩

theorem tables_keepAhead (n : Names) (kind : SymbolKind) (name : String) :
    (n.keepAhead kind name).entries = n.entries ∧ (n.keepAhead kind name).owners = n.owners := by
  unfold keepAhead
  split
  · exact n.tables_setNext _ _
  · exact ⟨rfl, rfl⟩

theorem Binds.entries (hb : n.Binds s name n') : n'.entries = put n.entries s name := by
  rw [hb.eq]
  unfold enter
  dsimp only
  rw [(n.tables_keepAhead _ _).1]

theorem Binds.owners (hb : n.Binds s name n') : n'.owners = (n.enter s name).owners := by
  rw [hb.eq]
  unfold enter nameOf?
  dsimp only
  rw [(n.tables_keepAhead _ _).1, (n.tables_keepAhead _ _).2]

/-- **The two tables stay together** when a free name is entered. -/
theorem Paired.binds (h : n.Paired) (hb : n.Binds s name n') : n'.Paired where
  synced := by
    have hrest : ∀ old, n.nameOf? s = some old →
        without n.owners old = (without n.entries s).map Prod.swap := fun old hold =>
      h.without_owners (h.nameOf?_eq_some_iff.mp hold)
    have hfree : name ∉ ((without n.entries s).map Prod.swap).map Prod.fst := by
      intro hmem
      have hkept : (without n.entries s).map Prod.snd ⊆ n.taken :=
        (filter_sublist.map Prod.snd).subset
      rw [map_map] at hmem
      exact hb.free (hkept hmem)
    rw [hb.owners, hb.entries]
    unfold enter put
    dsimp only
    rw [map_append]
    cases hold : n.nameOf? s with
    | some old =>
      dsimp only
      rw [hrest old hold, without_of_not_mem hfree]
      rfl
    | none =>
      -- A symbol without a name leaves nothing behind in the table of symbols.
      have hs : without n.entries s = n.entries :=
        without_of_not_mem (nameOf?_eq_none_iff.mp hold)
      rw [hs] at hfree ⊢
      dsimp only
      rw [h.synced, without_of_not_mem hfree]
      rfl
  symbols_nodup := by
    unfold symbols
    rw [hb.entries, put, map_append]
    refine nodup_append_comm.mp (nodup_cons.mpr ⟨by simp [without], ?_⟩)
    exact (filter_sublist.map Prod.fst).nodup h.symbols_nodup
  taken_nodup := by
    unfold taken
    rw [hb.entries, put, map_append]
    have hkept : ((without n.entries s).map Prod.snd).Sublist n.taken :=
      filter_sublist.map Prod.snd
    exact nodup_append_comm.mp (nodup_cons.mpr
      ⟨fun hmem => hb.free (hkept.subset hmem), hkept.nodup h.taken_nodup⟩)
  first e he := by
    rw [hb.entries] at he
    rcases mem_append.mp he with he | he
    · exact h.first e (mem_of_mem_filter he)
    · rw [mem_singleton.mp he]
      exact hb.first

theorem Binds.entries_of_new (hb : n.Binds s name n') (hs : s ∉ n.symbols) :
    n'.entries = n.entries ++ [(s, name)] := by
  rw [hb.entries, put, without_of_not_mem hs]

theorem Binds.symbols_of_new (hb : n.Binds s name n') (hs : s ∉ n.symbols) :
    n'.symbols = n.symbols ++ [s] := by
  unfold symbols
  rw [hb.entries_of_new hs, map_append]
  rfl

theorem Sound.binds (h : n.Sound) (hb : n.Binds s name n')
    (hchars : ∀ c ∈ name.toList, isNameChar c = true) : n'.Sound where
  toPaired := h.toPaired.binds hb
  chars e he := by
    rw [hb.entries] at he
    rcases mem_append.mp he with he | he
    · exact h.chars e (mem_of_mem_filter he)
    · rw [mem_singleton.mp he]
      exact hchars

/-! ### Giving names -/

/-- **What giving a name can do**: it is refused, the symbol has it, or it is free and takes the
place of the old one. -/
theorem set_cases (h : n.Paired) (s : Symbol) (name : String) :
    (∃ e, n.set s name = (.error e, n)) ∨
    (n.symbolOf? name = some s ∧ n.set s name = (.ok (), n)) ∨
    ∃ n', n.set s name = (.ok (), n') ∧ n.Binds s name n' := by
  unfold set
  split
  · exact .inl ⟨_, rfl⟩
  next hfirst =>
  split
  next t hfound =>
    split
    next heq => exact .inr (.inl ⟨heq ▸ hfound, rfl⟩)
    · exact .inl ⟨_, rfl⟩
  next hfree =>
    exact .inr (.inr ⟨_, rfl, rfl, h.symbolOf?_eq_none_iff.mp hfree, not_not.mp hfirst⟩)

/-- A free name with the right letter can be given. -/
theorem set_eq (h : n.Paired) (hfirst : name.toList.head? = some s.kind.letter)
    (hfree : name ∉ n.taken) : ∃ n', n.set s name = (.ok (), n') ∧ n.Binds s name n' := by
  unfold set
  rw [if_neg (not_not_intro hfirst), h.symbolOf?_eq_none_iff.mpr hfree]
  exact ⟨_, rfl, rfl, hfree, hfirst⟩

/-- A numbered name is a name of its kind. -/
theorem isName_numbered (kind : SymbolKind) (k : Nat) : IsName kind (numbered kind k) where
  first := by
    unfold numbered
    rw [String.toList_append]
    cases kind <;> rfl
  chars c hc := by
    unfold numbered at hc
    rw [String.toList_append, mem_append] at hc
    rcases hc with hc | hc
    · have hletter : c = kind.letter := by simpa using hc
      rw [hletter]
      cases kind <;> decide
    · have hdigit : c.isDigit = true := by
        rw [Nat.toList_repr] at hc
        exact Nat.isDigit_of_mem_toDigits (by decide) (by decide) hc
      unfold isNameChar Char.isAlphanum
      rw [hdigit, Bool.or_true, Bool.true_or]

/-- A number that is found has a free name, and the running number could be counted on behind it. -/
theorem firstFree?_spec {room : Nat} : ∀ {k j : Nat},
    n.firstFree? kind room k = some j →
      k ≤ j ∧ j < k + room ∧ n.symbolOf? (numbered kind j) = none := by
  induction room with
  | zero =>
    intro k j h
    cases h
  | succ room ih =>
    intro k j h
    rw [firstFree?] at h
    split at h
    · obtain ⟨hle, hlt, hfree⟩ := ih h
      exact ⟨by omega, by omega, hfree⟩
    next hfree =>
      cases h
      exact ⟨Nat.le_refl k, by omega, by simpa using hfree⟩

/-- The number of a name that was made up can be read off it. -/
theorem number?_numbered (kind : SymbolKind) {k : Nat} (h : k < UInt32.size) :
    number? (numbered kind k) = some k := by
  have hdrop : (numbered kind k).toList.drop 1 = Nat.toDigits 10 k := by
    unfold numbered
    rw [String.toList_append, Nat.toList_repr]
    cases kind <;> rfl
  have hdigit : ∀ c ∈ Nat.toDigits 10 k, c.isDigit = true := fun c hc =>
    Nat.isDigit_of_mem_toDigits (by decide) (by decide) hc
  have hread : Text.readDigits? (Nat.toDigits 10 k) = some k := by
    unfold Text.readDigits?
    rw [if_neg (by simp), if_pos (all_eq_true.mpr hdigit)]
    exact congrArg some (Nat.ofDigitChars_toDigits (by decide) (by decide))
  unfold number? Text.readNat?
  rw [hdrop]
  split
  · -- No digit is a sign.
    next rest hcs =>
    rw [hcs] at hdigit
    exact absurd (hdigit '+' mem_cons_self) (by decide)
  · simp only [hread, Option.bind_eq_bind, Option.bind_some, if_pos h]

/-- The running number is kept ahead of a name that was made up like of a given one. -/
theorem keepAhead_numbered {k : Nat} (hle : (n.next kind).toNat ≤ k)
    (hlt : k + 1 < UInt32.size) :
    n.keepAhead kind (numbered kind k) = n.setNext kind (.ofNat (k + 1)) := by
  have hmax : max (n.next kind) (after k) = .ofNat (k + 1) := by
    apply UInt32.toNat_inj.mp
    rw [UInt32.toNat_max, after]
    simp only [UInt32.toNat_ofNat', UInt32.size] at hlt ⊢
    omega
  unfold keepAhead
  rw [number?_numbered kind (Nat.lt_of_succ_lt hlt)]
  dsimp only
  rw [hmax]

/-- **What asking for a name can do**: the symbol has one, the running number is exhausted, or a
name with a number that can be counted on goes to the symbol. -/
theorem assign_cases (h : n.Paired) (s : Symbol) :
    (∃ name, n.nameOf? s = some name ∧ n.assign s = some (name, n)) ∨
    (n.nameOf? s = none ∧ n.assign s = none) ∨
    ∃ k n', n.nameOf? s = none ∧ n.assign s = some (numbered s.kind k, n') ∧
      n.Binds s (numbered s.kind k) n' ∧ (n.next s.kind).toNat ≤ k ∧ k + 1 < UInt32.size := by
  unfold assign
  cases hs : n.nameOf? s with
  | some name => exact .inl ⟨name, rfl, rfl⟩
  | none =>
    refine .inr ?_
    dsimp only
    cases hfound : n.firstFree? s.kind (UInt32.size - 1 - (n.next s.kind).toNat)
        (n.next s.kind).toNat with
    | none => exact .inl ⟨rfl, rfl⟩
    | some k =>
      obtain ⟨hle, hroom, hfree⟩ := firstFree?_spec hfound
      have hlt : k + 1 < UInt32.size := by
        have hstart := (n.next s.kind).toNat_lt
        rw [UInt32.size] at hroom ⊢
        omega
      refine .inr ⟨k, _, rfl, rfl, ⟨?_, h.symbolOf?_eq_none_iff.mp hfree,
        (isName_numbered _ _).first⟩, hle, hlt⟩
      rw [keepAhead_numbered hle hlt]

/-- A new symbol takes a free name, which is made up or read from a text. -/
theorem Sound.takes (h : n.Sound) (hs : s ∉ n.symbols) {name : Option String}
    (hname : ∀ w ∈ name, ∀ c ∈ w.toList, isNameChar c = true) (htakes : n.Takes s name n') :
    n'.Sound ∧ n'.symbols = n.symbols ++ [s] := by
  have hnone := nameOf?_eq_none_iff.mpr hs
  cases name with
  | none =>
    obtain ⟨name, hassign⟩ := htakes
    obtain ⟨_, hsome, -⟩ | ⟨-, hstop⟩ | ⟨k, n'', -, heq, hb, -⟩ := assign_cases h.toPaired s
    · rw [hnone] at hsome
      cases hsome
    · rw [hassign] at hstop
      cases hstop
    · obtain ⟨-, rfl⟩ := Prod.mk.inj (Option.some.inj (hassign.symm.trans heq))
      exact ⟨h.binds hb (isName_numbered _ _).chars, hb.symbols_of_new hs⟩
  | some name =>
    have hset : n.set s name = (.ok (), n') := htakes
    obtain ⟨e, heq⟩ | ⟨hfound, -⟩ | ⟨n'', heq, hb⟩ := set_cases h.toPaired s name
    · rw [hset] at heq
      cases heq
    · exact absurd (mem_map_of_mem (h.symbolOf?_eq_some_iff.mp hfound)) hs
    · obtain ⟨-, rfl⟩ := Prod.mk.inj (hset.symm.trans heq)
      exact ⟨h.binds hb (hname name rfl), hb.symbols_of_new hs⟩

end Names

/-! ## Sketches -/

/-- Every name in a sketch is a word of name characters. -/
inductive Sketch.Spelled : Sketch → Prop where
  | node {op : String} {names : List String} {operands : List Sketch}
      (names_chars : ∀ name ∈ names, ∀ c ∈ name.toList, isNameChar c = true)
      (operands_spelled : ∀ s ∈ operands, s.Spelled) : Spelled (.node op names operands)

namespace Sketch

theorem scanNames_chars {cs rest : List Char} {names : List String}
    (h : scanNames cs = .ok (names, rest)) {name : String} (hname : name ∈ names) :
    ∀ c ∈ name.toList, isNameChar c = true := by
  obtain ⟨_, _, hword⟩ := mem_of_bracketed h hname
  exact (word_spec hword).2

/-- What may be left out is either left out or read. -/
theorem optional_cases {α : Type} (item : Scan α) (cs : List Char) :
    (optional item cs).1 = none ∨
      ∃ a rest, (Scan.optional item cs).1 = some a ∧ item cs = .ok (a, rest) := by
  unfold Scan.optional
  split
  next a rest hitem => exact .inr ⟨a, rest, rfl, hitem⟩
  · exact .inl rfl

/-- An operator with what is written of its names and its operands. -/
theorem scan_succ (depth : Nat) (cs : List Char) :
    scan (depth + 1) cs = (scanOperator cs).map fun op =>
      let names := optional scanNames op.2
      let operands :=
        optional (bracketed '(' ')' (spaced ',') (scan depth)) names.2
      (.node op.1 (names.1.getD []) (operands.1.getD []), operands.2) := by
  rw [scan]
  cases scanOperator cs <;> rfl

/-- A template that was scanned has names made of name characters. -/
theorem spelled_of_scan {depth : Nat} {cs rest : List Char} {sketch : Sketch}
    (h : scan depth cs = .ok (sketch, rest)) : sketch.Spelled := by
  induction depth generalizing cs rest sketch with
  | zero => cases h
  | succ depth ih =>
    rw [scan_succ] at h
    cases hop : scanOperator cs with
    | error e =>
      rw [hop] at h
      cases h
    | ok op =>
      rw [hop] at h
      obtain ⟨rfl, -⟩ := Prod.mk.inj (Except.ok.inj h)
      -- Names and operands may both be left out.
      refine .node (fun name hname => ?_) fun s hs => ?_
      · rcases optional_cases scanNames op.2 with hnone | ⟨names, rest, hsome, hscan⟩
        · rw [hnone] at hname
          cases hname
        · rw [hsome] at hname
          exact scanNames_chars hscan hname
      · rcases optional_cases (bracketed '(' ')' (spaced ',') (scan depth))
            (optional scanNames op.2).2 with hnone | ⟨operands, rest, hsome, hscan⟩
        · rw [hnone] at hs
          cases hs
        · rw [hsome] at hs
          obtain ⟨_, _, hoperand⟩ := mem_of_bracketed hscan hs
          exact ih hoperand

theorem spelled_of_ofText {text : List Char} {sketch : Sketch} (h : ofText text = .ok sketch) :
    sketch.Spelled := by
  unfold ofText whole at h
  cases hscan : scan (text.length + 1) (skipSpaces text) with
  | error e =>
    rw [hscan] at h
    cases h
  | ok read =>
    rw [hscan] at h
    have hspelled := spelled_of_scan hscan
    change (finish (skipSpaces read.2) >>= fun _ => pure read.1) = .ok sketch at h
    cases hfinish : finish (skipSpaces read.2) with
    | error e =>
      rw [hfinish] at h
      cases h
    | ok _ =>
      rw [hfinish] at h
      cases h
      exact hspelled

end Sketch

/-! ## Binding -/

/-- While symbols of a side are bound, the next number is not used yet. -/
structure Binding.Sound (side : Side) (b : Binding) : Prop where
  names : b.names.Sound
  below : ∀ s ∈ b.names.symbols, s.side = side → s.id < b.bound

/-- Binding some symbols adds them to the table of names. -/
structure Binding.Named (side : Side) (symbols : List Symbol) (b b' : Binding) : Prop where
  sound : b'.Sound side
  symbols_eq : b'.names.symbols = b.names.symbols ++ symbols

namespace Template

variable {side : Side}

theorem names_nil {b : Binding} (h : b.Sound side) : Binding.Named side [] b b :=
  ⟨h, (append_nil _).symm⟩

theorem names_append {xs ys : List Symbol} {b b₁ b₂ : Binding} (hxs : Binding.Named side xs b b₁)
    (hys : Binding.Named side ys b₁ b₂) : Binding.Named side (xs ++ ys) b b₂ :=
  ⟨hys.sound, by rw [hys.symbols_eq, hxs.symbols_eq, append_assoc]⟩

/-- A new symbol gets a name of its own. -/
theorem bindSymbol_names {name : Option String} {b b' : Binding} {s : Symbol}
    (hname : ∀ w ∈ name, ∀ c ∈ w.toList, isNameChar c = true) (hb : b.Sound side)
    (h : Binds (bindSymbol side kind name) b s b') : Binding.Named side [s] b b' := by
  obtain ⟨rfl, htakes, hbound⟩ := binds_bindSymbol.mp h
  have hnew : (⟨side, kind, b.bound⟩ : Symbol) ∉ b.names.symbols := by
    intro hs
    exact Nat.lt_irrefl _ (hb.below _ hs rfl)
  obtain ⟨hnames, hsymbols⟩ := hb.names.takes hnew hname htakes
  refine ⟨⟨hnames, fun t ht htside => ?_⟩, hsymbols⟩
  rw [hbound]
  rw [hsymbols] at ht
  rcases mem_append.mp ht with ht | ht
  · exact Nat.lt_succ_of_lt (hb.below t ht htside)
  · rw [mem_singleton.mp ht]
    exact Nat.lt_succ_self _

/-- Symbols are bound one by one, each to a name that is still free. -/
theorem bindSymbols_names {kinds : List SymbolKind} :
    ∀ {names : List String} {b b' : Binding} {symbols : List Symbol},
      (∀ name ∈ names, ∀ c ∈ name.toList, isNameChar c = true) → b.Sound side →
      Binds (bindSymbols side kinds names) b symbols b' → Binding.Named side symbols b b' := by
  induction kinds with
  | nil =>
    intro names b b' symbols _ hb h
    obtain ⟨rfl, rfl⟩ := binds_pure h
    exact names_nil hb
  | cons kind kinds ih =>
    intro names b b' symbols hnames hb h
    obtain ⟨s, b₁, hs, h⟩ := binds_bind h
    obtain ⟨rest, b₂, hrest, h⟩ := binds_bind h
    obtain ⟨rfl, rfl⟩ := binds_pure h
    have hfirst := bindSymbol_names (fun w hw => hnames w (mem_of_mem_head? hw)) hb hs
    have hothers := ih (fun w hw => hnames w (mem_of_mem_tail hw)) hfirst.sound hrest
    exact names_append hfirst hothers

theorem bindHoles_names {n : Nat} : ∀ {b b' : Binding} {ts : List Template}, b.Sound side →
    Binds (bindHoles side n) b ts b' → Binding.Named side (ts.flatMap symbols) b b' := by
  induction n with
  | zero =>
    intro b b' ts hb h
    obtain ⟨rfl, rfl⟩ := binds_pure h
    exact names_nil hb
  | succ n ih =>
    intro b b' ts hb h
    obtain ⟨s, b₁, hs, h⟩ := binds_bind h
    obtain ⟨rest, b₂, hrest, h⟩ := binds_bind h
    obtain ⟨rfl, rfl⟩ := binds_pure h
    have hfirst := bindSymbol_names (fun w hw => by cases hw) hb hs
    exact names_append hfirst (ih hfirst.sound hrest)

mutual

/-- Binding adds the symbols of a template to the table of names, in the order of its operators. -/
theorem bind_names : ∀ {sketch : Sketch} {b b' : Binding} {t : Template}, sketch.Spelled →
    b.Sound side → Binds (bind side sketch) b t b' → Binding.Named side t.symbols b b'
  | .node name names operands, b, b', t, .node hnames hoperands, hb, h => by
    obtain ⟨op, inputs, b₁, symbols, hinputs, hsymbols, hassemble⟩ := bind_cases h
    have hkinds : ∀ p ∈ inputs, p.WellKinded :=
      (hinputs.elim bindHoles_boundAll bindAll_boundAll).kinds
    have hnamed : Binding.Named side (inputs.flatMap Template.symbols) b b₁ :=
      hinputs.elim (bindHoles_names hb) (bindAll_names hoperands hb)
    rw [(assemble_eq_some hassemble (bindSymbols_numbered hsymbols).1 hkinds).2]
    exact names_append hnamed (bindSymbols_names hnames hnamed.sound hsymbols)

theorem bindAll_names : ∀ {sketches : List Sketch} {b b' : Binding} {ts : List Template},
    (∀ s ∈ sketches, s.Spelled) → b.Sound side → Binds (bindAll side sketches) b ts b' →
    Binding.Named side (ts.flatMap symbols) b b'
  | [], b, b', ts, _, hb, h => by
    unfold bindAll at h
    obtain ⟨rfl, rfl⟩ := binds_pure h
    exact names_nil hb
  | sketch :: sketches, b, b', ts, hspelled, hb, h => by
    unfold bindAll at h
    obtain ⟨t, b₁, ht, h⟩ := binds_bind h
    obtain ⟨rest, b₂, hrest, h⟩ := binds_bind h
    obtain ⟨rfl, rfl⟩ := binds_pure h
    have hfirst := bind_names (hspelled sketch mem_cons_self) hb ht
    have hothers := bindAll_names (fun s hs => hspelled s (mem_cons_of_mem _ hs))
      hfirst.sound hrest
    exact names_append hfirst hothers

end

/-- Reading a template names its symbols in order, after those that had names before. -/
theorem names_of_read {text : String} {names names' : Names} {t : Template}
    (hnames : names.Sound) (hother : ∀ s ∈ names.symbols, s.side ≠ side)
    (h : read text side names = (.ok t, names')) :
    names'.Sound ∧ names'.symbols = names.symbols ++ t.symbols := by
  obtain ⟨sketch, b, hsketch, hbinds, rfl⟩ := binds_of_read h
  have hstart : Binding.Sound side ⟨names, 0⟩ :=
    ⟨hnames, fun s hs hside => absurd hside (hother s hs)⟩
  have hbound := bind_names (Sketch.spelled_of_ofText hsketch) hstart hbinds
  exact ⟨hbound.sound.names, hbound.symbols_eq⟩

end Template

end QueryRules
