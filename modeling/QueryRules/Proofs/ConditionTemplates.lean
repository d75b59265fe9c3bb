import Mathlib.Data.List.Infix
import QueryRules.Plan
import QueryRules.Proofs.Preliminaries

/-!
# QueryRules — conditions from their templates

A condition that is not interpreted becomes a predicate that is named by the condition's template
and applied to its columns. The template is plain text: nothing is quoted, so a literal that
contains a comma and a blank looks like two. Where no name and no literal contains a mark that could
end it, the template and the columns determine the conjuncts.
-/

namespace QueryRules

open List

/-! ## Texts and marks -/

/-- Where a scalar stands in a template: alone or on the left of an equality, on the right of an
equality, or in a list of arguments. -/
inductive Slot where
  | left
  | right
  | argument

namespace Slot

/-- What may follow a scalar. -/
def ends : Slot → List (List Char)
  | .left => [[' ', '=', ' '], [' ', 'A', 'N', 'D', ' ']]
  | .right => [[' ', 'A', 'N', 'D', ' ']]
  | .argument => [[')'], [',', ' ']]

/-- What may follow a text. -/
def marks (slot : Slot) : List (List Char) :=
  ['('] :: slot.ends

/-- The part of a mark that may follow a literal and still be taken for the end of another mark. -/
def next : Slot → List Char
  | .argument => []
  | _ => [' ']

end Slot

section Texts

variable {marks : List (List Char)} {next rest rest' t t' m v : List Char}

/-- In the text, followed by `next`, no mark begins within the text. -/
def Clear (marks : List (List Char)) (next t : List Char) : Prop :=
  ∀ v ∈ t.tails, v ≠ [] → ∀ m ∈ marks, ¬ m <+: v ++ next

instance : Decidable (Clear marks next t) :=
  inferInstanceAs (Decidable (∀ v ∈ t.tails, v ≠ [] → ∀ m ∈ marks, ¬ m <+: v ++ next))

/-- Nothing, or a mark and anything. -/
def Starts (marks : List (List Char)) (rest : List Char) : Prop :=
  rest = [] ∨ ∃ m ∈ marks, m <+: rest

theorem Starts.mono {marks' : List (List Char)} (h : Starts marks rest) (hsub : marks ⊆ marks') :
    Starts marks' rest := by
  rcases h with hnil | ⟨m, hm, hpre⟩
  · exact .inl hnil
  · exact .inr ⟨m, hsub hm, hpre⟩

theorem Clear.nil : Clear marks next [] := by
  intro v hv hne
  exact absurd (suffix_nil.mp ((mem_tails _ _).mp hv)) hne

theorem Clear.tail {c : Char} (h : Clear marks next (c :: t)) : Clear marks next t := fun v hv =>
  h v ((mem_tails _ _).mpr (((mem_tails _ _).mp hv).trans (suffix_cons c t)))

theorem Clear.not_starts {c : Char} (h : Clear marks next (c :: t)) :
    ¬ Starts marks (c :: t ++ next) := by
  rintro (hnil | ⟨m, hm, hpre⟩)
  · cases hnil
  · have hself : c :: t ∈ (c :: t).tails := (mem_tails _ _).mpr (suffix_refl _)
    exact h _ hself (cons_ne_nil _ _) m hm hpre

theorem Clear.mono (h : Clear marks next t)
    (hnext : ∀ m ∈ marks, ∀ v, v ≠ [] → m <+: v ++ rest → m <+: v ++ next) : Clear marks rest t :=
  fun v hv hne m hm hpre => h v hv hne m hm (hnext m hm v hne hpre)

/-- **A clear text is read in one way**: it ends where the first mark begins. -/
theorem Clear.unique (h : Clear marks rest t) (h' : Clear marks rest' t')
    (hrest : Starts marks rest) (hrest' : Starts marks rest') (heq : t ++ rest = t' ++ rest') :
    t = t' ∧ rest = rest' := by
  induction t generalizing t' with
  | nil =>
    cases t' with
    | nil => exact ⟨rfl, heq⟩
    | cons c t' =>
      rw [nil_append] at heq
      exact absurd (heq ▸ hrest) h'.not_starts
  | cons c t ih =>
    cases t' with
    | nil =>
      rw [nil_append] at heq
      exact absurd (heq ▸ hrest') h.not_starts
    | cons c' t' =>
      obtain ⟨rfl, hrests⟩ := List.cons.inj heq
      obtain ⟨rfl, rfl⟩ := ih h.tail h'.tail hrests
      exact ⟨rfl, rfl⟩

/-- The marks are such that none goes over the beginning of another, but for a last blank. -/
theorem Slot.overlap (slot : Slot) : ∀ m ∈ slot.marks, ∀ m' ∈ slot.ends, m'.headD ' ' ∈ m.tail →
    m'.headD ' ' ∉ m.tail.dropLast ∧ slot.next = [m'.headD ' '] := by
  cases slot <;> decide

theorem Slot.paren_not_mem_tail (slot : Slot) : ∀ m ∈ slot.marks, '(' ∉ m.tail := by
  cases slot <;> decide

theorem Slot.ends_ne_nil (slot : Slot) : [] ∉ slot.ends := by
  cases slot <;> decide

/-- A literal stays clear whatever follows it. -/
theorem Clear.literal {slot : Slot} (h : Clear slot.marks slot.next t)
    (hrest : Starts slot.ends rest) : Clear slot.marks rest t := by
  refine h.mono fun m hm v hne hpre => ?_
  rcases hrest with rfl | ⟨m', hm', r, rfl⟩
  · rw [append_nil] at hpre
    exact hpre.trans (prefix_append _ _)
  · cases m' with
    | nil => exact absurd hm' slot.ends_ne_nil
    | cons c m' =>
      rcases prefix_append_cons hpre with hpre | ⟨w, rfl⟩
      · exact hpre.trans (prefix_append _ _)
      · obtain ⟨x, v, rfl⟩ := exists_cons_of_ne_nil hne
        obtain ⟨hlast, hnext⟩ := slot.overlap _ hm _ hm' (by simp)
        -- The character is in the mark, so it is the last one of the mark.
        cases w with
        | nil => rw [hnext, headD_cons]
        | cons d w => exact absurd (by simp [dropLast_append_of_ne_nil]) hlast

/-- A name stays clear in front of its arguments. -/
theorem Clear.name {slot : Slot} (h : Clear slot.marks [] t) :
    Clear slot.marks ('(' :: rest) t := by
  refine h.mono fun m hm v hne hpre => ?_
  rw [append_nil]
  rcases prefix_append_cons hpre with hpre | ⟨w, rfl⟩
  · exact hpre
  · obtain ⟨x, v, rfl⟩ := exists_cons_of_ne_nil hne
    exact absurd (by simp) (slot.paren_not_mem_tail _ hm)

end Texts

/-! ## Scalars -/

namespace Scalar

variable {slot : Slot} {s s' : Scalar} {rest rest' : List Char}

/-- The part of a scalar in a template. -/
def chars (s : Scalar) : List Char :=
  (s.textWith fun _ _ => "?").toList

/-- The text at the beginning of a scalar. -/
def lead : Scalar → String
  | .column _ _ => "?"
  | .literal t => t
  | .call f _ => f

/-- The arguments after the first one, with the closing parenthesis. -/
def further : List Scalar → List Char
  | [] => [')']
  | s :: ss => ',' :: ' ' :: (s.chars ++ further ss)

/-- The arguments, with the closing parenthesis. -/
def arguments : List Scalar → List Char
  | [] => [')']
  | s :: ss => s.chars ++ further ss

/-- What follows the text at the beginning of a scalar. -/
def trail : Scalar → List Char
  | .call _ args => '(' :: arguments args
  | _ => []

theorem arguments_eq (args : List Scalar) :
    (textAllWith (fun _ _ => "?") args).toList ++ [')'] = arguments args := by
  cases args with
  | nil => rfl
  | cons s ss =>
    induction ss generalizing s with
    | nil => rfl
    | cons t ss ih =>
      rw [textAllWith, String.toList_append, String.toList_append, append_assoc, ih t]
      simp [arguments, further, chars]

theorem chars_eq (s : Scalar) : s.chars = s.lead.toList ++ s.trail := by
  cases s with
  | call f args => simp [chars, textWith, lead, trail, ← arguments_eq]
  | _ => simp [chars, textWith, lead, trail]

mutual

/-- No text in the scalar contains a mark of its place, and none can be taken for a column or for no
argument at all. -/
def Legible (slot : Slot) : Scalar → Prop
  | .column _ _ => True
  | .literal t => t ≠ "?" ∧ Clear slot.marks slot.next t.toList
  | .call f args => Clear slot.marks [] f.toList ∧ args ≠ [.literal ""] ∧ LegibleAll args

/-- All arguments are legible. -/
def LegibleAll : List Scalar → Prop
  | [] => True
  | s :: ss => Legible .argument s ∧ LegibleAll ss

end

theorem clear_lead (hs : s.Legible slot) (hrest : Starts slot.ends rest) :
    Clear slot.marks (s.trail ++ rest) s.lead.toList ∧ Starts slot.marks (s.trail ++ rest) := by
  have hstarts : Starts slot.marks rest := hrest.mono (subset_cons_self _ _)
  cases s with
  | column q c =>
    have hclear : Clear slot.marks slot.next "?".toList := by cases slot <;> decide
    exact ⟨hclear.literal hrest, hstarts⟩
  | literal t => exact ⟨hs.2.literal hrest, hstarts⟩
  | call f args =>
    exact ⟨hs.1.name, .inr ⟨['('], mem_cons_self, arguments args ++ rest, rfl⟩⟩

theorem lead_inj (hs : s.Legible slot) (hs' : s'.Legible slot) (hrest : Starts slot.ends rest)
    (hrest' : Starts slot.ends rest') (heq : s.chars ++ rest = s'.chars ++ rest') :
    s.lead = s'.lead ∧ s.trail ++ rest = s'.trail ++ rest' := by
  rw [chars_eq, chars_eq, append_assoc, append_assoc] at heq
  obtain ⟨hclear, hstarts⟩ := clear_lead hs hrest
  obtain ⟨hclear', hstarts'⟩ := clear_lead hs' hrest'
  exact (hclear.unique hclear' hstarts hstarts' heq).imp_left String.toList_inj.mp

theorem starts_further (ss : List Scalar) (rest : List Char) :
    Starts Slot.argument.ends (further ss ++ rest) := by
  cases ss with
  | nil => exact .inr ⟨[')'], by decide, rest, rfl⟩
  | cons s ss => exact .inr ⟨[',', ' '], by decide, s.chars ++ further ss ++ rest, rfl⟩

/-- What follows a scalar is no list of arguments. -/
theorem ne_paren (hrest : Starts slot.ends rest) : rest ≠ '(' :: rest' := by
  have hhead : ∀ m ∈ slot.ends, m.head? ≠ some '(' := by cases slot <;> decide
  rintro rfl
  rcases hrest with hnil | ⟨m, hm, hpre⟩
  · cases hnil
  · cases m with
    | nil => exact slot.ends_ne_nil hm
    | cons c m => exact hhead _ hm (congrArg some (cons_prefix_cons.mp hpre).1)

/-- Only the empty literal leaves no trace. -/
theorem eq_of_closed (hs : s.Legible .argument) {ss : List Scalar}
    (heq : ')' :: rest = s.chars ++ (further ss ++ rest')) : s :: ss = [.literal ""] := by
  have hempty : (Scalar.literal "").Legible .argument := ⟨by decide, Clear.nil⟩
  obtain ⟨hlead, htrail⟩ :=
    lead_inj hempty hs (starts_further [] rest) (starts_further ss rest') heq
  cases s with
  | column q c => exact absurd hlead (by decide : "" ≠ "?")
  | call f args => cases htrail
  | literal t =>
    obtain rfl : "" = t := hlead
    cases ss with
    | nil => rfl
    | cons s ss => cases htrail

mutual

/-- **A legible scalar is read in one way**, whatever may follow it, if its columns are known. -/
theorem chars_inj : (s : Scalar) → ∀ {slot s' rest rest' cols cols'}, s.Legible slot →
    s'.Legible slot → Starts slot.ends rest → Starts slot.ends rest' →
    s.chars ++ rest = s'.chars ++ rest' → s.columns ++ cols = s'.columns ++ cols' →
    s = s' ∧ rest = rest' ∧ cols = cols'
  | .column q c, slot, s', rest, rest', cols, cols', hs, hs', hrest, hrest', heq, hcols => by
    -- The texts at the beginning agree; what follows tells a call from the others, and a question
    -- mark tells a column from a literal.
    obtain ⟨hlead, htrail⟩ := lead_inj hs hs' hrest hrest' heq
    cases s' with
    | column q' c' =>
      obtain ⟨hcol, hrests⟩ := List.cons.inj hcols
      cases hcol
      exact ⟨rfl, htrail, hrests⟩
    | literal t => exact absurd hlead.symm hs'.1
    | call f args => exact absurd htrail (ne_paren hrest)
  | .literal t, slot, s', rest, rest', cols, cols', hs, hs', hrest, hrest', heq, hcols => by
    obtain ⟨hlead, htrail⟩ := lead_inj hs hs' hrest hrest' heq
    cases s' with
    | column q' c' => exact absurd hlead hs.1
    | literal t' => exact ⟨congrArg literal hlead, htrail, hcols⟩
    | call f args => exact absurd htrail (ne_paren hrest)
  | .call f args, slot, s', rest, rest', cols, cols', hs, hs', hrest, hrest', heq, hcols => by
    obtain ⟨hlead, htrail⟩ := lead_inj hs hs' hrest hrest' heq
    cases s' with
    | column q' c' | literal t' => exact absurd htrail.symm (ne_paren hrest')
    | call f' args' =>
      obtain ⟨rfl, hrests, hcols⟩ := arguments_inj args hs.2 hs'.2 (List.cons.inj htrail).2 hcols
      exact ⟨congrArg (call · args) hlead, hrests, hcols⟩

/-- Arguments are read back from their template and their columns. -/
theorem arguments_inj : (args : List Scalar) → ∀ {args' rest rest' cols cols'},
    args ≠ [.literal ""] ∧ LegibleAll args → args' ≠ [.literal ""] ∧ LegibleAll args' →
    arguments args ++ rest = arguments args' ++ rest' →
    columnsAll args ++ cols = columnsAll args' ++ cols' →
    args = args' ∧ rest = rest' ∧ cols = cols'
  | [], args', rest, rest', cols, cols', hs, hs', heq, hcols => by
    cases args' with
    | nil => exact ⟨rfl, (List.cons.inj heq).2, hcols⟩
    | cons s ss =>
      rw [arguments, arguments, append_assoc] at heq
      exact absurd (eq_of_closed hs'.2.1 heq) hs'.1
  | s :: ss, args', rest, rest', cols, cols', hs, hs', heq, hcols => by
    cases args' with
    | nil =>
      rw [arguments, arguments, append_assoc] at heq
      exact absurd (eq_of_closed hs.2.1 heq.symm) hs.1
    | cons s' ss' =>
      rw [arguments, arguments, append_assoc, append_assoc] at heq
      rw [columnsAll, columnsAll, append_assoc, append_assoc] at hcols
      obtain ⟨rfl, hrests, hcols⟩ := chars_inj s hs.2.1 hs'.2.1 (starts_further ss rest)
        (starts_further ss' rest') heq hcols
      obtain ⟨rfl, hrests, hcols⟩ := further_inj ss hs.2.2 hs'.2.2 hrests hcols
      exact ⟨rfl, hrests, hcols⟩

theorem further_inj : (ss : List Scalar) → ∀ {ss' rest rest' cols cols'}, LegibleAll ss →
    LegibleAll ss' → further ss ++ rest = further ss' ++ rest' →
    columnsAll ss ++ cols = columnsAll ss' ++ cols' → ss = ss' ∧ rest = rest' ∧ cols = cols'
  | [], ss', rest, rest', cols, cols', hs, hs', heq, hcols => by
    cases ss' with
    | nil => exact ⟨rfl, (List.cons.inj heq).2, hcols⟩
    | cons s' ss' => cases heq
  | s :: ss, ss', rest, rest', cols, cols', hs, hs', heq, hcols => by
    cases ss' with
    | nil => cases heq
    | cons s' ss' =>
      simp only [further, cons_append, List.cons.injEq, true_and, append_assoc] at heq
      rw [columnsAll, columnsAll, append_assoc, append_assoc] at hcols
      obtain ⟨rfl, hrests, hcols⟩ := chars_inj s hs.1 hs'.1 (starts_further ss rest)
        (starts_further ss' rest') heq hcols
      obtain ⟨rfl, hrests, hcols⟩ := further_inj ss hs.2 hs'.2 hrests hcols
      exact ⟨rfl, hrests, hcols⟩

end

end Scalar

/-! ## Pieces of a condition -/

/-- What stands between two `AND`s: a scalar, or the two sides of an equality. -/
structure Piece where
  first : Scalar
  second? : Option Scalar

namespace Piece

/-- The text after the first scalar. -/
def follow (p : Piece) : List Char :=
  p.second?.elim [] fun r => ' ' :: '=' :: ' ' :: r.chars

/-- The written form, with an `AND` in front. -/
def chars (p : Piece) : List Char :=
  ' ' :: 'A' :: 'N' :: 'D' :: ' ' :: (p.first.chars ++ p.follow)

def columns (p : Piece) : List (String × String) :=
  p.first.columns ++ p.second?.elim [] Scalar.columns

/-- The conjunct that was written. A literal alone is none. -/
def conjunct? : Piece → Option Condition
  | ⟨l, some r⟩ => some (.eq l r)
  | ⟨.call f args, none⟩ => some (.call f args)
  | _ => none

def Legible (p : Piece) : Prop :=
  p.first.Legible .left ∧ ∀ r ∈ p.second?, r.Legible .right

theorem starts_flatMap (ps : List Piece) : Starts Slot.right.ends (ps.flatMap chars) := by
  cases ps with
  | nil => exact .inl rfl
  | cons p ps =>
    exact .inr ⟨_, mem_cons_self, p.first.chars ++ p.follow ++ ps.flatMap chars, rfl⟩

theorem starts_follow (p : Piece) (ps : List Piece) :
    Starts Slot.left.ends (p.follow ++ ps.flatMap chars) := by
  rcases p with ⟨l, _ | r⟩
  · exact (starts_flatMap ps).mono (subset_cons_self _ _)
  · exact .inr ⟨_, mem_cons_self, r.chars ++ ps.flatMap chars, rfl⟩

theorem ne_equals (ps : List Piece) {rest : List Char} : ps.flatMap chars ≠ ' ' :: '=' :: rest := by
  intro heq
  cases ps with
  | nil => cases heq
  | cons p ps =>
    have hsecond : 'A' = '=' := (List.cons.inj (List.cons.inj heq).2).1
    exact absurd hsecond (by decide)

/-- **Legible pieces are read in one way**, if their columns are known. -/
theorem flatMap_inj {ps ps' : List Piece} (h : ∀ p ∈ ps, p.Legible) (h' : ∀ p ∈ ps', p.Legible)
    (htext : ps.flatMap chars = ps'.flatMap chars)
    (hcols : ps.flatMap columns = ps'.flatMap columns) : ps = ps' := by
  induction ps generalizing ps' with
  | nil =>
    cases ps' with
    | nil => rfl
    | cons p' ps' => cases htext
  | cons p ps ih =>
    cases ps' with
    | nil => cases htext
    | cons p' ps' =>
      obtain ⟨hp, hps⟩ := forall_mem_cons.mp h
      obtain ⟨hp', hps'⟩ := forall_mem_cons.mp h'
      simp only [flatMap_cons, chars, columns, cons_append, List.cons.injEq, true_and,
        append_assoc] at htext hcols
      -- Where the first scalar ends is seen in the text.
      have hfirst := Scalar.chars_inj p.first hp.1 hp'.1 (starts_follow p ps) (starts_follow p' ps')
        htext hcols
      obtain ⟨l, second⟩ := p
      obtain ⟨l', second'⟩ := p'
      obtain ⟨rfl, htext, hcols⟩ := hfirst
      cases second with
      | none =>
        cases second' with
        | none => rw [ih hps hps' htext hcols]
        | some r' => exact absurd htext (ne_equals ps)
      | some r =>
        cases second' with
        | none => exact absurd htext.symm (ne_equals ps')
        | some r' =>
          obtain ⟨rfl, htext, hcols⟩ := Scalar.chars_inj r (hp.2 r rfl) (hp'.2 r' rfl)
            (starts_flatMap ps) (starts_flatMap ps') (by simpa [follow] using htext) hcols
          rw [ih hps hps' htext hcols]

end Piece

namespace Condition

/-- A conjunct with legible scalars. -/
def LegiblePart : Condition → Prop
  | .eq l r => l.Legible .left ∧ r.Legible .right
  | .call f args => (Scalar.call f args).Legible .left
  | .all _ => True

/-- A condition in which no name and no literal contains a mark of the place where it stands. -/
def Legible (c : Condition) : Prop :=
  ∀ part ∈ c.conjuncts, part.LegiblePart

mutual

/-- The pieces of a condition. A conjunction of nothing is written as nothing. -/
def pieces : Condition → List Piece
  | .eq l r => [⟨l, some r⟩]
  | .call f args => [⟨.call f args, none⟩]
  | .all [] => [⟨.literal "", none⟩]
  | .all (c :: cs) => pieces c ++ piecesAll cs

/-- The pieces of a list of conditions. -/
def piecesAll : List Condition → List Piece
  | [] => []
  | c :: cs => pieces c ++ piecesAll cs

end

/-- What pieces are written as, and what they stand for. -/
structure Spells (ps : List Piece) (text : List Char) (columns : List (String × String))
    (conjuncts : List Condition) : Prop where
  text_eq : ps.flatMap Piece.chars = text
  columns_eq : ps.flatMap Piece.columns = columns
  conjuncts_eq : ps.filterMap Piece.conjunct? = conjuncts
  empty : ∀ p ∈ ps, p.conjunct? = none → p = ⟨.literal "", none⟩

theorem Spells.append {ps ps' : List Piece} {text text' : List Char}
    {columns columns' : List (String × String)} {conjuncts conjuncts' : List Condition}
    (h : Spells ps text columns conjuncts) (h' : Spells ps' text' columns' conjuncts') :
    Spells (ps ++ ps') (text ++ text') (columns ++ columns') (conjuncts ++ conjuncts') where
  text_eq := by rw [flatMap_append, h.text_eq, h'.text_eq]
  columns_eq := by rw [flatMap_append, h.columns_eq, h'.columns_eq]
  conjuncts_eq := by rw [filterMap_append, h.conjuncts_eq, h'.conjuncts_eq]
  empty := forall_mem_append.mpr ⟨h.empty, h'.empty⟩

/-- The template with an `AND` in front. -/
def chars (c : Condition) : List Char :=
  ' ' :: 'A' :: 'N' :: 'D' :: ' ' :: c.template.toList

theorem chars_all (c : Condition) (cs : List Condition) :
    (Condition.all (c :: cs)).chars = c.chars ++ cs.flatMap chars := by
  induction cs generalizing c with
  | nil => simp [chars, template, textWith, textAllWith]
  | cons d cs ih =>
    rw [flatMap_cons, ← ih d]
    simp [chars, template, textWith, textAllWith]

mutual

/-- The pieces of a condition spell its template, in order. -/
theorem spells_pieces : (c : Condition) → Spells c.pieces c.chars c.columns c.conjuncts
  | .eq l r => by
    refine ⟨?_, ?_, rfl, ?_⟩
    · simp [pieces, Piece.chars, Piece.follow, chars, template, textWith, Scalar.chars]
    · simp [pieces, Piece.columns, columns]
    · simp [pieces, Piece.conjunct?]
  | .call f args => by
    refine ⟨?_, ?_, rfl, ?_⟩
    · simp [pieces, Piece.chars, Piece.follow, chars, template, textWith, Scalar.chars]
    · simp [pieces, Piece.columns, columns, Scalar.columns]
    · simp [pieces, Piece.conjunct?]
  | .all [] => by
    refine ⟨?_, ?_, rfl, ?_⟩
    · simp [pieces, Piece.chars, Piece.follow, chars, template, textWith, textAllWith, Scalar.chars,
        Scalar.textWith]
    · simp [pieces, Piece.columns, columns, columnsAll, Scalar.columns]
    · simp [pieces]
  | .all (c :: cs) => by
    rw [chars_all]
    exact (spells_pieces c).append (spells_piecesAll cs)

theorem spells_piecesAll : (cs : List Condition) →
    Spells (piecesAll cs) (cs.flatMap chars) (columnsAll cs) (conjunctsAll cs)
  | [] => ⟨rfl, rfl, rfl, fun _ hp => absurd hp not_mem_nil⟩
  | c :: cs => (spells_pieces c).append (spells_piecesAll cs)

end

theorem legible_pieces {c : Condition} (h : c.Legible) : ∀ p ∈ c.pieces, p.Legible := by
  intro p hp
  cases hpart : p.conjunct? with
  | none =>
    rw [(spells_pieces c).empty p hp hpart]
    exact ⟨⟨by decide, Clear.nil⟩, fun r hr => by cases hr⟩
  | some part =>
    have hlegible : part.LegiblePart := by
      refine h part ?_
      rw [← (spells_pieces c).conjuncts_eq]
      exact mem_filterMap.mpr ⟨p, hp, hpart⟩
    rcases p with ⟨l, _ | r⟩
    · cases l <;> cases hpart
      exact ⟨hlegible, fun r hr => by cases hr⟩
    · cases hpart
      refine ⟨hlegible.1, fun r' hr => ?_⟩
      cases hr
      exact hlegible.2

/-- **The template and the columns determine the conjuncts** of conditions in which no name and no
literal contains a mark of its place. -/
theorem conjuncts_of_template {c d : Condition} (hc : c.Legible) (hd : d.Legible)
    (htemplate : c.template = d.template) (hcolumns : c.columns = d.columns) :
    c.conjuncts = d.conjuncts := by
  have hpieces : c.pieces = d.pieces := by
    refine Piece.flatMap_inj (legible_pieces hc) (legible_pieces hd) ?_ ?_
    · rw [(spells_pieces c).text_eq, (spells_pieces d).text_eq, chars, chars, htemplate]
    · rw [(spells_pieces c).columns_eq, (spells_pieces d).columns_eq, hcolumns]
  rw [← (spells_pieces c).conjuncts_eq, ← (spells_pieces d).conjuncts_eq, hpieces]

/-- A conjunction that is grouped in two ways. A comma without a blank is no mark, nor is an equals
sign on the right of an equality. -/
theorem conjuncts_of_template_regrouped :
    let call : Condition := .call "f" [.column "r" "a", .literal "x,y"]
    let eq : Condition := .eq (.column "r" "b") (.literal "k = v")
    let c : Condition := .all [call, .all [eq]]
    let d : Condition := .all [.all [call], eq]
    (c.Legible ∧ d.Legible) ∧ c.template = d.template ∧ c.columns = d.columns ∧
      c.conjuncts = d.conjuncts := by
  intro call eq c d
  have hcall : call.LegiblePart := ⟨by decide, by simp, trivial, ⟨by decide, by decide⟩, trivial⟩
  have heq : eq.LegiblePart := ⟨trivial, by decide, by decide⟩
  have hc : c.Legible := forall_mem_cons.mpr ⟨hcall, forall_mem_singleton.mpr heq⟩
  have hd : d.Legible := forall_mem_cons.mpr ⟨hcall, forall_mem_singleton.mpr heq⟩
  have htemplate : c.template = d.template := by decide +kernel
  have hcolumns : c.columns = d.columns := by decide +kernel
  exact ⟨⟨hc, hd⟩, htemplate, hcolumns, conjuncts_of_template hc hd htemplate hcolumns⟩

/-- Conditions that have the same template and the same columns. Each pair has one text that is not
legible: it contains a comma and a blank, parentheses, ` = ` or ` AND `, or it is `?` or empty. -/
def conflated : List (Condition × Condition) :=
  [(.call "f" [.column "r" "a", .literal "x, y"],
      .call "f" [.column "r" "a", .literal "x", .literal "y"]),
    (.eq (.literal "f(x)") (.column "r" "a"), .eq (.call "f" [.literal "x"]) (.column "r" "a")),
    (.call "f" [.literal "a) = b"], .eq (.call "f" [.literal "a"]) (.literal "b)")),
    (.eq (.literal "a = b") (.literal "c"), .eq (.literal "a") (.literal "b = c")),
    (.eq (.literal "a =") (.literal "b"), .eq (.literal "a") (.literal "= b")),
    (.eq (.literal "a") (.literal "b AND c = d"),
      .all [.eq (.literal "a") (.literal "b"), .eq (.literal "c") (.literal "d")]),
    (.eq (.column "r" "a") (.literal "?"), .eq (.literal "?") (.column "r" "a")),
    (.call "f" [.literal ""], .call "f" [])]

/-- The template and the columns do not determine the conjuncts of all conditions. -/
theorem template_conflates :
    (¬ ∀ c d : Condition, c.template = d.template → c.columns = d.columns →
      c.conjuncts = d.conjuncts) ∧
      ∀ x ∈ conflated, x.1.template = x.2.template ∧ x.1.columns = x.2.columns ∧
        x.1.conjuncts ≠ x.2.conjuncts := by
  have hsame : ∀ x ∈ conflated, x.1.template = x.2.template ∧ x.1.columns = x.2.columns := by
    decide +kernel
  have hdiffer : ∀ x ∈ conflated, x.1.conjuncts ≠ x.2.conjuncts := by
    simp [conflated, conjuncts, conjunctsAll]
  refine ⟨fun h => ?_, fun x hx => ⟨(hsame x hx).1, (hsame x hx).2, hdiffer x hx⟩⟩
  have hfirst := hsame _ mem_cons_self
  exact hdiffer _ mem_cons_self (h _ _ hfirst.1 hfirst.2)

end Condition

end QueryRules
