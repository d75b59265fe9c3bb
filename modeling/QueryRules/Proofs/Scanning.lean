import QueryRules.Text.Scan

/-!
# QueryRules — reading a written list back

What the readers of `Text/Scan.lean` make of a text that was written with one separator character
between its items, and what is known of the items that they read off any text.
-/

namespace QueryRules

open List

namespace Scan

variable {α ι : Type}

/-! ## Words -/

/-- A text that does not begin with a character of the class. -/
def StartsOutside (p : Char → Bool) (cs : List Char) : Prop :=
  ∀ c ∈ cs.head?, p c = false

variable {p : Char → Bool}

theorem startsOutside_cons {c : Char} (h : p c = false) (cs : List Char) :
    StartsOutside p (c :: cs) := by
  intro d hd
  cases hd
  exact h

theorem startsOutside_append {cs : List Char} (hne : cs ≠ [])
    (h : ∀ c ∈ cs, p c = false) (rest : List Char) : StartsOutside p (cs ++ rest) := by
  cases cs with
  | nil => exact absurd rfl hne
  | cons c cs => exact startsOutside_cons (h c mem_cons_self) _

theorem takeWhile_of_startsOutside {cs : List Char} (h : StartsOutside p cs) :
    cs.takeWhile p = [] := by
  cases cs with
  | nil => rfl
  | cons c cs => exact takeWhile_cons_of_neg (by simp [h c rfl])

theorem dropWhile_of_startsOutside {cs : List Char} (h : StartsOutside p cs) :
    cs.dropWhile p = cs := by
  cases cs with
  | nil => rfl
  | cons c cs => exact dropWhile_cons_of_neg (by simp [h c rfl])

variable {cs : List Char}

/-- A text that does not begin with a space is left as it is. -/
theorem skipSpaces_eq (h : StartsOutside Text.isSpace cs) : skipSpaces cs = cs :=
  dropWhile_of_startsOutside h

/-- A word is read up to the first character that does not belong to it. -/
theorem word_eq {w : String} (hne : w ≠ "") (hw : ∀ c ∈ w.toList, p c = true)
    {rest : List Char} (hrest : StartsOutside p rest) :
    word p (w.toList ++ rest) = .ok (w, rest) := by
  have hfront : (w.toList ++ rest).takeWhile p = w.toList := by
    rw [takeWhile_append_of_pos hw, takeWhile_of_startsOutside hrest, append_nil]
  have hback : (w.toList ++ rest).dropWhile p = rest := by
    rw [dropWhile_append_of_pos hw, dropWhile_of_startsOutside hrest]
  have hnonempty : w.toList.isEmpty = false := by
    simpa using hne
  unfold word
  simp only [hfront, hback, hnonempty, Bool.false_eq_true, if_false, String.ofList_toList]

/-- A word that was read is not empty and consists of characters of its class. -/
theorem word_spec {cs rest : List Char} {w : String}
    (h : word p cs = .ok (w, rest)) : w ≠ "" ∧ ∀ c ∈ w.toList, p c = true := by
  unfold word at h
  dsimp only at h
  split at h
  · cases h
  next hempty =>
  obtain ⟨rfl, -⟩ := Prod.mk.inj (Except.ok.inj h)
  constructor
  · intro hnil
    apply hempty
    simpa using congrArg String.toList hnil
  · intro c hc
    rw [String.toList_ofList] at hc
    exact all_eq_true.mp all_takeWhile c hc

/-! ## Separators -/

theorem char_eq (c : Char) (rest : List Char) : char c (c :: rest) = .ok ((), rest) :=
  if_pos rfl

theorem char_ne {c d : Char} (h : d ≠ c) (rest : List Char) :
    char c (d :: rest) = .error ⟨.char, d :: rest⟩ :=
  if_neg h

theorem spaced_eq {c : Char} (hc : Text.isSpace c = false) {rest : List Char}
    (hrest : StartsOutside Text.isSpace rest) : spaced c (c :: rest) = .ok ((), rest) := by
  unfold spaced
  rw [skipSpaces_eq (startsOutside_cons hc rest), char_eq]
  show Except.ok ((), skipSpaces rest) = _
  rw [skipSpaces_eq hrest]

theorem spaced_ne {c d : Char} (hd : Text.isSpace d = false) (h : d ≠ c) (rest : List Char) :
    spaced c (d :: rest) = .error ⟨.char, d :: rest⟩ := by
  unfold spaced
  rw [skipSpaces_eq (startsOutside_cons hd rest), char_ne h]
  rfl

/-! ## Lists -/

/-- The text of a list of items with a separator character between them. -/
theorem intercalate_cons (c : Char) (l : List Char) (ls : List (List Char)) :
    [c].intercalate (l :: ls) = l ++ ls.flatMap (c :: ·) := by
  induction ls generalizing l with
  | nil => simp
  | cons l' ls ih => rw [intercalate_cons_cons, ih]; simp

/-- Items that end with a character make a list that ends with it. -/
theorem exists_intercalate_eq {c d : Char} {l : List Char} {ls : List (List Char)}
    (h : ∀ l' ∈ l :: ls, ∃ front, l' = front ++ [d]) :
    ∃ front, [c].intercalate (l :: ls) = front ++ [d] := by
  induction ls generalizing l with
  | nil =>
    rw [intercalate_singleton]
    exact h l mem_cons_self
  | cons l' ls ih =>
    obtain ⟨front, hfront⟩ := ih fun l'' hl'' => h l'' (mem_cons_of_mem _ hl'')
    rw [intercalate_cons_cons, hfront, ← append_assoc]
    exact ⟨_, rfl⟩

theorem mem_of_mem_intercalate {c x : Char} {ls : List (List Char)}
    (h : x ∈ [c].intercalate ls) : x = c ∨ ∃ l ∈ ls, x ∈ l := by
  cases ls with
  | nil => cases h
  | cons l ls =>
    rw [intercalate_cons, mem_append, mem_flatMap] at h
    rcases h with h | ⟨l', hl', h⟩
    · exact .inr ⟨l, mem_cons_self, h⟩
    · rcases mem_cons.mp h with h | h
      · exact .inl h
      · exact .inr ⟨l', mem_cons_of_mem _ hl', h⟩

/-- Items of which each is understood where it stands: in front of the separator character, or in
front of the rest. -/
structure Listed (sep : Scan Unit) (item : Scan α) (c : Char) (text : ι → List Char)
    (value : ι → α) (items : List ι) (rest : List Char) : Prop where
  item_eq : ∀ i ∈ items, ∀ more, more = rest ∨ more.head? = some c →
    item (text i ++ more) = .ok (value i, more)
  sep_eq : ∀ i ∈ items, ∀ more, sep (c :: (text i ++ more)) = .ok ((), text i ++ more)
  finish : ∃ e, sep rest = .error e

variable {sep : Scan Unit} {item : Scan α} {c : Char} {text : ι → List Char} {value : ι → α}
  {items : List ι} {rest : List Char}

theorem Listed.tail {i : ι} (h : Listed sep item c text value (i :: items) rest) :
    Listed sep item c text value items rest where
  item_eq j hj := h.item_eq j (mem_cons_of_mem _ hj)
  sep_eq j hj := h.sep_eq j (mem_cons_of_mem _ hj)
  finish := h.finish

/-- What stands after an item: the separator of the next one, or the rest. -/
theorem head_of_flatMap (c : Char) (text : ι → List Char) (items : List ι) (rest : List Char) :
    let more := items.flatMap (fun i => c :: text i) ++ rest
    more = rest ∨ more.head? = some c := by
  cases items with
  | nil => exact .inl rfl
  | cons i items => exact .inr rfl

/-- Items between separators are read one by one, until something else follows. -/
theorem followers_eq (h : Listed sep item c text value items rest) {count : Nat}
    (hcount : items.length ≤ count) :
    followers sep item count (items.flatMap (fun i => c :: text i) ++ rest)
      = (items.map value, rest) := by
  induction items generalizing count with
  | nil =>
    obtain ⟨e, he⟩ := h.finish
    cases count with
    | zero => rfl
    | succ count =>
      show followers sep item (count + 1) rest = ([], rest)
      simp only [followers, he]
  | cons i items ih =>
    cases count with
    | zero => exact absurd hcount (Nat.not_succ_le_zero _)
    | succ count =>
      have hsep := h.sep_eq i mem_cons_self (items.flatMap (fun i => c :: text i) ++ rest)
      have hitem := h.item_eq i mem_cons_self _ (head_of_flatMap c text items rest)
      have hrest := ih h.tail (Nat.le_of_succ_le_succ hcount)
      rw [flatMap_cons, append_assoc, cons_append]
      simp only [followers, hsep, hitem, hrest, map_cons]

/-- A written list is read back. -/
theorem separated_eq {i : ι} (h : Listed sep item c text value (i :: items) rest) :
    separated sep item ([c].intercalate ((i :: items).map text) ++ rest)
      = ((i :: items).map value, rest) := by
  have hitem := h.item_eq i mem_cons_self _ (head_of_flatMap c text items rest)
  -- Every further item takes a separator at least, so the bound on their number is large enough.
  have hlen : items.length ≤ (items.flatMap (fun i => c :: text i) ++ rest).length := by
    have hsum : items.length ≤ (items.flatMap fun i => c :: text i).length := by
      clear h hitem
      induction items with
      | nil => exact Nat.zero_le _
      | cons j items ih =>
        rw [flatMap_cons, length_append, length_cons, length_cons]
        omega
    rw [length_append]
    omega
  rw [map_cons, intercalate_cons, append_assoc, flatMap_map]
  simp only [separated, hitem, followers_eq h.tail hlen, map_cons]

/-- A list between brackets is read back, if its first item does not begin with a space. -/
theorem bracketed_eq (opening : Char) {closing : Char} {i : ι}
    (h : Listed sep item c text value (i :: items) (closing :: rest))
    (hclosing : Text.isSpace closing = false)
    (hstart : ∀ more, StartsOutside Text.isSpace (text i ++ more)) :
    bracketed opening closing sep item
        (opening :: ([c].intercalate ((i :: items).map text) ++ closing :: rest))
      = .ok ((i :: items).map value, rest) := by
  have hskip : skipSpaces ([c].intercalate ((i :: items).map text) ++ closing :: rest)
      = [c].intercalate ((i :: items).map text) ++ closing :: rest := by
    rw [map_cons, intercalate_cons, append_assoc]
    exact skipSpaces_eq (hstart _)
  unfold bracketed
  rw [char_eq]
  show (do
    let items := separated sep item
      (skipSpaces ([c].intercalate ((i :: items).map text) ++ closing :: rest))
    let rest ← char closing (skipSpaces items.2)
    return (items.1, rest.2)) = _
  rw [hskip, separated_eq h]
  dsimp only
  rw [skipSpaces_eq (startsOutside_cons hclosing rest), char_eq]
  rfl

/-- Items between brackets, or nothing at all if there are no items. -/
def delimited (opening c closing : Char) : List (List Char) → List Char
  | [] => []
  | l :: ls => opening :: ([c].intercalate (l :: ls) ++ [closing])

/-- A list that is left out if it is empty is read back. -/
theorem optional_delimited (opening : Char) {closing : Char}
    (hclosing : Text.isSpace closing = false)
    (hstart : ∀ i ∈ items, ∀ more, StartsOutside Text.isSpace (text i ++ more))
    (h : Listed sep item c text value items (closing :: rest))
    (hopening : items = [] → StartsOutside (· = opening) rest) :
    ∃ found, optional (bracketed opening closing sep item)
        (delimited opening c closing (items.map text) ++ rest) = (found, rest) ∧
      found.getD [] = items.map value := by
  cases items with
  | nil =>
    -- Without items there are no brackets, and the reader is put back.
    have hnone : ∃ e, bracketed opening closing sep item rest = .error e := by
      cases rest with
      | nil => exact ⟨_, rfl⟩
      | cons d rest =>
        have hne : d ≠ opening := of_decide_eq_false (hopening rfl d rfl)
        unfold bracketed
        rw [char_ne hne]
        exact ⟨_, rfl⟩
    obtain ⟨e, he⟩ := hnone
    refine ⟨none, ?_, rfl⟩
    show optional _ rest = _
    unfold optional
    rw [he]
  | cons i items =>
    have hread := bracketed_eq opening h hclosing (hstart i mem_cons_self)
    refine ⟨some ((i :: items).map value), ?_, rfl⟩
    have htext : delimited opening c closing ((i :: items).map text) ++ rest
        = opening :: ([c].intercalate ((i :: items).map text) ++ closing :: rest) := by
      rw [map_cons, delimited, cons_append, append_assoc]
      rfl
    rw [htext]
    unfold optional
    rw [hread]

theorem whole_eq {a : α} (hstart : StartsOutside Text.isSpace cs)
    (h : item cs = .ok (a, [])) : whole item cs = .ok a := by
  unfold whole
  rw [skipSpaces_eq hstart, h]
  rfl

/-! ## Items that were read -/

theorem mem_of_followers {count : Nat} {a : α}
    (ha : a ∈ (followers sep item count cs).1) : ∃ cs rest, item cs = .ok (a, rest) := by
  induction count generalizing cs with
  | zero => cases ha
  | succ count ih =>
    unfold followers at ha
    split at ha
    · cases ha
    next afterSep _ =>
    split at ha
    · cases ha
    next b more hitem =>
    rcases mem_cons.mp ha with rfl | ha
    · exact ⟨afterSep, more, hitem⟩
    · exact ih ha

/-- An item of a list that was read off a text is one that the item reader accepted. -/
theorem mem_of_separated {a : α} (ha : a ∈ (separated sep item cs).1) :
    ∃ cs rest, item cs = .ok (a, rest) := by
  unfold separated at ha
  split at ha
  · cases ha
  next b more hitem =>
  rcases mem_cons.mp ha with rfl | ha
  · exact ⟨cs, more, hitem⟩
  · exact mem_of_followers ha

theorem mem_of_bracketed {opening closing : Char} {as : List α}
    (h : bracketed opening closing sep item cs = .ok (as, rest)) {a : α} (ha : a ∈ as) :
    ∃ cs rest, item cs = .ok (a, rest) := by
  unfold bracketed at h
  cases hopen : char opening cs with
  | error e =>
    rw [hopen] at h
    cases h
  | ok opened =>
    rw [hopen] at h
    change (char closing (skipSpaces (separated sep item (skipSpaces opened.2)).2)
      >>= fun closed => _) = _ at h
    cases hclose : char closing (skipSpaces (separated sep item (skipSpaces opened.2)).2) with
    | error e =>
      rw [hclose] at h
      cases h
    | ok closed =>
      rw [hclose] at h
      cases h
      exact mem_of_separated ha

end Scan

end QueryRules
