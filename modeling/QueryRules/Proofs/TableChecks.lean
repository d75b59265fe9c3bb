import QueryRules.Proofs.CatalogEntries

/-!
# QueryRules — what a table check makes of undecided constraints

The tables of both queries are compared before it is decided which attribute lists are never null
and which refer to others. The rule that is compared needs flags for these constraints all the same:
they are off until the search has once gone on to decide them, and on ever after. So what the check
finds depends on the history of the search, though on a single bit of it.

The bit can be read off the trace (`Event.tableChecks`): to come back from deciding them, the search
has to answer a complete choice.
-/

namespace QueryRules

open List

namespace Event

/-- A complete choice was answered. -/
def isLeaf : Event → Bool
  | .leaf _ _ => true
  | _ => false

/-- The assignments under which tables were compared, the latest first. Each stands with whether a
complete choice had been answered before. -/
def tableChecks : List Event → List (Assignment × Bool)
  | [] => []
  | .tablesCompared flags :: earlier => (flags, earlier.any isLeaf) :: tableChecks earlier
  | _ :: earlier => tableChecks earlier

end Event

/-! ## The course of the flag -/

namespace Search

variable {t : SearchTask} {s : SearchState}

/-- Tables were compared under choices with all unique keys decided, and the constraints that were
not decided were enabled if a complete choice had been answered before. -/
def Compares (t : SearchTask) (s : SearchState) : Prop :=
  ∀ flags answered, (flags, answered) ∈ Event.tableChecks s.trace →
    ∃ c : Choice, c.integrity.length = t.uniques.length ∧ flags = t.flags c answered

/-- The flag of undecided constraints is on, in a state with `Compares`. -/
def Reached (t : SearchTask) (s : SearchState) : Prop :=
  Compares t s ∧ s.integrityReached = true

/-- Above the constraints that are decided last, the flag says whether a complete choice was
answered. It is raised on the way down to the first one, before that one is in the trace. -/
theorem course_compares (t : SearchTask) :
    Course t (fun s => Compares t s ∧ s.integrityReached = s.trace.any Event.isLeaf) (Reached t)
      (fun s => Reached t s ∧ s.trace.any Event.isLeaf = true) (Compares t)
      (fun _ => Compares t) where
  count _ _ _ hs := hs
  compare s c hs hc := by
    refine ⟨fun flags answered hcheck => ?_, hs.2⟩
    rcases mem_cons.mp hcheck with heq | hcheck
    · obtain ⟨rfl, rfl⟩ := Prod.mk.inj heq
      exact ⟨c, hc, by rw [hs.2]⟩
    · exact hs.1 flags answered hcheck
  reach _ hs := ⟨hs.1, rfl⟩
  look _ _ hs := hs
  late _ hs := hs.1
  leaf c := by
    have hanswer : Yields (Reached t) (fun _ => Reached t) (fun _ => Compares t) (answerLeaf t c) :=
      yields_answerLeaf (fun _ _ hs => hs) (fun _ _ hs => hs) (fun _ _ hs => hs)
        (fun _ _ hs => hs) (fun _ _ _ _ => And.left) (fun _ _ => And.left) c
    -- The answer is in the trace before the search comes back to a table check.
    refine hanswer.bind fun answer => ?_
    refine Yields.bind (yields_modify (U := fun s => Reached t s ∧ s.trace.any Event.isLeaf = true)
      fun _ hs => ⟨hs, rfl⟩) fun _ => yields_pure fun s hs => ?_
    cases answer with
    | timeout => exact hs.1.1
    | _ => exact hs
  above _ hs := ⟨hs.1.1, hs.1.2.trans hs.2.symm⟩
  below _ := And.left
  question _ _ _ _ _ := And.left

end Search

namespace Catalog

variable {catalog : Catalog} {settings : Settings} {oracle : Oracle} {clock : Nat → Nat}

theorem compares_final : Search.Compares (.ofCatalog catalog settings oracle clock)
    (catalog.search settings oracle clock).final := by
  have hyields := (Search.course_compares (.ofCatalog catalog settings oracle clock)).explore
  have hinitial : Search.Compares (.ofCatalog catalog settings oracle clock) .initial :=
    fun _ _ hcheck => absurd hcheck not_mem_nil
  rw [final_search]
  rcases hrun : (Search.explore (.ofCatalog catalog settings oracle clock)).run.run
    SearchState.initial with ⟨e | a, s⟩
  · exact hyields.fails ⟨hinitial, rfl⟩ hrun
  · have hs := hyields.ends ⟨hinitial, rfl⟩ hrun
    cases a with
    | timeout => exact hs
    | _ => exact hs.1

/-! ## Flags of undecided constraints -/

/-- The constraints that are decided before tables are compared. -/
def early (catalog : Catalog) : List Constraint :=
  catalog.structural ++ catalog.block .unique

/-- The constraints that are decided after that. -/
def late (catalog : Catalog) : List Constraint :=
  catalog.block .notNull ++ catalog.block .reference

theorem entries_eq_early_late (catalog : Catalog) :
    catalog.entries = catalog.early ++ catalog.late := by
  rw [entries_eq]
  unfold integrity early late
  rw [append_assoc, append_assoc]

theorem kind_of_mem_early {e : Constraint} (h : e ∈ catalog.early) :
    e.kind ≠ .notNull ∧ e.kind ≠ .reference := by
  rcases mem_append.mp h with h | h
  · rcases mem_structural.mp h with ⟨_, _, _, _, rfl⟩ | ⟨_, _, _, _, rfl⟩ |
      ⟨_, _, _, _, _, rfl⟩ <;> exact ⟨nofun, nofun⟩
  · rw [kind_of_mem_block h]
    exact ⟨nofun, nofun⟩

section Undecided

variable {c : Choice} {undecided : Bool}
  (hc : c.integrity.length = (catalog.block .unique).length)

include hc

variable (settings oracle clock undecided) in
/-- A choice that decides no more than the unique keys has flags of its own for the early
constraints only. -/
theorem exists_flags_eq : ∃ own : Assignment, own.length = catalog.early.length ∧
    (SearchTask.ofCatalog catalog settings oracle clock).flags c undecided =
      own ++ List.replicate catalog.late.length undecided := by
  refine ⟨catalog.structural.map (SearchTask.enables c) ++ c.integrity, ?_, ?_⟩
  · unfold early
    rw [length_append, length_append, length_map, hc]
  · have hrest : catalog.integrity.length - c.integrity.length = catalog.late.length := by
      unfold integrity late
      rw [hc, append_assoc, length_append]
      exact Nat.add_sub_cancel_left _ _
    rw [SearchTask.flags_ofCatalog, hrest]

theorem length_flags :
    ((SearchTask.ofCatalog catalog settings oracle clock).flags c undecided).length =
      catalog.entries.length := by
  obtain ⟨own, hown, heq⟩ := exists_flags_eq settings oracle clock undecided hc
  rw [heq, entries_eq_early_late, length_append, length_append, length_replicate,
    hown]

/-- The flag of an integrity constraint is the one for what is undecided. -/
theorem getElem?_flags_of_late {i : Nat} {e : Constraint} (hi : catalog.entries[i]? = some e)
    (hkind : e.kind = .notNull ∨ e.kind = .reference) :
    ((SearchTask.ofCatalog catalog settings oracle clock).flags c undecided)[i]? =
      some undecided := by
  obtain ⟨own, hown, heq⟩ := exists_flags_eq settings oracle clock undecided hc
  rw [entries_eq_early_late] at hi
  have hle : catalog.early.length ≤ i := by
    by_contra hlt
    rw [getElem?_append_left (Nat.lt_of_not_le hlt)] at hi
    -- An early place holds a constraint of another kind.
    have hearly := kind_of_mem_early (mem_of_getElem? hi)
    exact hkind.elim hearly.1 hearly.2
  rw [getElem?_append_right hle] at hi
  rw [heq, getElem?_append_right (hown.symm ▸ hle), hown, getElem?_replicate,
    if_pos (List.getElem?_eq_some_iff.mp hi).1]

end Undecided

/-- A constraint is chosen if one of its places has its flag on. -/
theorem mem_chosen_iff_getElem? {e : Constraint} {flags : Assignment} :
    e ∈ catalog.chosen flags ↔ ∃ i : Nat, catalog.entries[i]? = some e ∧ flags[i]? = some true := by
  rw [mem_chosen, mem_iff_getElem?]
  simp only [getElem?_zip_eq_some]

end Catalog

/-- **A table check takes undecided constraints to hold once a complete choice was answered.** The
constraints on nulls and references are not decided when tables are compared. Whatever the
templates, the settings, the oracle and the clock are: in each comparison their flags have a common
value, so the rule has all of them or none. The value is on if and only if the search answered a
complete choice before. Two comparisons treat these constraints in the same way unless the first
such answer lies between them. -/
theorem Catalog.undecided_enabled_iff_answered (catalog : Catalog) (settings : Settings)
    (oracle : Oracle) (clock : Nat → Nat) {flags : Assignment} {answered : Bool}
    (hcheck : (flags, answered) ∈
      Event.tableChecks (catalog.search settings oracle clock).final.trace) :
    flags.length = catalog.entries.length ∧
      (∀ (i : Nat) (e : Constraint), catalog.entries[i]? = some e →
        e.kind = .notNull ∨ e.kind = .reference → flags[i]? = some answered) ∧
      ∀ e ∈ catalog.entries, e.kind = .notNull ∨ e.kind = .reference →
        (e ∈ (catalog.rule flags).constraints ↔ answered = true) := by
  obtain ⟨c, hc, rfl⟩ := compares_final flags answered hcheck
  rw [SearchTask.ofCatalog_eq] at hc
  refine ⟨length_flags hc, fun i e => getElem?_flags_of_late hc, fun e he hkind => ?_⟩
  show e ∈ catalog.chosen _ ↔ _
  rw [mem_chosen_iff_getElem?]
  constructor
  · rintro ⟨i, hi, hon⟩
    rw [getElem?_flags_of_late hc hi hkind] at hon
    exact Option.some.inj hon
  · intro hanswered
    obtain ⟨i, hi⟩ := mem_iff_getElem?.mp he
    exact ⟨i, hi, by rw [getElem?_flags_of_late hc hi hkind, hanswered]⟩

/-- The second check in a search that removes a deduplication. The unique key is decided not to
hold, and the list that might be null is taken not to be. -/
theorem Catalog.undecided_enabled_iff_answered_dedup :
    ([true, true, true, false, true], true) ∈
        Event.tableChecks (Catalog.dedup.search {} Oracle.strict id).final.trace ∧
      [true, true, true, false, true].length = Catalog.dedup.entries.length ∧
      (∀ (i : Nat) (e : Constraint), Catalog.dedup.entries[i]? = some e →
        e.kind = .notNull ∨ e.kind = .reference →
          [true, true, true, false, true][i]? = some true) ∧
      ∀ e ∈ Catalog.dedup.entries, e.kind = .notNull ∨ e.kind = .reference →
        e ∈ (Catalog.dedup.rule [true, true, true, false, true]).constraints := by
  have hcheck : ([true, true, true, false, true], true) ∈
      Event.tableChecks (Catalog.dedup.search {} Oracle.strict id).final.trace := by
    decide +kernel
  obtain ⟨hlength, hflags, hrule⟩ := Catalog.undecided_enabled_iff_answered _ _ _ _ hcheck
  exact ⟨hcheck, hlength, hflags, fun e he hkind => (hrule e he hkind).mpr rfl⟩

/-- Both checks of that search. The first one, with the unique key, takes the list to be possibly
null. -/
theorem Catalog.undecided_change_in_dedup :
    ∃ (flags flags' : Assignment) (e : Constraint),
      Event.tableChecks (Catalog.dedup.search {} Oracle.strict id).final.trace =
        [(flags', true), (flags, false)] ∧
      e ∈ Catalog.dedup.entries ∧ e.kind = .notNull ∧
      e ∉ (Catalog.dedup.rule flags).constraints ∧ e ∈ (Catalog.dedup.rule flags').constraints :=
  ⟨[true, true, true, true, false], [true, true, true, false, true],
    .notNull ⟨.source, .table, 0⟩ ⟨.source, .attrs, 0⟩, by decide +kernel⟩

end QueryRules
