import QueryRules.Batch
import QueryRules.Json

/-!
# Settings and pairs as JSON

A record is an object with named fields, each of which may be given once, or an array of the
fields in order. Fields of settings may be left out, and unknown fields are ignored.
-/

namespace QueryRules

/-- The fields of a record with the given names, in order. -/
def Json.record? (names : List String) : Json → Option (List (Option Json))
  | .obj fields =>
    if names.any fun n => 1 < fields.countP (·.1 = n) then none
    else some (names.map fun n => fields.lookup n)
  | .arr items =>
    if items.length ≤ names.length then
      some (items.map some ++ List.replicate (names.length - items.length) none)
    else none
  | _ => none

/-- Decode a field, or take the default if it is left out. -/
def Json.fieldOr {α : Type} (decode : Json → Option α) (default : α) : Option Json → Option α
  | none => some default
  | some j => decode j

namespace Settings

/-- Settings as JSON. -/
def toJson (s : Settings) : Json :=
  .obj [("timeout_ms", .ofOption .nat s.timeout),
    ("disable_output_breaker", .bool s.skipOutputCheck),
    ("disable_summation_breaker", .bool s.skipTableCheck), ("dry_run", .bool s.dryRun),
    ("canonicalize", .bool s.canonicalize)]

/-- Decode settings. -/
def ofJson? (j : Json) : Option Settings := do
  match ← j.record? ["timeout_ms", "disable_output_breaker", "disable_summation_breaker", "dry_run",
    "canonicalize"] with
  | [timeout, output, tables, dryRun, canonicalize] =>
    let default : Settings := {}
    return {
      timeout := ← Json.fieldOr (Json.option? Json.nat64?) default.timeout timeout
      skipOutputCheck := ← Json.fieldOr Json.bool? default.skipOutputCheck output
      skipTableCheck := ← Json.fieldOr Json.bool? default.skipTableCheck tables
      dryRun := ← Json.fieldOr Json.bool? default.dryRun dryRun
      canonicalize := ← Json.fieldOr Json.bool? default.canonicalize canonicalize }
  | _ => none

end Settings

namespace BatchSettings

/-- The settings of a batch as JSON. -/
def toJson (s : BatchSettings) : Json :=
  .obj [("threads", .ofOption .nat s.threads), ("enumerator", s.search.toJson)]

/-- Decode the settings of a batch. -/
def ofJson? (j : Json) : Option BatchSettings := do
  match ← j.record? ["threads", "enumerator"] with
  | [threads, search] =>
    return {
      threads := ← Json.fieldOr (Json.option? Json.nat64?) none threads
      search := ← Json.fieldOr Settings.ofJson? {} search }
  | _ => none

end BatchSettings

/-- Decode a pair of templates. -/
def TemplatePair.ofJson? (j : Json) : Option TemplatePair := do
  match ← j.record? ["source", "target"] with
  | [some source, some target] => return ⟨← source.str?, ← target.str?⟩
  | _ => none

end QueryRules
