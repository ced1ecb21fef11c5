import DeferredLog.Import
import DeferredLog.Notice
import DeferredLog.Path
import DeferredLog.Text.Quoted

/-!
# The import of the logger

Which import of a program binds the logger module: the first one whose specifier leads to that
module. Only imports that bind a default or named local name are looked up, and none behind the one
that is found.

* `Binding.search` finds the import, and says what was looked up on the way.
* `Binding.search_lookups_prefix`: the lookups are the first ones of those that all imports ask for.
-/

namespace DeferredLog

/-- The module that a specifier names in the module that imports it, if it can be found. -/
abbrev Resolver := (specifier importer : String) → Option String

/-- A specifier that was looked up, and what it led to. -/
structure Lookup where
  /-- What was looked up. -/
  specifier : String
  /-- The module found. -/
  found : Option String
  deriving DecidableEq, Repr

/-- The import that binds the logger. -/
structure Binding where
  /-- The names that it gives the logger. -/
  names : List String
  /-- Its bytes. -/
  span : Span
  /-- The module that it leads to. -/
  module : String
  deriving DecidableEq, Repr

/-- The specifier to look up for an import, if it may bind the logger. -/
def Import.candidate? (record : Import) : Option String :=
  if record.isStatic && !record.localNames.isEmpty then record.specifier else none

namespace Binding

/-- The result of a search: what was looked up, and the import found. -/
structure Search where
  /-- The lookups in order. -/
  lookups : List Lookup
  /-- The import found. -/
  binding : Option Binding
  deriving DecidableEq, Repr

/-- The module that an import leads to, if that is the wanted one. -/
def wanted? (root target : String) (found : Option String) : Option String :=
  found.filter fun module => Path.inProject? module root = some target

/-- Searches some imports for the first that leads to the target, a path below the root. -/
def search (resolve : String → Option String) (root target : String) : List Import → Search
  | [] => ⟨[], none⟩
  | record :: records =>
    match record.candidate? with
    | none => search resolve root target records
    | some specifier =>
      let lookup : Lookup := ⟨specifier, resolve specifier⟩
      match wanted? root target lookup.found with
      | some module => ⟨[lookup], some ⟨record.localNames, record.span, module⟩⟩
      | none =>
        let rest := search resolve root target records
        ⟨lookup :: rest.lookups, rest.binding⟩

/-- The notices of a search in a file: what could not be found. -/
def Search.notices (file : String) (result : Search) : List Notice :=
  (result.lookups.filter (·.found.isNone)).map fun lookup =>
    ⟨.debug, file ++ ": cannot resolve " ++ Text.quote lookup.specifier ++ ", skipping"⟩

theorem search_lookups_prefix (resolve : String → Option String) (root target : String)
    (records : List Import) :
    (search resolve root target records).lookups.map (·.specifier) <+:
      records.filterMap Import.candidate? := by
  induction records with
  | nil => simp [search]
  | cons record records ih =>
    rw [search]
    split
    · rename_i h
      simpa [h] using ih
    · rename_i specifier h
      dsimp only
      split
      · simp [h]
      · simpa [h] using ih

end Binding

end DeferredLog
