import MacroExpansion.Json.Reader

/-!
# Settings

How trees are expanded, with a default for each setting, and the JSON form of the settings.
-/

namespace MacroExpansion

/-- How trees are expanded. -/
structure Settings where
  /-- The module that owns the scopes. -/
  mainModule : String := "Main"
  /-- The number of replacements allowed along one chain. -/
  maxDepth : Nat := 128
  /-- Whether replacements are recorded. -/
  trace : Bool := false
  deriving DecidableEq, Repr

namespace Settings

open Json Json.Reader

/-- What has been read of some settings. -/
structure Draft where
  mainModule : Option String
  maxDepth : Option Nat
  trace : Option Bool

/-- Takes the default for what has not been read. -/
def Draft.settings (draft : Draft) : Settings :=
  let default : Settings := {}
  ⟨draft.mainModule.getD default.mainModule, draft.maxDepth.getD default.maxDepth,
    draft.trace.getD default.trace⟩

/-- The number of replacements along one chain, which fits 64 bits. -/
def depthReader : Reader Nat := natural UInt64.size

/-- Reads settings. -/
def reader : Reader Settings :=
  record
    (do
      let mainModule ← item? true string
      let maxDepth ← item? false depthReader
      let trace ← item? false boolean
      return Draft.settings ⟨mainModule, maxDepth, trace⟩)
    (fun (draft : Draft) key =>
      match key with
      | "main_module" => return { draft with mainModule := ← once draft.mainModule string }
      | "max_depth" => return { draft with maxDepth := ← once draft.maxDepth depthReader }
      | "trace" => return { draft with trace := ← once draft.trace boolean }
      | _ => do
        member skip
        return draft)
    ⟨none, none, none⟩
    (fun draft => return draft.settings)

end Settings

end MacroExpansion
