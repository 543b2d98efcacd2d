import MacroExpansion.Rule.Basic
import MacroExpansion.Tree.Json

/-!
# Rules as JSON

A rule file is a record of macros, each with its name, its kind and its rules.  A rule has a
pattern and an action, which is the first of its `template` and `error` members.
-/

namespace MacroExpansion

open Json Json.Reader

/-- A macro as it is written in a file, before its rules are checked. -/
structure Definition where
  name : String
  kind : String
  rules : List Rule

namespace Rule

/-- What has been read of a rule: the pattern, and the text of its action. -/
structure Draft where
  pattern : Option Tree
  action : Option (String × List Char)

/-- Reads the action of a rule from its key and its text. -/
def readAction : String × List Char → Reader RuleAction
  | (key, cs) => do
    if key = "template" then return .template (← given (← attempt Tree.templateReader cs))
    else return .error (← given (← attempt string cs))

/-- Reads a rule. -/
def reader : Reader Rule :=
  object
    (fun (draft : Draft) key => do
      if key = "pattern" then return { draft with pattern := ← once draft.pattern Tree.reader }
      let cs ← member text
      if key = "template" ∨ key = "error" then
        return { draft with action := draft.action.or (some (key, cs)) }
      return draft)
    ⟨none, none⟩
    (fun draft => do
      let pattern ← given draft.pattern
      let action ← readAction (← given draft.action)
      return ⟨pattern, action⟩)

end Rule

namespace Definition

/-- What has been read of a macro. -/
structure Draft where
  name : Option String
  kind : Option String
  rules : Option (List Rule)

/-- Reads a macro. -/
def reader : Reader Definition :=
  record
    (do return ⟨← item true string, ← item false string, ← item false (array Rule.reader)⟩)
    (fun (draft : Draft) key =>
      match key with
      | "name" => return { draft with name := ← once draft.name string }
      | "kind" => return { draft with kind := ← once draft.kind string }
      | "rules" => return { draft with rules := ← once draft.rules (array Rule.reader) }
      | _ => do
        member skip
        return draft)
    ⟨none, none, none⟩
    (fun draft => do return ⟨← given draft.name, ← given draft.kind, ← given draft.rules⟩)

/-- Reads the macros of a rule file; there need not be any. -/
def fileReader : Reader (List Definition) :=
  record
    (do return (← item? true (array reader)).getD [])
    (fun (macros : Option (List Definition)) key =>
      if key = "macros" then once macros (array reader)
      else do
        member skip
        return macros)
    none
    (fun macros => return macros.getD [])

end Definition

end MacroExpansion
