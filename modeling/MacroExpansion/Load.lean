import MacroExpansion.Rule.Json
import MacroExpansion.Session
import MacroExpansion.Files.Basic

/-!
# Loading rules, trees and settings

Rule files hold macros whose names must be unique over everything that is loaded together.  Loading
is all or nothing: a session takes up the macros only when every file is in order.
-/

namespace MacroExpansion

/-! ## Texts -/

/-- The report of a text that is refused as JSON. -/
def Json.Failure.report (failure : Json.Failure) (origin source : String) : Report :=
  let place := failure.offset.map fun offset => ⟨offset, offset⟩
  (Report.at? place (.load (.invalidJson origin failure.fault))).withSource ⟨origin, source⟩

/-- Checks macros in order: a name may be used once, and the rules must be in order. -/
def Definition.checkAll (origin source : String) :
    (seen : List String) → List Definition → Except Report (List RuleSet)
  | _, [] => .ok []
  | seen, ⟨name, kind, rules⟩ :: rest =>
    if seen.contains name then .error (.of (.load (.duplicateName name origin)))
    else
      match RuleSet.ofRules name kind rules with
      | .error e => .error (e.withSource ⟨origin, source⟩)
      | .ok set =>
        match checkAll origin source (name :: seen) rest with
        | .error e => .error e
        | .ok sets => .ok (set :: sets)

namespace Load

/-- The macros of a text; `origin` names it in reports. -/
def parseRules (source origin : String) : Except Report (List RuleSet) :=
  match Json.decode Definition.fileReader source with
  | .error failure => .error (failure.report origin source)
  | .ok definitions => Definition.checkAll origin source [] definitions

/-- The trees of a text, which holds an array of them or one. -/
def parseTrees (source origin : String) : Except Report (List Tree) :=
  match Json.decode Tree.listReader source with
  | .error failure => .error (failure.report origin source)
  | .ok trees => .ok trees

/-! ## Files -/

/-- The text of a file. -/
def readSource (files : FileTree) (path : String) : Except Report String :=
  match files.readText path with
  | .error fault => .error (.of (.load (.cannotRead path fault)))
  | .ok text => .ok text

/-- The rule files that a path stands for. -/
def discover (files : FileTree) (root : String) : Except Report (List String) :=
  match files.ruleFiles root with
  | .error fault => .error (.of (.load (.cannotWalk root fault)))
  | .ok paths => .ok paths

/-- The macros of a file. -/
def rulesOfFile (files : FileTree) (path : String) : Except Report (List RuleSet) := do
  parseRules (← readSource files path) path

/-- The trees of a file. -/
def treesOfFile (files : FileTree) (path : String) : Except Report (List Tree) := do
  parseTrees (← readSource files path) path

/-- Refuses a macro of a file whose name is among those loaded before. -/
def checkNames (seen : List String) (path : String) : List RuleSet → Except Report Unit
  | [] => .ok ()
  | set :: sets =>
    if seen.contains set.name then .error (.of (.load (.duplicateName set.name path)))
    else checkNames seen path sets

/-- Adds the macros of some files to those loaded before. -/
def loadFiles (files : FileTree) : List RuleSet → List String → Except Report (List RuleSet)
  | loaded, [] => .ok loaded
  | loaded, path :: paths => do
    let sets ← rulesOfFile files path
    checkNames (loaded.map (·.name)) path sets
    loadFiles files (loaded ++ sets) paths

/-- Adds the macros under some paths to those loaded before. -/
def loadPaths (files : FileTree) : List RuleSet → List String → Except Report (List RuleSet)
  | loaded, [] => .ok loaded
  | loaded, root :: roots => do
    let paths ← discover files root
    let loaded ← loadFiles files loaded paths
    loadPaths files loaded roots

/-- The macros of files and directories, in the order of loading. -/
def loadRules (files : FileTree) (roots : List String) : Except Report (List RuleSet) :=
  loadPaths files [] roots

/-- The settings in a file. -/
def loadSettings (files : FileTree) (path : String) : Except Report Settings :=
  match files.readText path with
  | .error fault => .error (.of (.load (.cannotReadConfig path fault)))
  | .ok text =>
    match Json.decode Settings.reader text with
    | .error failure => .error (.of (.load (.invalidConfig path failure.fault)))
    | .ok settings => .ok settings

end Load

/-- Loads macros into a session, and gives their number. -/
def Session.loadRules (s : Session) (files : FileTree) (roots : List String) :
    Except Report (Session × Nat) :=
  match Load.loadRules files roots with
  | .error e => .error e
  | .ok sets => .ok (s.registerAll sets, sets.length)

end MacroExpansion
