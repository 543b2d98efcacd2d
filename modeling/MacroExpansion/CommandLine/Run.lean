import MacroExpansion.CommandLine.Arguments
import MacroExpansion.CommandLine.Diff
import MacroExpansion.Load
import MacroExpansion.Tree.Render

/-!
# The commands

`expand` prints the expanded trees, `trace` their replacements too, `decode` the parts of a scoped
name, and `check` the macros of some rule files.  What was printed before a failure stays printed.
-/

namespace MacroExpansion.CommandLine

/-- The result of a command: its output, and the report of a failure. -/
structure Result where
  output : List String
  failure : Option Report

/-- How a run of the program ends. -/
inductive Ending where
  /-- The arguments were not understood. -/
  | usage
  | ran (result : Result)

namespace Result

def fail (report : Report) : Result := ⟨[], some report⟩

/-- Output in front of a result. -/
def after (lines : List String) (r : Result) : Result := { r with output := lines ++ r.output }

end Result

/-! ## Printing -/

/-- Replacements as lines.  The first is shown in full, and the others by what differs from the
output before. -/
def replacementLines (erase : Bool) :
    (index : Nat) → (last : Option String) → List Replacement → List String
  | _, _, [] => []
  | index, last, r :: rest =>
    let output := r.output.render erase
    let header :=
      s!"--- Step {index}: {r.handler} on `{r.kind}` [scope {r.scope.render}] ---"
    let body :=
      match last with
      | none => [r.input.render erase, "=> " ++ output]
      | some last => (Diff.runs last output).map Diff.Run.render
    header :: body ++ "" :: replacementLines erase (index + 1) (some output) rest

/-- Scopes separated by blanks. -/
def scopesLine (scopes : List Scope) : String := String.ofList (Scope.joinDigits [' '] scopes)

/-- The parts of a scoped name as lines. -/
def nameLines (n : ScopedName) : List String :=
  [n.render, "base:   " ++ n.base]
    ++ n.imported.map (fun s => "import: " ++ s.moduleName ++ " " ++ scopesLine s.scopes)
    ++ ["module: " ++ n.mainModule ++ " " ++ scopesLine n.scopes]

/-- A macro as a line. -/
def ruleSetLine (set : RuleSet) : String :=
  s!"{set.name} ({set.kind}): {set.rules.length} rule(s)"

/-! ## Commands -/

/-- The settings in the file that is asked for, changed by the options. -/
def settingsOf (files : FileTree) (o : ExpandOptions) : Except Report Settings := do
  let settings ←
    match o.config with
    | some path => Load.loadSettings files path
    | none => .ok {}
  return { settings with
    mainModule := o.mainModule.getD settings.mainModule
    maxDepth := o.maxDepth.getD settings.maxDepth }

/-- The source text that reports quote, if one is asked for. -/
def sourceOf (files : FileTree) (o : ExpandOptions) : Except Report (Option Source) :=
  match o.source with
  | some path => do return some ⟨path, ← Load.readSource files path⟩
  | none => .ok none

/-- What an expansion needs: a session with the rules, the trees, and the source text for
reports. -/
def prepare (files : FileTree) (o : ExpandOptions) :
    Except Report (Session × List Tree × Option Source) := do
  let session := Session.initial (← settingsOf files o)
  let (session, _) ← session.loadRules files o.rules
  let trees ← Load.treesOfFile files o.input
  return (session, trees, ← sourceOf files o)

/-- Attaches the source text to a report, if there is one. -/
def attach (source : Option Source) (report : Report) : Report :=
  match source with
  | some source => report.withSource source
  | none => report

/-- Prints results up to the first failure. -/
def printResults (erase : Bool) (source : Option Source) :
    List (Except Report (Expanded Tree)) → Result
  | [] => ⟨[], none⟩
  | .error report :: _ => .fail (attach source report)
  | .ok expanded :: rest =>
    (printResults erase source rest).after [expanded.value.render erase]

/-- Expands trees and prints each with its replacements, up to the first failure. -/
def printTraces (session : Session) (erase : Bool) (source : Option Source) :
    (allocated : Nat) → List Tree → Option Result
  | _, [] => some ⟨[], none⟩
  | allocated, tree :: trees => do
    match ← session.expandTraced allocated tree with
    | (.error report, _) => return .fail (attach source report)
    | (.ok (expanded, replacements), allocated) =>
      let rest ← printTraces session erase source allocated trees
      return rest.after
        (replacementLines erase 0 none replacements ++ [expanded.value.render erase])

/-- All trees are expanded before the first is printed. -/
def runExpand (files : FileTree) (o : ExpandOptions) : Option Result :=
  match prepare files o with
  | .error report => some (.fail report)
  | .ok (session, trees, source) => do
    let (results, _) ← session.expandAll 0 trees
    return printResults o.erase source results

/-- Trees are expanded and printed one by one. -/
def runTrace (files : FileTree) (o : ExpandOptions) : Option Result :=
  match prepare files o with
  | .error report => some (.fail report)
  | .ok (session, trees, source) => printTraces session o.erase source 0 trees

def runDecode (name : String) : Result :=
  match ScopedName.decode name with
  | .error fault => .fail (.of (.name fault))
  | .ok parts => ⟨nameLines parts, none⟩

def runCheck (files : FileTree) (paths : List String) : Result :=
  match Load.loadRules files paths with
  | .error report => .fail report
  | .ok sets => ⟨sets.map ruleSetLine ++ [s!"ok: {sets.length} macro(s)"], none⟩

/-- Runs a command; there is no result if it goes on forever. -/
def runCommand (files : FileTree) : Command → Option Result
  | .expand options => runExpand files options
  | .trace options => runTrace files options
  | .decode name => some (runDecode name)
  | .check paths => some (runCheck files paths)
  | .version => some ⟨["hygiene 0.1.0"], none⟩

/-- Runs the program on its arguments. -/
def run (files : FileTree) (arguments : List String) : Option Ending :=
  match parse arguments with
  | none => some .usage
  | some command => (runCommand files command).map .ran

namespace Ending

/-- The exit status: `1` after a failure, and `2` for arguments that are not understood. -/
def status : Ending → UInt32
  | usage => 2
  | ran ⟨_, some _⟩ => 1
  | ran ⟨_, none⟩ => 0

/-- The whole output. -/
def output : Ending → String
  | usage => ""
  | ran result => String.join (result.output.map (· ++ "\n"))

/-- The report of a failure. -/
def failure? : Ending → Option Report
  | usage => none
  | ran result => result.failure

end Ending

end MacroExpansion.CommandLine
