import MacroExpansion.Rule.Basic
import MacroExpansion.Settings
import MacroExpansion.Expansion.Tree

/-!
# Sessions

A session holds the settings and the handlers for a run of expansions.  The counter of scopes is
not part of it: it is passed in and handed back, so that several sessions can share one.
-/

namespace MacroExpansion

/-- Settings and handlers. -/
structure Session where
  settings : Settings
  registry : Registry

namespace Session

/-- A session without handlers. -/
def initial (settings : Settings) : Session := ⟨settings, .empty⟩

def register (s : Session) (kind : String) (handler : Handler) : Session :=
  { s with registry := s.registry.register kind handler }

/-- Registers rule sets in order, each for its kind. -/
def registerAll (s : Session) (sets : List RuleSet) : Session :=
  sets.foldl (fun s set => s.register set.kind set.handler) s

def expander (s : Session) : Expander := ⟨s.registry, s.settings.maxDepth⟩

/-- A new expander's state, which records replacements if the settings say so. -/
def start (s : Session) (allocated : Nat) : ExpanderState :=
  .initial s.settings.mainModule allocated s.settings.trace

/-- Expands one tree. -/
def expand (s : Session) (allocated : Nat) (tree : Tree) :
    Option (Except Report (Expanded Tree) × Nat) := do
  let (result, state) ← s.expander.expand tree (s.start allocated)
  return (result, state.context.allocated)

/-- Expands one tree and gives its replacements too. -/
def expandTraced (s : Session) (allocated : Nat) (tree : Tree) :
    Option (Except Report (Expanded Tree × List Replacement) × Nat) := do
  let (result, state) ← s.expander.expand tree (.initial s.settings.mainModule allocated true)
  return (result.map (·, state.replacements), state.context.allocated)

variable {s : Session} {allocated : Nat} {tree : Tree}

section

variable {run : Except Report (Expanded Tree) × ExpanderState}

theorem expand_of_run (h : s.expander.expand tree (s.start allocated) = some run) :
    s.expand allocated tree = some (run.1, run.2.context.allocated) := by
  rw [expand, h]
  rfl

theorem expandTraced_of_run
    (h : s.expander.expand tree (.initial s.settings.mainModule allocated true) = some run) :
    s.expandTraced allocated tree =
      some (run.1.map (·, run.2.replacements), run.2.context.allocated) := by
  rw [expandTraced, h]
  rfl

end

/-- Expands trees from left to right, each on its own, going on after a failure.  The trees may be
expanded in parallel, with scopes from one counter; this is the schedule of a single thread, which
takes one tree after the other. -/
def expandAll (s : Session) :
    Nat → List Tree → Option (List (Except Report (Expanded Tree)) × Nat)
  | allocated, [] => some ([], allocated)
  | allocated, tree :: trees => do
    let (result, allocated) ← s.expand allocated tree
    let (results, allocated) ← s.expandAll allocated trees
    return (result :: results, allocated)

theorem expandAll_cons {trees : List Tree} {between after : Nat}
    {result : Except Report (Expanded Tree)} {results : List (Except Report (Expanded Tree))}
    (h : s.expand allocated tree = some (result, between))
    (h' : s.expandAll between trees = some (results, after)) :
    s.expandAll allocated (tree :: trees) = some (result :: results, after) := by
  rw [expandAll, h]
  simp only [Option.bind_eq_bind, Option.bind_some, h']
  rfl

/-- Takes some number of steps from a node's progress, and gives the progress after each. -/
def steps (s : Session) : Nat → Progress → ExpanderState → List Progress × ExpanderState
  | 0, _, state => ([], state)
  | count + 1, progress, state =>
    let (progress, state) := s.registry.step progress state
    let (rest, state) := s.steps count progress state
    (progress :: rest, state)

end Session

end MacroExpansion
