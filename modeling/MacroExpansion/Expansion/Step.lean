import MacroExpansion.Registry

/-!
# One step of expansion

A step offers a tree to the handlers of its kind, one after the other, until one of them does not
decline.  Each call takes a fresh scope, declined or not, and each replacement is recorded if a
trace is kept.
-/

namespace MacroExpansion

/-- One tree that a handler replaced by another. -/
structure Replacement where
  handler : String
  kind : String
  scope : Scope
  input : Tree
  output : Tree
  deriving DecidableEq

/-- How far the expansion of a node has come. -/
inductive Progress where
  /-- Not tried yet. -/
  | pending (tree : Tree)
  /-- Replaced, and to be tried again. -/
  | replaced (tree : Tree)
  /-- Declined by every handler. -/
  | stuck (tree : Tree)
  /-- A handler failed. -/
  | failed (report : Report)

namespace Progress

/-- Whether there is nothing more to do. -/
def isTerminal : Progress → Bool
  | pending _ => false
  | replaced _ => false
  | stuck _ => true
  | failed _ => true

end Progress

/-- What an expander changes while it runs. -/
structure ExpanderState where
  context : Context
  /-- The replacements so far, the latest first, if they are recorded. -/
  trace : Option (List Replacement)

namespace ExpanderState

/-- Starts outside of every invocation. -/
def initial (mainModule : String) (allocated : Nat) (tracing : Bool) : ExpanderState :=
  ⟨.initial mainModule allocated, if tracing then some [] else none⟩

/-- The recorded replacements, the oldest first. -/
def replacements (s : ExpanderState) : List Replacement := (s.trace.getD []).reverse

/-- Adds a replacement to the trace, if one is kept. -/
def record (s : ExpanderState) (r : Replacement) : ExpanderState :=
  { s with trace := s.trace.map (r :: ·) }

end ExpanderState

/-- Offers a tree to some handlers in order.  Together they decline it if each of them does, and
otherwise they do what the first of the others does. -/
def offerTo (tree : Tree) : List Handler → ExpanderState → Except Report Outcome × ExpanderState
  | [], s => (.ok .declined, s)
  | handler :: handlers, s =>
    match (handler.call tree).run s.context with
    | (.ok .declined, cx) => offerTo tree handlers { s with context := cx }
    | (.ok (.replaced output), cx) =>
      (.ok (.replaced output), ExpanderState.record { s with context := cx }
        ⟨handler.name, tree.kind, Scope.next s.context.allocated, tree, output⟩)
    | (.error e, cx) => (.error e, { s with context := cx })

namespace Registry

/-- Offers a tree to the handlers of its kind. -/
def offer (registry : Registry) (tree : Tree) (s : ExpanderState) :
    Except Report Outcome × ExpanderState :=
  offerTo tree (registry.lookup tree.kind) s

/-- Tries a tree once. -/
def tryTree (registry : Registry) (tree : Tree) (s : ExpanderState) : Progress × ExpanderState :=
  match registry.offer tree s with
  | (.ok .declined, s) => (.stuck tree, s)
  | (.ok (.replaced output), s) => (.replaced output, s)
  | (.error e, s) => (.failed e, s)

/-- One step from a node's progress; there is none from its end. -/
def step (registry : Registry) : Progress → ExpanderState → Progress × ExpanderState
  | .pending tree, s => registry.tryTree tree s
  | .replaced tree, s => registry.tryTree tree s
  | .stuck tree, s => (.stuck tree, s)
  | .failed e, s => (.failed e, s)

end Registry

end MacroExpansion
