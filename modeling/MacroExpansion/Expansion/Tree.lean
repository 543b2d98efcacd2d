import MacroExpansion.Expansion.Step

/-!
# Expanding a tree

A node is replaced until it is stuck, then its children are expanded from left to right, and if
one of them changed the node is visited again, since a handler may accept it now.  A budget counts
the replacements left along one chain: a node passes what it has left on to its children, and
running out of it is a fault.  Nothing bounds the visits.  Handlers that decide by the tree alone
let every node settle, but one that looks at the scopes, say, may keep a run going forever, and then
there is no result (`none`).
-/

namespace MacroExpansion

/-- What expands trees: the handlers, and the number of replacements allowed along one chain. -/
structure Expander where
  registry : Registry
  limit : Nat

/-- The result of expanding something, and whether it was changed on the way.  A tree is changed
when a handler replaces it and when it is rebuilt around other children. -/
structure Expanded (α : Type) where
  value : α
  changed : Bool
  deriving DecidableEq

/-- Whether the expansion of a tree between two contexts is another object than the tree.  After a
change it may still be the same one: the handlers may have come back to the tree itself. -/
def Registry.moved (registry : Registry) (before after : Context) (tree : Tree)
    (expanded : Expanded Tree) : Bool :=
  expanded.changed && !(decide (expanded.value = tree) && registry.sharing before after tree)

namespace Expander

/-- A visit of a tree: the replacements left for it, the span of the tree that the chain of
replacements began with, and whether it was changed before it came to be what it is now. -/
structure Visit where
  budget : Nat
  origin : Option Span
  changed : Bool
  tree : Tree

/-- Visits of trees, one after the other. -/
structure Visits where
  budget : Nat
  trees : List Tree

section

variable (e : Expander)

mutual

/-- Expands the tree of a visit. -/
def Visit.expand (visit : Visit) :
    StateT ExpanderState Option (Except Report (Expanded Tree)) := fun s =>
  match e.registry.offer visit.tree s with
  | (.error report, s) => some (.error report, s)
  | (.ok (.replaced output), s) =>
    match visit.budget with
    | 0 => some (.error (.at? visit.origin (.recursionLimit e.limit output.kind)), s)
    | budget + 1 => (Visit.mk budget visit.origin true output).expand.run s
  | (.ok .declined, s) =>
    match visit.tree with
    | .leaf l span => some (.ok ⟨.leaf l span, visit.changed⟩, s)
    | .node kind children span => do
      match ← (Visits.mk visit.budget children).expand.run s with
      | (.error report, s) => return (.error report, s)
      | (.ok ⟨_, false⟩, s) => return (.ok ⟨.node kind children span, visit.changed⟩, s)
      | (.ok ⟨children', true⟩, s) =>
        (Visit.mk visit.budget visit.origin true (.node kind children' span)).expand.run s
partial_fixpoint

/-- Expands trees from left to right, up to the first failure. -/
def Visits.expand (visits : Visits) :
    StateT ExpanderState Option (Except Report (Expanded (List Tree))) := fun s =>
  match visits.trees with
  | [] => some (.ok ⟨[], false⟩, s)
  | tree :: rest => do
    match ← (Visit.mk visits.budget tree.span false tree).expand.run s with
    | (.error report, s) => return (.error report, s)
    | (.ok expanded, s₁) =>
      let moved := e.registry.moved s.context s₁.context tree expanded
      match ← (Visits.mk visits.budget rest).expand.run s₁ with
      | (.error report, s) => return (.error report, s)
      | (.ok ⟨rest', moved'⟩, s) => return (.ok ⟨expanded.value :: rest', moved || moved'⟩, s)
partial_fixpoint

end

end

/-- Expands a tree on a visit. -/
def expandTree (e : Expander) (budget : Nat) (origin : Option Span) (changed : Bool)
    (tree : Tree) (s : ExpanderState) : Option (Except Report (Expanded Tree) × ExpanderState) :=
  (Visit.mk budget origin changed tree).expand e s

/-- Expands trees from left to right. -/
def expandList (e : Expander) (budget : Nat) (trees : List Tree) (s : ExpanderState) :
    Option (Except Report (Expanded (List Tree)) × ExpanderState) :=
  (Visits.mk budget trees).expand e s

section

variable {e : Expander} {budget : Nat} {origin : Option Span} {changed : Bool} {tree : Tree}
  {s s₁ : ExpanderState}

theorem expandTree_of_error {report : Report}
    (h : e.registry.offer tree s = (.error report, s₁)) :
    e.expandTree budget origin changed tree s = some (.error report, s₁) := by
  rw [expandTree, Visit.expand, h]

theorem expandTree_zero {output : Tree}
    (h : e.registry.offer tree s = (.ok (.replaced output), s₁)) :
    e.expandTree 0 origin changed tree s =
      some (.error (.at? origin (.recursionLimit e.limit output.kind)), s₁) := by
  rw [expandTree, Visit.expand, h]

theorem expandTree_succ {output : Tree}
    (h : e.registry.offer tree s = (.ok (.replaced output), s₁)) :
    e.expandTree (budget + 1) origin changed tree s =
      e.expandTree budget origin true output s₁ := by
  rw [expandTree, Visit.expand, h]
  rfl

theorem expandTree_leaf {l : Leaf} {span : Option Span}
    (h : e.registry.offer (.leaf l span) s = (.ok .declined, s₁)) :
    e.expandTree budget origin changed (.leaf l span) s =
      some (.ok ⟨.leaf l span, changed⟩, s₁) := by
  rw [expandTree, Visit.expand, h]

theorem expandTree_node {kind : String} {children : List Tree} {span : Option Span}
    (h : e.registry.offer (.node kind children span) s = (.ok .declined, s₁)) :
    e.expandTree budget origin changed (.node kind children span) s =
      (e.expandList budget children s₁).bind fun
        | (.error report, s₂) => some (.error report, s₂)
        | (.ok ⟨_, false⟩, s₂) => some (.ok ⟨.node kind children span, changed⟩, s₂)
        | (.ok ⟨children', true⟩, s₂) =>
          e.expandTree budget origin true (.node kind children' span) s₂ := by
  rw [expandTree, Visit.expand, h]
  rfl

/-- A node whose children changed is visited again. -/
theorem expandTree_node_of_changed {kind : String} {children children' : List Tree}
    {span : Option Span} {s₂ : ExpanderState}
    (h : e.registry.offer (.node kind children span) s = (.ok .declined, s₁))
    (hchildren : e.expandList budget children s₁ = some (.ok ⟨children', true⟩, s₂)) :
    e.expandTree budget origin changed (.node kind children span) s =
      e.expandTree budget origin true (.node kind children' span) s₂ := by
  rw [expandTree_node h, hchildren]
  rfl

theorem expandList_nil : e.expandList budget [] s = some (.ok ⟨[], false⟩, s) := by
  rw [expandList, Visits.expand]

theorem expandList_cons {trees : List Tree} :
    e.expandList budget (tree :: trees) s =
      (e.expandTree budget tree.span false tree s).bind fun
        | (.error report, s₁) => some (.error report, s₁)
        | (.ok out, s₁) => (e.expandList budget trees s₁).bind fun
          | (.error report, s₂) => some (.error report, s₂)
          | (.ok ⟨outs, moved⟩, s₂) =>
            some (.ok ⟨out.value :: outs, e.registry.moved s.context s₁.context tree out || moved⟩,
              s₂) := by
  rw [expandList, Visits.expand]
  rfl

theorem expandList_cons_of_ok {trees : List Tree} {out : Expanded Tree}
    (h : e.expandTree budget tree.span false tree s = some (.ok out, s₁)) :
    e.expandList budget (tree :: trees) s =
      (e.expandList budget trees s₁).bind fun
        | (.error report, s₂) => some (.error report, s₂)
        | (.ok ⟨outs, moved⟩, s₂) =>
          some (.ok ⟨out.value :: outs, e.registry.moved s.context s₁.context tree out || moved⟩,
            s₂) := by
  rw [expandList_cons, h]
  rfl

end

/-- Expands a tree completely. -/
def expand (e : Expander) (tree : Tree) (s : ExpanderState) :
    Option (Except Report (Expanded Tree) × ExpanderState) :=
  e.expandTree e.limit tree.span false tree s

/-- Expands trees one after the other, going on after a failure. -/
def expandEach (e : Expander) :
    List Tree → ExpanderState → Option (List (Except Report (Expanded Tree)) × ExpanderState)
  | [], s => some ([], s)
  | tree :: rest, s => do
    let (result, s) ← e.expand tree s
    let (results, s) ← e.expandEach rest s
    return (result :: results, s)

theorem expandEach_cons {e : Expander} {tree : Tree} {trees : List Tree} {s s₁ s₂ : ExpanderState}
    {result : Except Report (Expanded Tree)} {results : List (Except Report (Expanded Tree))}
    (h : e.expand tree s = some (result, s₁)) (h' : e.expandEach trees s₁ = some (results, s₂)) :
    e.expandEach (tree :: trees) s = some (result :: results, s₂) := by
  rw [expandEach, h]
  simp only [Option.bind_eq_bind, Option.bind_some, h']
  rfl

end Expander

end MacroExpansion
