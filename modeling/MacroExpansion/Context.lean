import MacroExpansion.Template.Fill

/-!
# The context of a macro invocation

A handler runs in a context: the scopes of the invocations it is nested in, the trees that they
work on, and the counter that scopes come from.  `inFreshScope` and `under` push onto one of
the two stacks, run a body, and pop again, whether the body succeeds or fails.
-/

namespace MacroExpansion

/-- The state that macro invocations share. -/
structure Context where
  /-- The module whose expansion this is. -/
  mainModule : String
  /-- The active scopes, innermost first. -/
  scopes : List Scope
  /-- The trees being worked on, innermost first. -/
  refs : List Tree
  /-- How many scopes have been handed out. -/
  allocated : Nat

namespace Context

/-- A context outside of every invocation. -/
def initial (mainModule : String) (allocated : Nat) : Context := ⟨mainModule, [], [], allocated⟩

/-! ## Looking around -/

def scope? (cx : Context) : Option Scope := cx.scopes.head?

def tree? (cx : Context) : Option Tree := cx.refs.head?

/-- The span of the innermost tree that has one. -/
def span? (cx : Context) : Option Span := cx.refs.findSome? Tree.span

/-- A complaint about the tree being worked on. -/
def complain (cx : Context) (fault : ExpansionFault) : Report :=
  .at? cx.span? (.expansion fault)

/-- A complaint about a given tree. -/
def complainAt (cx : Context) (tree : Tree) (fault : ExpansionFault) : Report :=
  .at? (tree.span.or cx.span?) (.expansion fault)

/-! ## Making trees -/

/-- Fills a template on behalf of the innermost invocation. -/
def fill (cx : Context) (template : Tree) (bindings : Bindings) : Except Report Tree :=
  match cx.scope? with
  | none => .error (.at? cx.span? (.template .noScope))
  | some scope => Filling.fill ⟨bindings, cx.mainModule, scope, cx.span?⟩ template

/-- An identifier that belongs to the innermost invocation. -/
def freshIdent (cx : Context) (base : String) : Except Report Tree :=
  match cx.scope? with
  | none => .error (cx.complain (.noScopeFor base))
  | some scope =>
    match ScopedName.stamp base cx.mainModule scope with
    | .ok name => .ok (.leaf (.ident name) cx.span?)
    | .error fault => .error (.of (.name fault))

/-! ## Nesting -/

/-- Hands out a scope. -/
def allocate : StateM Context Scope := fun cx =>
  (Scope.next cx.allocated, { cx with allocated := cx.allocated + 1 })

/-- Runs a body in a scope of its own. -/
def inFreshScope {α : Type} (body : StateM Context α) : StateM Context α := fun cx =>
  let (scope, cx) := allocate cx
  let (result, cx) := body { cx with scopes := scope :: cx.scopes }
  (result, { cx with scopes := cx.scopes.tail })

/-- Runs a body with a tree as the one being worked on. -/
def under {α : Type} (tree : Tree) (body : StateM Context α) : StateM Context α := fun cx =>
  let (result, cx) := body { cx with refs := tree :: cx.refs }
  (result, { cx with refs := cx.refs.tail })

/-! ## Balance -/

/-- A computation is balanced when it leaves the module and both stacks as they were, and takes no
scope back. -/
structure Balanced {α : Type} (x : StateM Context α) : Prop where
  mainModule : ∀ cx, (x cx).2.mainModule = cx.mainModule
  scopes : ∀ cx, (x cx).2.scopes = cx.scopes
  refs : ∀ cx, (x cx).2.refs = cx.refs
  allocated : ∀ cx, cx.allocated ≤ (x cx).2.allocated

namespace Balanced

variable {α : Type}

/-- Reading the context is balanced. -/
theorem read (f : Context → α) : Balanced (fun cx => (f cx, cx) : StateM Context α) where
  mainModule _ := rfl
  scopes _ := rfl
  refs _ := rfl
  allocated _ := Nat.le_refl _

theorem allocate : Balanced allocate where
  mainModule _ := rfl
  scopes _ := rfl
  refs _ := rfl
  allocated cx := Nat.le_succ cx.allocated

theorem inFreshScope {body : StateM Context α} (h : Balanced body) :
    Balanced (inFreshScope body) where
  mainModule _ := h.mainModule _
  scopes _ := congrArg List.tail (h.scopes _)
  refs _ := h.refs _
  allocated cx := Nat.le_trans (Nat.le_succ cx.allocated)
    (h.allocated ⟨cx.mainModule, Scope.next cx.allocated :: cx.scopes, cx.refs, cx.allocated + 1⟩)

theorem under {tree : Tree} {body : StateM Context α} (h : Balanced body) :
    Balanced (under tree body) where
  mainModule _ := h.mainModule _
  scopes _ := h.scopes _
  refs _ := congrArg List.tail (h.refs _)
  allocated cx := h.allocated { cx with refs := tree :: cx.refs }

end Balanced

end Context

end MacroExpansion
