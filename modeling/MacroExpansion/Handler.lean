import MacroExpansion.Context

/-!
# Handlers

A handler is a macro: given a tree, it declines, replaces the tree, or fails.  Declining only means
that another handler may be tried, while failing ends the whole expansion.
-/

namespace MacroExpansion

/-- What a handler makes of a tree. -/
inductive Outcome where
  | declined
  | replaced (tree : Tree)

/-- Computations of handlers: they may fail, and work in a context. -/
abbrev HandlerM := ExceptT Report (StateM Context)

namespace HandlerM

variable {α : Type}

/-- A value computed from the context, which stays as it is. -/
def ofContext (f : Context → Except Report α) : HandlerM α := ExceptT.mk fun cx => (f cx, cx)

/-- Runs a body in a scope of its own. -/
def inFreshScope (body : HandlerM α) : HandlerM α := ExceptT.mk (Context.inFreshScope body.run)

/-- Runs a body with a tree as the one being worked on. -/
def under (tree : Tree) (body : HandlerM α) : HandlerM α :=
  ExceptT.mk (Context.under tree body.run)

/-- Gives a failure without a place the span of the tree being worked on. -/
def located (body : HandlerM α) : HandlerM α := ExceptT.mk fun cx =>
  match body.run cx with
  | (.ok a, cx) => (.ok a, cx)
  | (.error e, cx) => (.error (e.orAt cx.span?), cx)

end HandlerM

/-- A named macro.  Its computations are balanced: whatever they push, they pop. -/
structure Handler where
  name : String
  attempt : Tree → HandlerM Outcome
  balanced : ∀ tree, Context.Balanced (attempt tree).run

namespace Handler

/-- A handler that declines every tree. -/
def declining (name : String) : Handler where
  name := name
  attempt _ := HandlerM.ofContext fun _ => .ok .declined
  balanced _ := .read _

/-- Calls a handler on a tree: in a scope of its own, and with the tree as the one being worked
on. -/
def call (h : Handler) (tree : Tree) : HandlerM Outcome :=
  HandlerM.inFreshScope (HandlerM.under tree (HandlerM.located (h.attempt tree)))

end Handler

end MacroExpansion
