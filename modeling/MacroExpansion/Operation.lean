import MacroExpansion.Context

/-!
# Operations on a context

Operations on a context run in order, and two of them open a scope or a reference for operations of
their own.  Running them gives a log with one event for each; the event of an operation with a
body comes after those of the body.
-/

namespace MacroExpansion

/-- An operation on a context. -/
inductive Operation where
  | fresh (body : List Operation)
  | ref (tree : Tree) (body : List Operation)
  | allocate
  | freshIdent (base : String)
  | quote (template : Tree) (bindings : Bindings)
  | error (text : String)
  | errorAt (tree : Tree) (text : String)
  /-- Looks at the whole context. -/
  | inspect

/-- What an operation gave. -/
inductive Event where
  | endFresh
  | endRef
  | allocated (scope : Scope)
  | ident (result : Except Report Tree)
  | quoted (result : Except Report Tree)
  | reported (report : Report)
  | inspected (cx : Context)

namespace Operation

mutual

/-- Runs an operation. -/
def run : Operation → Context → List Event × Context
  | fresh body, cx =>
    let (events, cx) := Context.inFreshScope (runAll body) cx
    (events ++ [.endFresh], cx)
  | ref tree body, cx =>
    let (events, cx) := Context.under tree (runAll body) cx
    (events ++ [.endRef], cx)
  | allocate, cx =>
    let (scope, cx) := Context.allocate cx
    ([.allocated scope], cx)
  | freshIdent base, cx => ([.ident (cx.freshIdent base)], cx)
  | quote template bindings, cx => ([.quoted (cx.fill template bindings)], cx)
  | error text, cx => ([.reported (cx.complain (.stated text))], cx)
  | errorAt tree text, cx => ([.reported (cx.complainAt tree (.stated text))], cx)
  | inspect, cx => ([.inspected cx], cx)

/-- Runs operations in order. -/
def runAll : List Operation → Context → List Event × Context
  | [], cx => ([], cx)
  | op :: ops, cx =>
    let (events, cx) := run op cx
    let (rest, cx) := runAll ops cx
    (events ++ rest, cx)

end

end Operation

end MacroExpansion
