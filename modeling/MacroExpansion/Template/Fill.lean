import MacroExpansion.Template.Match
import MacroExpansion.Report

/-!
# Filling a template

Filling replaces the holes of a template by what they are bound to.  This is where hygiene comes
from: an identifier that is written in the template is stamped with the scope of the invocation,
while one that comes in through a binding is left as it is.  A part of the template without a span
takes the span at which the template is used.
-/

namespace MacroExpansion

/-- What filling a template depends on. -/
structure Filling where
  bindings : Bindings
  mainModule : String
  scope : Scope
  /-- The place of parts that have none of their own. -/
  span : Option Span

namespace Filling

/-- A template fault at a part of the template. -/
def complain (f : Filling) (span : Option Span) (fault : TemplateFault) : Report :=
  .at? (span.or f.span) (.template fault)

/-- The tree that a hole stands for. -/
def single (f : Filling) (hole : Hole) (span : Option Span) : Except Report Tree :=
  match f.bindings.lookup hole.var with
  | some (.one tree) => .ok tree
  | some (.many _) => .error (f.complain span (.sequenceAsSingle hole.var))
  | none => .error (f.complain span (.unbound hole.var))

/-- The run of trees that a splice stands for. -/
def sequence (f : Filling) (hole : Hole) (span : Option Span) : Except Report (List Tree) :=
  match f.bindings.lookup hole.var with
  | some (.many trees) => .ok trees
  | some (.one _) => .error (f.complain span (.singleAsSplice hole.var))
  | none => .error (f.complain span (.unbound hole.var))

/-- An identifier of the template, stamped with the scope. -/
def ident (f : Filling) (name : String) (span : Option Span) : Except Report Tree :=
  match ScopedName.stamp name f.mainModule f.scope with
  | .ok stamped => .ok (.leaf (.ident stamped) (span.or f.span))
  | .error fault => .error (.at? (span.or f.span) (.name fault))

mutual

/-- Fills a template. -/
def fill (f : Filling) : Tree → Except Report Tree
  | .leaf (.antiquot hole) span => f.single hole span
  | .leaf (.splice hole) span => .error (f.complain span (.spliceOutsideList hole.var))
  | .leaf (.ident name) span => f.ident name span
  | .leaf (.atom text) span => .ok (.leaf (.atom text) (span.or f.span))
  | .node kind children span =>
    match f.fillList children with
    | .ok filled => .ok (.node kind filled (span.or f.span))
    | .error e => .error e

/-- Fills a list of children, in which a splice becomes a run. -/
def fillList (f : Filling) : List Tree → Except Report (List Tree)
  | [] => .ok []
  | .leaf (.splice hole) span :: rest =>
    match f.sequence hole span with
    | .error e => .error e
    | .ok run =>
      match f.fillList rest with
      | .ok filled => .ok (run ++ filled)
      | .error e => .error e
  | t :: rest =>
    match f.fill t with
    | .error e => .error e
    | .ok tree =>
      match f.fillList rest with
      | .ok filled => .ok (tree :: filled)
      | .error e => .error e

end

end Filling

end MacroExpansion
