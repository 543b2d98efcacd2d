import MacroExpansion.Handler

/-!
# Scripts

A script is a handler written down as data: what to make of the tree it is given, in terms of the
operations of the context.  A script is balanced by its shape (`balanced_run`), so that every
script is a handler.
-/

namespace MacroExpansion

/-- What to make of a tree.  A script that asks for a child which is not there declines. -/
inductive Script where
  | decline
  /-- Always this tree. -/
  | constant (tree : Tree)
  /-- The tree itself. -/
  | same
  /-- A node of this kind around the tree. -/
  | wrap (kind : String)
  /-- A node of this kind with the children of the tree. -/
  | retag (kind : String)
  /-- One of the children. -/
  | child (index : Nat)
  /-- A template, filled by these bindings. -/
  | quote (template : Tree) (bindings : Bindings)
  /-- A template, filled by what a pattern binds; declines if the pattern does not match. -/
  | matchThen (pattern template : Tree)
  /-- A node of this kind with one new identifier twice. -/
  | twice (base kind : String)
  /-- The active scopes as a token. -/
  | scopes
  | fail (text : String)
  /-- Fails at one of the children. -/
  | failAt (index : Nat) (text : String)
  /-- Fails with a report as it is. -/
  | raise (report : Report)
  /-- Goes on with one of the children as the tree being worked on. -/
  | underChild (index : Nat) (next : Script)
  /-- Goes on with a given tree as the one being worked on. -/
  | underTree (tree : Tree) (next : Script)
  /-- Goes on in a scope of its own. -/
  | fresh (next : Script)
  /-- Asks whether all children are this token. -/
  | ifAll (text : String) (yes no : Script)
  /-- Asks for the number of children. -/
  | ifArity (count : Nat) (yes no : Script)

namespace Script

/-- The active scopes as text, the outermost first. -/
def renderScopes (cx : Context) : String :=
  "[" ++ String.ofList (Scope.joinDigits [','] cx.scopes.reverse) ++ "]"

/-- Runs a script on a tree. -/
def run : Script → Tree → HandlerM Outcome
  | decline, _ => .ofContext fun _ => .ok .declined
  | constant output, _ => .ofContext fun _ => .ok (.replaced output)
  | same, tree => .ofContext fun _ => .ok (.replaced tree)
  | wrap kind, tree => .ofContext fun _ => .ok (.replaced (.node kind [tree] none))
  | retag kind, tree => .ofContext fun _ => .ok (.replaced (.node kind tree.children none))
  | child index, tree => .ofContext fun _ =>
    match tree.children[index]? with
    | some t => .ok (.replaced t)
    | none => .ok .declined
  | quote template bindings, _ => .ofContext fun cx =>
    (cx.fill template bindings).map .replaced
  | matchThen pattern template, tree => .ofContext fun cx =>
    match pattern.match? tree with
    | some bindings => (cx.fill template bindings).map .replaced
    | none => .ok .declined
  | twice base kind, _ => .ofContext fun cx =>
    (cx.freshIdent base).map fun ident => .replaced (.node kind [ident, ident] none)
  | scopes, _ => .ofContext fun cx => .ok (.replaced (.leaf (.atom (renderScopes cx)) none))
  | fail text, _ => .ofContext fun cx => .error (cx.complain (.stated text))
  | failAt index text, tree => .ofContext fun cx =>
    match tree.children[index]? with
    | some t => .error (cx.complainAt t (.stated text))
    | none => .ok .declined
  | raise report, _ => .ofContext fun _ => .error report
  | underChild index next, tree =>
    match tree.children[index]? with
    | some t => .under t (next.run tree)
    | none => .ofContext fun _ => .ok .declined
  | underTree ref next, tree => .under ref (next.run tree)
  | fresh next, tree => .inFreshScope (next.run tree)
  | ifAll text yes no, tree =>
    if tree.children.all (·.atom? == some text) then yes.run tree else no.run tree
  | ifArity count yes no, tree =>
    if tree.children.length = count then yes.run tree else no.run tree

theorem balanced_run (script : Script) (tree : Tree) : Context.Balanced (script.run tree).run := by
  induction script with
  | underChild index next ih =>
    dsimp only [run]
    split
    · exact ih.under
    · exact .read _
  | underTree ref next ih => exact ih.under
  | fresh next ih => exact ih.inFreshScope
  | ifAll text yes no ihYes ihNo =>
    dsimp only [run]
    split
    · exact ihYes
    · exact ihNo
  | ifArity count yes no ihYes ihNo =>
    dsimp only [run]
    split
    · exact ihYes
    · exact ihNo
  | _ => exact .read _

/-- A script as a handler. -/
def handler (name : String) (script : Script) : Handler where
  name := name
  attempt := script.run
  balanced := script.balanced_run

end Script

end MacroExpansion
