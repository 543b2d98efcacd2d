import MacroExpansion.Tree.Basic
import MacroExpansion.Name.Decode

/-!
# Matching a template against a tree

A template matches a tree of the same shape and binds its holes on the way.  A variable that
occurs twice must stand for the same tree up to spans, and the first binding is kept.  Identifiers
match by their bases.  In a list of children the patterns before a splice are matched first, then
those after it, and the splice takes the run that is left.
-/

namespace MacroExpansion

/-- What a variable stands for. -/
inductive Binding where
  | one (tree : Tree)
  | many (trees : List Tree)
  deriving DecidableEq

namespace Binding

/-- Equality of bindings up to spans. -/
def sameUpToSpans : Binding → Binding → Bool
  | one a, one b => a.sameUpToSpans b
  | many as, many bs => Tree.sameUpToSpansList as bs
  | _, _ => false

end Binding

/-- The bindings of variables; a variable has at most one. -/
abbrev Bindings := List (String × Binding)

namespace Bindings

/-- Binds a variable, unless it is bound to something else. -/
def bind? (bindings : Bindings) (var : String) (value : Binding) : Option Bindings :=
  match bindings.lookup var with
  | some bound => if bound.sameUpToSpans value then some bindings else none
  | none => some ((var, value) :: bindings)

end Bindings

namespace Tree

mutual

/-- Matches a template against a tree, starting from the bindings made so far. -/
def matchInto : (template input : Tree) → Bindings → Option Bindings
  | leaf (.antiquot hole) _, input, bindings =>
    if hole.category.accepts input then bindings.bind? hole.var (.one input) else none
  | leaf (.atom expected) _, leaf (.atom actual) _, bindings =>
    if expected = actual then some bindings else none
  | leaf (.ident expected) _, leaf (.ident actual) _, bindings =>
    if ScopedName.eraseScopes expected = ScopedName.eraseScopes actual then some bindings else none
  | node kind patterns _, node kind' inputs _, bindings =>
    if kind = kind' then matchChildren patterns inputs bindings else none
  | _, _, _ => none

/-- Matches a list of children, of which the first splice takes a run. -/
def matchChildren : (patterns inputs : List Tree) → Bindings → Option Bindings
  | [], [], bindings => some bindings
  | [], _ :: _, _ => none
  | leaf (.splice hole) _ :: patterns, inputs, bindings =>
    let length := inputs.length - patterns.length
    if inputs.length < patterns.length then none
    else
      match matchPairs patterns (inputs.drop length) bindings with
      | none => none
      | some bindings =>
        if (inputs.take length).all hole.category.accepts then
          bindings.bind? hole.var (.many (inputs.take length))
        else none
  | _ :: _, [], _ => none
  | pattern :: patterns, input :: inputs, bindings =>
    match matchInto pattern input bindings with
    | none => none
    | some bindings => matchChildren patterns inputs bindings

/-- Matches patterns and trees one by one, as far as both lists go. -/
def matchPairs : (patterns inputs : List Tree) → Bindings → Option Bindings
  | pattern :: patterns, input :: inputs, bindings =>
    match matchInto pattern input bindings with
    | none => none
    | some bindings => matchPairs patterns inputs bindings
  | _, _, bindings => some bindings

end

/-- The bindings under which a template matches a tree; `none` when their shapes differ. -/
def match? (template input : Tree) : Option Bindings := matchInto template input []

end Tree

end MacroExpansion
