import MacroExpansion.Tree.Basic
import MacroExpansion.Name.Decode

/-!
# Trees as text

A tree is shown as a parenthesised list headed by its kind.  Scoped identifiers are shown in full,
or erased to their base followed by a dagger, which keeps them apart from plain ones.
-/

namespace MacroExpansion

namespace Hole

/-- A hole as text. -/
def render (hole : Hole) : String := "$" ++ hole.var ++ ":" ++ hole.category.render

end Hole

namespace Leaf

/-- A leaf as text, with scopes erased if `erase` is set. -/
def render (erase : Bool) : Leaf → String
  | atom text => text
  | ident name =>
    if erase && ScopedName.hasScopes name then ScopedName.eraseScopes name ++ "✝" else name
  | antiquot hole => hole.render
  | splice hole => hole.render ++ "*"

end Leaf

namespace Tree

mutual

/-- A tree as text, with scopes erased if `erase` is set. -/
def render (erase : Bool) : Tree → String
  | leaf l _ => l.render erase
  | node kind children _ => "(" ++ kind ++ renderList erase children ++ ")"

/-- Children as text, each after a blank. -/
def renderList (erase : Bool) : List Tree → String
  | [] => ""
  | t :: ts => " " ++ render erase t ++ renderList erase ts

end

end Tree

end MacroExpansion
