import MacroExpansion.Span

/-!
# Trees

The trees that macros work on.  A leaf is a token, an identifier or a hole, and a node has a kind
and children; every subtree may carry the span it was read from.  Holes make a tree a template: an
antiquotation stands for one tree, and a splice for a run of siblings.
-/

namespace MacroExpansion

/-- What a hole accepts. -/
inductive Category where
  /-- Any tree. -/
  | any
  /-- An identifier. -/
  | ident
  /-- A token. -/
  | atom
  /-- A token that is an unsigned decimal numeral. -/
  | num
  /-- A node of exactly this kind. -/
  | kind (name : String)
  deriving DecidableEq, Repr

/-- A named place in a template. -/
structure Hole where
  var : String
  category : Category
  deriving DecidableEq, Repr

/-- A tree without children. -/
inductive Leaf where
  /-- A keyword, a punctuation mark or a literal. -/
  | atom (text : String)
  /-- An identifier, plain or scoped. -/
  | ident (name : String)
  /-- A place for one tree. -/
  | antiquot (hole : Hole)
  /-- A place for a run of siblings. -/
  | splice (hole : Hole)
  deriving DecidableEq, Repr

/-- A tree, with the spans of its parts. -/
inductive Tree where
  | leaf (leaf : Leaf) (span : Option Span)
  | node (kind : String) (children : List Tree) (span : Option Span)

/-- Whether a hole stands for one tree or for a run. -/
inductive HoleForm where
  | single
  | sequence
  deriving DecidableEq, Repr

namespace HoleForm

/-- A form in words. -/
def describe : HoleForm → String
  | single => "single subtree"
  | sequence => "splice"

end HoleForm

/-- A numeral is a nonempty text of ASCII digits. -/
def isNumeral (text : String) : Bool := !text.isEmpty && text.toList.all Char.isDigit

/-- The kind that a leaf counts as, so that macros can be registered for leaves too. -/
def Leaf.kind : Leaf → String
  | atom _ => "atom"
  | ident _ => "ident"
  | antiquot _ => "antiquot"
  | splice _ => "splice"

namespace Tree

/-! ## Parts -/

def span : Tree → Option Span
  | leaf _ span => span
  | node _ _ span => span

/-- The same tree at another place; the spans of its children stay. -/
def withSpan (span : Option Span) : Tree → Tree
  | leaf l _ => leaf l span
  | node kind children _ => node kind children span

/-- The kind that macros are registered for. -/
def kind : Tree → String
  | leaf l _ => l.kind
  | node kind _ _ => kind

/-- The children of a node; a leaf has none. -/
def children : Tree → List Tree
  | leaf _ _ => []
  | node _ children _ => children

def ident? : Tree → Option String
  | leaf (.ident name) _ => some name
  | _ => none

def atom? : Tree → Option String
  | leaf (.atom text) _ => some text
  | _ => none

/-- The hole of a splice. -/
def splice? : Tree → Option Hole
  | leaf (.splice hole) _ => some hole
  | _ => none

/-! ## Equality -/

mutual

/-- Equality of trees, spans included. -/
protected def decEq : (a b : Tree) → Decidable (a = b)
  | leaf l s, leaf l' s' => decidable_of_iff (l = l' ∧ s = s') (by simp)
  | leaf _ _, node _ _ _ => .isFalse (by simp)
  | node _ _ _, leaf _ _ => .isFalse (by simp)
  | node k cs s, node k' cs' s' =>
    have := Tree.decEqList cs cs'
    decidable_of_iff (k = k' ∧ cs = cs' ∧ s = s') (by simp)

/-- Equality of lists of trees, spans included. -/
protected def decEqList : (as bs : List Tree) → Decidable (as = bs)
  | [], [] => .isTrue rfl
  | [], _ :: _ => .isFalse (by simp)
  | _ :: _, [] => .isFalse (by simp)
  | a :: as, b :: bs =>
    have := Tree.decEq a b
    have := Tree.decEqList as bs
    decidable_of_iff (a = b ∧ as = bs) (by simp)

end

instance : DecidableEq Tree := Tree.decEq

mutual

/-- Equality of trees up to spans. -/
def sameUpToSpans : Tree → Tree → Bool
  | leaf l _, leaf l' _ => l == l'
  | node k cs _, node k' cs' _ => k == k' && sameUpToSpansList cs cs'
  | _, _ => false

/-- Equality of lists of trees up to spans. -/
def sameUpToSpansList : List Tree → List Tree → Bool
  | [], [] => true
  | a :: as, b :: bs => sameUpToSpans a b && sameUpToSpansList as bs
  | _, _ => false

end

/-! ## Contents -/

mutual

/-- The holes of a template, from left to right. -/
def holes : Tree → List (Hole × HoleForm)
  | leaf (.antiquot hole) _ => [(hole, .single)]
  | leaf (.splice hole) _ => [(hole, .sequence)]
  | leaf _ _ => []
  | node _ children _ => holesList children

/-- The holes of a list of templates, from left to right. -/
def holesList : List Tree → List (Hole × HoleForm)
  | [] => []
  | t :: ts => holes t ++ holesList ts

end

mutual

/-- The identifiers of a tree, from left to right. -/
def idents : Tree → List String
  | leaf (.ident name) _ => [name]
  | leaf _ _ => []
  | node _ children _ => identsList children

/-- The identifiers of a list of trees, from left to right. -/
def identsList : List Tree → List String
  | [] => []
  | t :: ts => idents t ++ identsList ts

end

def hasHoles (t : Tree) : Bool := !t.holes.isEmpty

end Tree

namespace Category

/-- Whether a tree belongs to a category. -/
def accepts : Category → Tree → Bool
  | any, _ => true
  | ident, .leaf (.ident _) _ => true
  | atom, .leaf (.atom _) _ => true
  | num, .leaf (.atom text) _ => isNumeral text
  | kind name, .node k _ _ => name == k
  | _, _ => false

/-- The text of a category. -/
def render : Category → String
  | any => "any"
  | ident => "ident"
  | atom => "atom"
  | num => "num"
  | kind name => name

end Category

end MacroExpansion
