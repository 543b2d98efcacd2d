import MacroExpansion.Tree.Basic

/-!
# Parts of a tree

The parts of a tree are the tree itself and the parts of its children.  A statement about every tree
is proved by `inductionOn`, which has a hypothesis for each child of a node.
-/

namespace MacroExpansion.Tree

@[elab_as_elim]
theorem inductionOn {motive : Tree → Prop} (leaf : ∀ l span, motive (leaf l span))
    (node : ∀ kind children span, (∀ child ∈ children, motive child) →
      motive (node kind children span)) (tree : Tree) : motive tree := by
  cases tree with
  | leaf l span => exact leaf l span
  | node kind children span =>
    refine node kind children span fun child hchild => ?_
    exact inductionOn leaf node child
termination_by sizeOf tree
decreasing_by
  have hlt := List.sizeOf_lt_of_mem hchild
  simp only [Tree.node.sizeOf_spec]
  omega

/-- A part of a tree is the tree or a part of one of its children. -/
inductive IsPart : Tree → Tree → Prop
  | self (tree : Tree) : IsPart tree tree
  | child {part child : Tree} {kind : String} {children : List Tree} {span : Option Span} :
      child ∈ children → IsPart part child → IsPart part (node kind children span)

theorem isPart_leaf_iff {part : Tree} {l : Leaf} {span : Option Span} :
    IsPart part (leaf l span) ↔ part = leaf l span := by
  constructor
  · rintro ⟨⟩
    rfl
  · rintro rfl
    exact .self _

theorem isPart_node_iff {part : Tree} {kind : String} {children : List Tree}
    {span : Option Span} :
    IsPart part (node kind children span) ↔
      part = node kind children span ∨ ∃ child ∈ children, IsPart part child := by
  constructor
  · intro h
    cases h with
    | self => exact .inl rfl
    | child hmem h => exact .inr ⟨_, hmem, h⟩
  · rintro (rfl | ⟨child, hmem, h⟩)
    · exact .self _
    · exact .child hmem h

theorem mem_identsList {name : String} {trees : List Tree} :
    name ∈ identsList trees ↔ ∃ tree ∈ trees, name ∈ tree.idents := by
  induction trees with
  | nil => simp [identsList]
  | cons tree trees ih => simp [identsList, ih]

end MacroExpansion.Tree
