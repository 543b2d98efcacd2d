import MacroExpansion.Template.Match

/-!
# Trees without spans

The skeleton of a tree has no spans, and its identifiers may be renamed.  Trees are equal up to
spans exactly if their skeletons are equal (`sameUpToSpans_iff_skeleton`), and so are bindings, so
that equality up to spans can be calculated with like equality.
-/

namespace MacroExpansion

/-- A leaf with another name, if it is an identifier. -/
def Leaf.rename (rename : String → String) : Leaf → Leaf
  | ident name => ident (rename name)
  | l => l

theorem Leaf.rename_id (l : Leaf) : l.rename id = l := by
  cases l <;> rfl

namespace Tree

mutual

/-- A tree without its spans, and with its identifiers renamed. -/
def skeleton (rename : String → String) : Tree → Tree
  | leaf l _ => leaf (l.rename rename) none
  | node kind children _ => node kind (skeletonList rename children) none

/-- Trees without their spans, and with their identifiers renamed. -/
def skeletonList (rename : String → String) : List Tree → List Tree
  | [] => []
  | t :: ts => skeleton rename t :: skeletonList rename ts

end

variable {rename : String → String}

theorem skeletonList_append (trees trees' : List Tree) :
    skeletonList rename (trees ++ trees') =
      skeletonList rename trees ++ skeletonList rename trees' := by
  induction trees with
  | nil => rfl
  | cons tree trees ih => rw [List.cons_append, skeletonList, ih, skeletonList, List.cons_append]

mutual

theorem skeleton_skeleton (tree : Tree) :
    (tree.skeleton id).skeleton rename = tree.skeleton rename := by
  match tree with
  | leaf l span => rw [skeleton, skeleton, skeleton, Leaf.rename_id]
  | node kind children span =>
    rw [skeleton, skeleton, skeleton, skeletonList_skeletonList children]

theorem skeletonList_skeletonList (trees : List Tree) :
    skeletonList rename (skeletonList id trees) = skeletonList rename trees := by
  match trees with
  | [] => rfl
  | tree :: trees =>
    rw [skeletonList, skeletonList, skeletonList, skeleton_skeleton tree,
      skeletonList_skeletonList trees]

end

/-! ## Equality up to spans -/

mutual

theorem sameUpToSpans_iff_skeleton {tree tree' : Tree} :
    tree.sameUpToSpans tree' = true ↔ tree.skeleton id = tree'.skeleton id := by
  match tree, tree' with
  | leaf l span, leaf l' span' => simp [sameUpToSpans, skeleton, Leaf.rename_id]
  | leaf l span, node kind children span' => simp [sameUpToSpans, skeleton]
  | node kind children span, leaf l span' => simp [sameUpToSpans, skeleton]
  | node kind children span, node kind' children' span' =>
    have hchildren : sameUpToSpansList children children' = true ↔
        skeletonList id children = skeletonList id children' := sameUpToSpansList_iff_skeletonList
    simp [sameUpToSpans, skeleton, hchildren]

theorem sameUpToSpansList_iff_skeletonList {trees trees' : List Tree} :
    sameUpToSpansList trees trees' = true ↔ skeletonList id trees = skeletonList id trees' := by
  match trees, trees' with
  | [], [] => simp [sameUpToSpansList]
  | [], tree' :: trees' => simp [sameUpToSpansList, skeletonList]
  | tree :: trees, [] => simp [sameUpToSpansList, skeletonList]
  | tree :: trees, tree' :: trees' =>
    have htree : tree.sameUpToSpans tree' = true ↔ tree.skeleton id = tree'.skeleton id :=
      sameUpToSpans_iff_skeleton
    have htrees : sameUpToSpansList trees trees' = true ↔
        skeletonList id trees = skeletonList id trees' := sameUpToSpansList_iff_skeletonList
    simp [sameUpToSpansList, skeletonList, htree, htrees]

end

/-- Trees that are equal up to spans have the same skeleton under every renaming. -/
theorem skeleton_eq_of_sameUpToSpans {tree tree' : Tree} (h : tree.sameUpToSpans tree' = true)
    (rename : String → String) : tree.skeleton rename = tree'.skeleton rename := by
  rw [← skeleton_skeleton tree, sameUpToSpans_iff_skeleton.1 h, skeleton_skeleton]

theorem skeletonList_eq_of_sameUpToSpansList {trees trees' : List Tree}
    (h : sameUpToSpansList trees trees' = true) (rename : String → String) :
    skeletonList rename trees = skeletonList rename trees' := by
  rw [← skeletonList_skeletonList trees, sameUpToSpansList_iff_skeletonList.1 h,
    skeletonList_skeletonList]

end Tree

namespace Binding

/-- A binding without the spans of its trees. -/
def skeleton : Binding → Binding
  | one tree => one (tree.skeleton id)
  | many trees => many (Tree.skeletonList id trees)

theorem sameUpToSpans_iff_skeleton {a b : Binding} :
    a.sameUpToSpans b = true ↔ a.skeleton = b.skeleton := by
  match a, b with
  | one a, one b => simp [sameUpToSpans, skeleton, Tree.sameUpToSpans_iff_skeleton]
  | one a, many bs => simp [sameUpToSpans, skeleton]
  | many as, one b => simp [sameUpToSpans, skeleton]
  | many as, many bs => simp [sameUpToSpans, skeleton, Tree.sameUpToSpansList_iff_skeletonList]

end Binding

end MacroExpansion
