import Mathlib.Data.List.Forall2
import MacroExpansion.Name.Decode
import MacroExpansion.Proofs.Tree.Parts

/-!
# Trees that are alike

A likeness says which identifiers and which spans may stand for each other.  Trees are alike when
they differ in nothing else.  A likeness is lawful if it cannot be told by comparing identifiers,
neither with each other nor by their bases.  Then alike trees belong to the same categories, and
whether two trees are equal up to spans is the same for trees that are like them
(`sameUpToSpans_congr`).
-/

namespace MacroExpansion

/-- Which identifiers and which spans may stand for each other. -/
structure Likeness where
  ident : String → String → Prop
  span : Option Span → Option Span → Prop

namespace Likeness

/-- Comparing identifiers does not tell what is alike, and a span may be missing in both places. -/
structure Lawful (like : Likeness) : Prop where
  eraseScopes_eq : ∀ {name name'}, like.ident name name' →
    ScopedName.eraseScopes name = ScopedName.eraseScopes name'
  eq_iff : ∀ {name name' other other'}, like.ident name name' → like.ident other other' →
    (name = other ↔ name' = other')
  span_refl : ∀ span, like.span span span
  span_or : ∀ {span span' other other'}, like.span span span' → like.span other other' →
    like.span (span.or other) (span'.or other')

/-- The likeness that looks at everything but spans. -/
def upToSpans : Likeness := ⟨Eq, fun _ _ => True⟩

theorem upToSpans_lawful : upToSpans.Lawful where
  eraseScopes_eq h := congrArg ScopedName.eraseScopes h
  eq_iff h h' := h ▸ h' ▸ Iff.rfl
  span_refl _ := trivial
  span_or _ _ := trivial

end Likeness

/-- Leaves that are alike. -/
inductive Leaf.Alike (like : Likeness) : Leaf → Leaf → Prop
  | atom (text : String) : Alike like (.atom text) (.atom text)
  | ident {name name' : String} : like.ident name name' → Alike like (.ident name) (.ident name')
  | antiquot (hole : Hole) : Alike like (.antiquot hole) (.antiquot hole)
  | splice (hole : Hole) : Alike like (.splice hole) (.splice hole)

/-- Trees that are alike. -/
inductive Tree.Alike (like : Likeness) : Tree → Tree → Prop
  | leaf {l l' : Leaf} {span span' : Option Span} :
      l.Alike like l' → like.span span span' → Alike like (.leaf l span) (.leaf l' span')
  | node {kind : String} {children children' : List Tree} {span span' : Option Span} :
      List.Forall₂ (Alike like) children children' → like.span span span' →
      Alike like (.node kind children span) (.node kind children' span')

variable {like like' : Likeness}

namespace Leaf

theorem Alike.imp (hident : ∀ name name', like.ident name name' → like'.ident name name')
    {l l' : Leaf} (h : l.Alike like l') : l.Alike like' l' := by
  cases h with
  | atom text => exact .atom text
  | ident hname => exact .ident (hident _ _ hname)
  | antiquot hole => exact .antiquot hole
  | splice hole => exact .splice hole

theorem alike_refl_iff {l : Leaf} :
    l.Alike like l ↔ ∀ name, l = .ident name → like.ident name name := by
  constructor
  · rintro h name rfl
    cases h with
    | ident hname => exact hname
  · intro h
    cases l with
    | atom text => exact .atom text
    | ident name => exact .ident (h name rfl)
    | antiquot hole => exact .antiquot hole
    | splice hole => exact .splice hole

theorem Alike.eq_iff (hlawful : like.Lawful) {l l' other other' : Leaf} (h : l.Alike like l')
    (hother : other.Alike like other') : l = other ↔ l' = other' := by
  cases h with
  | ident hname =>
    cases hother with
    | ident hname' => simpa using hlawful.eq_iff hname hname'
    | _ => exact iff_of_false (by simp) (by simp)
  | _ =>
    cases hother with
    | ident => exact iff_of_false (by simp) (by simp)
    | _ => exact Iff.rfl

end Leaf

namespace Tree

theorem Alike.kind_eq {tree tree' : Tree} (h : tree.Alike like tree') : tree.kind = tree'.kind := by
  cases h with
  | leaf hleaf => cases hleaf <;> rfl
  | node => rfl

theorem Alike.span {tree tree' : Tree} (h : tree.Alike like tree') :
    like.span tree.span tree'.span := by
  cases h with
  | leaf _ hspan => exact hspan
  | node _ hspan => exact hspan

/-- Children that are related one by one are so by any relation that follows for each of them. -/
theorem forall₂_imp_of_mem {R S : Tree → Tree → Prop} {trees trees' : List Tree}
    (h : List.Forall₂ R trees trees')
    (himp : ∀ tree ∈ trees, ∀ tree', R tree tree' → S tree tree') :
    List.Forall₂ S trees trees' :=
  ((List.forall₂_and_left trees trees').2 ⟨himp, h⟩).imp fun _ _ hboth => hboth.1 _ hboth.2

theorem Alike.imp (hident : ∀ name name', like.ident name name' → like'.ident name name')
    (hspan : ∀ span span', like.span span span' → like'.span span span') {tree tree' : Tree}
    (h : tree.Alike like tree') : tree.Alike like' tree' := by
  induction tree using Tree.inductionOn generalizing tree' with
  | leaf l span =>
    cases h with
    | leaf hleaf hspans => exact .leaf (hleaf.imp hident) (hspan _ _ hspans)
  | node kind children span ih =>
    cases h with
    | node hchildren hspans =>
      exact .node (forall₂_imp_of_mem hchildren fun child hchild _ => ih child hchild)
        (hspan _ _ hspans)

theorem Alike.refl (hspan : ∀ span, like.span span span) {tree : Tree}
    (h : ∀ name ∈ tree.idents, like.ident name name) : tree.Alike like tree := by
  induction tree using Tree.inductionOn with
  | leaf l span =>
    refine .leaf (Leaf.alike_refl_iff.2 ?_) (hspan span)
    rintro name rfl
    exact h name List.mem_cons_self
  | node kind children span ih =>
    refine .node (List.forall₂_same.2 fun child hchild => ?_) (hspan span)
    exact ih child hchild fun name hname => h name (mem_identsList.2 ⟨child, hchild, hname⟩)

/-! ## Equality up to spans -/

theorem sameUpToSpansList_congr {trees trees' others others' : List Tree}
    (h : List.Forall₂ (fun tree tree' => ∀ other other' : Tree, other.Alike like other' →
      tree.sameUpToSpans other = tree'.sameUpToSpans other') trees trees')
    (hothers : List.Forall₂ (Alike like) others others') :
    sameUpToSpansList trees others = sameUpToSpansList trees' others' := by
  induction h generalizing others others' with
  | nil => cases hothers <;> rfl
  | cons htree _ ih =>
    cases hothers with
    | nil => rfl
    | cons hother hothers =>
      rw [sameUpToSpansList, sameUpToSpansList, htree _ _ hother, ih hothers]

/-- Whether trees are equal up to spans does not change when like trees are put in their places. -/
theorem sameUpToSpans_congr (hlawful : like.Lawful) {tree tree' other other' : Tree}
    (h : tree.Alike like tree') (hother : other.Alike like other') :
    tree.sameUpToSpans other = tree'.sameUpToSpans other' := by
  induction tree using Tree.inductionOn generalizing tree' other other' with
  | leaf l span =>
    cases h with
    | leaf hleaf =>
      cases hother with
      | leaf hother =>
        rw [sameUpToSpans, sameUpToSpans, Bool.eq_iff_iff, beq_iff_eq, beq_iff_eq]
        exact hleaf.eq_iff hlawful hother
      | node => rfl
  | node kind children span ih =>
    cases h with
    | node hchildren =>
      cases hother with
      | leaf => rfl
      | node hothers =>
        have hlists := sameUpToSpansList_congr
          (forall₂_imp_of_mem hchildren fun child hchild _ h _ _ => ih child hchild h) hothers
        rw [sameUpToSpans, sameUpToSpans, hlists]

end Tree

theorem Category.accepts_congr (category : Category) {tree tree' : Tree}
    (h : tree.Alike like tree') : category.accepts tree = category.accepts tree' := by
  cases h with
  | leaf hleaf => cases hleaf <;> cases category <;> rfl
  | node => cases category <;> rfl

end MacroExpansion
