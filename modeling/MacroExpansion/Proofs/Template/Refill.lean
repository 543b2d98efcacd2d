import MacroExpansion.Proofs.Name.History
import MacroExpansion.Proofs.Template.Pieces
import MacroExpansion.Proofs.Template.Instance

/-!
# Filling a pattern with what it matched

Matching takes a tree apart, and filling the pattern with the bindings puts it together again
(`fill_match?`).  What is lost are spans, and how identifiers were scoped: the identifiers of the
pattern match by their bases, and are stamped when the pattern is filled.
-/

namespace MacroExpansion

open ScopedName (eraseScopes)

namespace Filling

variable {f : Filling}

mutual

theorem skeleton_fill {pattern tree out : Tree}
    (h : Tree.IsInstance f.bindings.assignment pattern tree) (hfill : f.fill pattern = .ok out) :
    out.skeleton eraseScopes = tree.skeleton eraseScopes := by
  match pattern with
  | .leaf (.antiquot hole) span =>
    cases h with
    | hole _ hvalue hsame =>
      have hout := single_eq_ok_iff.1 hfill
      obtain rfl := Binding.one.inj (Option.some.inj (hout.symm.trans hvalue))
      exact (Tree.skeleton_eq_of_sameUpToSpans hsame eraseScopes).symm
  | .leaf (.splice hole) span => cases h
  | .leaf (.ident name) span =>
    cases h with
    | ident hname =>
      obtain ⟨stamped, hstamp, rfl⟩ := ident_eq_ok_iff.1 hfill
      simp only [Tree.skeleton, Leaf.rename, ScopedName.eraseScopes_of_stamp hstamp, hname]
  | .leaf (.atom text) span =>
    cases h with
    | atom =>
      obtain rfl := Except.ok.inj hfill
      rfl
  | .node kind patterns span =>
    cases h with
    | node hchildren =>
      obtain ⟨filled, hfilled, rfl⟩ := fill_node_eq_ok_iff.1 hfill
      rw [Tree.skeleton, Tree.skeleton, skeletonList_fillList hchildren hfilled]

theorem skeletonList_fillList {patterns trees outs : List Tree}
    (h : Tree.AreInstances f.bindings.assignment patterns trees)
    (hfill : f.fillList patterns = .ok outs) :
    Tree.skeletonList eraseScopes outs = Tree.skeletonList eraseScopes trees := by
  match patterns with
  | [] =>
    cases h
    obtain rfl := Except.ok.inj hfill
    rfl
  | pattern :: patterns =>
    cases h with
    | splice _ hvalue hsame hrest =>
      obtain ⟨run, filled, hrun, hfilled, rfl⟩ := fillList_splice_eq_ok_iff.1 hfill
      have hout := sequence_eq_ok_iff.1 hrun
      obtain rfl := Binding.many.inj (Option.some.inj (hout.symm.trans hvalue))
      rw [Tree.skeletonList_append, Tree.skeletonList_append,
        Tree.skeletonList_eq_of_sameUpToSpansList hsame, skeletonList_fillList hrest hfilled]
    | cons htree hrest =>
      have hsplice (hole : Hole) (span : Option Span) : pattern ≠ .leaf (.splice hole) span := by
        rintro rfl
        cases htree
      obtain ⟨out, filled, hout, hfilled, rfl⟩ := (fillList_cons_eq_ok_iff hsplice).1 hfill
      rw [Tree.skeletonList, Tree.skeletonList, skeleton_fill htree hout,
        skeletonList_fillList hrest hfilled]

end

end Filling

namespace Context

theorem canFill_of_match? {cx : Context} {scope : Scope} {pattern tree : Tree}
    {bindings : Bindings} (hmatch : pattern.match? tree = some bindings)
    (hscope : cx.scope? = some scope)
    (hstamps : ∀ name ∈ pattern.idents, ∃ stamped,
      ScopedName.stamp name cx.mainModule scope = .ok stamped) :
    cx.CanFill pattern bindings scope := by
  refine ⟨hscope, Tree.splice?_eq_none ?_, Tree.binds_of_match? hmatch, hstamps⟩
  rintro hole span rfl
  cases hmatch

/-- A pattern filled with what it matched is the tree that it matched, except for spans and for the
scopes of identifiers. -/
theorem fill_match? {cx : Context} {scope : Scope} {pattern tree : Tree} {bindings : Bindings}
    (hmatch : pattern.match? tree = some bindings) (hscope : cx.scope? = some scope)
    (hstamps : ∀ name ∈ pattern.idents, ∃ stamped,
      ScopedName.stamp name cx.mainModule scope = .ok stamped) :
    ∃ out, cx.fill pattern bindings = .ok out ∧
      out.skeleton eraseScopes = tree.skeleton eraseScopes := by
  have hcan := canFill_of_match? hmatch hscope hstamps
  obtain ⟨out, hout⟩ := hcan.exists_fill
  obtain ⟨scope', -, hfill⟩ := exists_fill_of_scope? hout
  exact ⟨out, hout, Filling.skeleton_fill (Tree.isInstance_of_match? hmatch) hfill⟩

/-- The pattern of a call by name, filled again after it has matched a call of a scoped name. -/
theorem fill_match?_call :
    let pattern : Tree := .node "call" [.leaf (.ident "f") none,
      .leaf (.splice ⟨"args", .any⟩) none, .leaf (.atom ";") none] none
    let tree : Tree := .node "call" [.leaf (.ident "f._@.Lib._hyg.3") (some ⟨0, 1⟩),
      .leaf (.atom "1") none, .leaf (.ident "y") (some ⟨4, 5⟩), .leaf (.atom ";") none] none
    let bindings : Bindings :=
      [("args", .many [.leaf (.atom "1") none, .leaf (.ident "y") (some ⟨4, 5⟩)])]
    pattern.match? tree = some bindings ∧
      ∃ out, Context.fill ⟨"Main", [7], [], 7⟩ pattern bindings = .ok out ∧
        out.skeleton eraseScopes = .node "call" [.leaf (.ident "f") none, .leaf (.atom "1") none,
          .leaf (.ident "y") none, .leaf (.atom ";") none] none := by
  intro pattern tree bindings
  have hmatch : pattern.match? tree = some bindings := by cbv
  have hstamp : ScopedName.stamp "f" "Main" 7 = .ok "f._@.Main._hyg.7" := by cbv
  have hskeleton : tree.skeleton eraseScopes = .node "call" [.leaf (.ident "f") none,
      .leaf (.atom "1") none, .leaf (.ident "y") none, .leaf (.atom ";") none] none := by cbv
  have hscope : Context.scope? ⟨"Main", [7], [], 7⟩ = some 7 := rfl
  obtain ⟨out, hfill, hout⟩ :=
    fill_match? hmatch hscope (List.forall_mem_singleton.2 ⟨_, hstamp⟩)
  exact ⟨hmatch, out, hfill, hout.trans hskeleton⟩

end Context

end MacroExpansion
